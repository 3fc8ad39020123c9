import Mathlib.Data.List.Sigma

/-!
# A bounded map that forgets the least recently used

Entries stand most recent first. A reader of the map learns only what was put
and not popped since: `peek_put_ne`, `peek_pop` and `peek_get` say what each
operation may do to a lookup, and `peek_put` that the last value put is there.
-/

structure Lru (K V : Type*) where
  cap : Nat
  entries : List (Σ _ : K, V)
  pos : 0 < cap
  distinct : entries.NodupKeys
  bounded : entries.length ≤ cap

namespace Lru

variable {K V : Type*} [DecidableEq K]

/-- An empty map; the capacity is at least one. -/
def withCapacity (entries : Nat) : Lru K V where
  cap := max entries 1
  entries := []
  pos := by omega
  distinct := List.nodupKeys_nil
  bounded := by simp

/-- The value at a key, the order of use unchanged. -/
def peek (m : Lru K V) (k : K) : Option V := m.entries.dlookup k

/-- Put `v` at `k` as the most recent entry, dropping the oldest one when the
map is full. -/
def put (m : Lru K V) (k : K) (v : V) : Lru K V where
  cap := m.cap
  entries := (m.entries.kinsert k v).take m.cap
  pos := m.pos
  distinct := (List.kinsert_nodupKeys k v m.distinct).sublist (List.take_sublist _ _)
  bounded := List.length_take_le _ _

/-- The value at a key, now the most recent entry. -/
def get (m : Lru K V) (k : K) : Option V × Lru K V :=
  match m.peek k with
  | some v => (some v, m.put k v)
  | none => (none, m)

def pop (m : Lru K V) (k : K) : Lru K V where
  cap := m.cap
  entries := m.entries.kerase k
  pos := m.pos
  distinct := m.distinct.kerase k
  bounded := Nat.le_trans (List.kerase_sublist k m.entries).length_le m.bounded

@[simp] theorem peek_withCapacity (n : Nat) (k : K) :
    (withCapacity n : Lru K V).peek k = none := rfl

@[simp] theorem peek_put (m : Lru K V) (k : K) (v : V) : (m.put k v).peek k = some v := by
  have pos := m.pos
  obtain ⟨n, hn⟩ : ∃ n, m.cap = n + 1 := ⟨m.cap - 1, by omega⟩
  simp only [peek, put, List.kinsert_def, hn, List.take_succ_cons, List.dlookup_cons_eq]

/-- A put may drop other entries and adds none. -/
theorem peek_put_ne {m : Lru K V} {k k' : K} {v w : V} (hk : k' ≠ k)
    (h : (m.put k v).peek k' = some w) : m.peek k' = some w := by
  have kept : w ∈ List.dlookup k' (m.entries.kinsert k v) :=
    List.sublist_dlookup (List.kinsert_nodupKeys k v m.distinct) (List.take_sublist _ _) h
  rwa [List.dlookup_kinsert_ne hk] at kept

theorem peek_pop (m : Lru K V) (k k' : K) :
    (m.pop k).peek k' = if k' = k then none else m.peek k' := by
  unfold peek pop
  split
  · rename_i h
    subst h
    exact List.dlookup_kerase k' m.distinct
  · rename_i h
    exact List.dlookup_kerase_ne h

@[simp] theorem get_fst (m : Lru K V) (k : K) : (m.get k).1 = m.peek k := by
  unfold get
  split <;> simp_all

/-- Using an entry does not change what the map holds. -/
theorem peek_get (m : Lru K V) (k k' : K) {w : V} (h : (m.get k).2.peek k' = some w) :
    m.peek k' = some w := by
  unfold get at h
  split at h
  · rename_i v hv
    by_cases hk : k' = k
    · subst hk
      rw [peek_put] at h
      rw [hv, h]
    · exact peek_put_ne hk h
  · exact h

end Lru
