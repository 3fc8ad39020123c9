import Summ.Meta.Rocks

/-!
# The metadata store

* `Store`: the bindings in key order, each key holding the record its type says;
* `MetaOp`, `WriteBatch`: the mutations, and what a batch leaves at a key
  (`WriteBatch.effect`, `Store.get_apply`);
* `Store.scan`, `Store.existsPrefix`: the engine's reads at the schema's keys.
-/

namespace Summ

/-- Whether the value is of the type the key's record is decoded as. -/
def Key.fits : Key → Value → Bool
  | .manifest .., .manifest _ => true
  | .manifestBody .., .manifestBody _ => true
  | .tag .., .tag _ => true
  | .manifestTag .., .edge => true
  | .blob _, .blob _ => true
  | .blobMark _, .mark _ => true
  | .blobRef .., .edge => true
  | .repoBlob .., .repoBlob _ => true
  | .childParent .., .edge => true
  | .referrer .., .referrer _ => true
  | .upload _, .upload _ => true
  | .tagHistory .., .event _ => true
  | .manifestTagHistory .., .event _ => true
  | .counterManifest .., .counter _ => true
  | .counterTag .., .counter _ => true
  | .counterRepo .., .counter _ => true
  | .deadRepo _, .dead _ => true
  | .repoByName _, .repoId _ => true
  | .repoById _, .repoName _ => true
  | .repoById _, .repoId _ => true
  | .dbVersion, .version _ => true
  | _, _ => false

/-- The keys and values stored. A record decodes, because only the record its
key calls for can be stored under it. -/
structure Store where
  map : OrderedMap Key Value
  typed : ∀ k v, map.get k = some v → k.fits v = true

inductive MetaOp
  | put (key : Key) (value : Value) (fits : key.fits value = true)
  | delete (key : Key)
  | deletePrefix (pre : Scan)

abbrev WriteBatch := List MetaOp

namespace MetaOp

/-- An edge key carries no value. -/
def set (key : Key) (fits : key.fits .edge = true) : MetaOp := put key .edge fits

/-- What the operation leaves at a key, when it touches it. -/
def effect : MetaOp → Key → Option (Option Value)
  | put key value _, k => if key = k then some (some value) else none
  | delete key, k => if key = k then some none else none
  | deletePrefix pre, k => if pre.covers k then some none else none

end MetaOp

namespace WriteBatch

/-- What a batch leaves at a key it touches: its last operation there decides. -/
def effect : WriteBatch → Key → Option (Option Value)
  | [], _ => none
  | op :: ops, k => (effect ops k).or (op.effect k)

@[simp] theorem effect_nil (k : Key) : effect [] k = none := rfl

@[simp] theorem effect_cons (op : MetaOp) (ops : WriteBatch) (k : Key) :
    effect (op :: ops) k = (effect ops k).or (op.effect k) := rfl

@[simp] theorem effect_append (b c : WriteBatch) (k : Key) :
    effect (b ++ c) k = (effect c k).or (effect b k) := by
  induction b with
  | nil => simp
  | cons op b ih => rw [List.cons_append, effect_cons, ih, effect_cons, Option.or_assoc]

theorem effect_eq_none {b : WriteBatch} {k : Key} :
    effect b k = none ↔ ∀ op ∈ b, op.effect k = none := by
  induction b with
  | nil => simp
  | cons op b ih => rw [effect_cons, Option.or_eq_none_iff, ih, List.forall_mem_cons, and_comm]

theorem exists_of_effect {b : WriteBatch} {k : Key} {r : Option Value}
    (h : effect b k = some r) : ∃ op ∈ b, op.effect k = some r := by
  induction b with
  | nil => cases h
  | cons op b ih =>
    rw [effect_cons, Option.or_eq_some_iff] at h
    rcases h with h | ⟨-, h⟩
    · obtain ⟨op', hop, hr⟩ := ih h
      exact ⟨op', List.mem_cons_of_mem _ hop, hr⟩
    · exact ⟨op, List.mem_cons_self, h⟩

/-- Where a batch only deletes, it leaves nothing at a key it touches. -/
theorem effect_of_deletes {b : WriteBatch} {k : Key} (h : ∀ op ∈ b, op.effect k ≠ none →
    op.effect k = some none) : effect b k = if ∃ op ∈ b, op.effect k = some none then some none
      else none := by
  cases he : effect b k with
  | none =>
    rw [effect_eq_none] at he
    rw [if_neg]
    rintro ⟨op, hop, hr⟩
    rw [he op hop] at hr
    cases hr
  | some r =>
    obtain ⟨op, hop, hr⟩ := exists_of_effect he
    have hnone := h op hop (by simp [hr])
    rw [if_pos ⟨op, hop, hnone⟩, ← hnone, hr]

/-- A run of deletes leaves nothing at the keys it names. -/
theorem effect_map_delete {α : Type*} (f : α → Key) (xs : List α) (k : Key) :
    effect (xs.map fun x => MetaOp.delete (f x)) k =
      if k ∈ xs.map f then some none else none := by
  induction xs with
  | nil => simp
  | cons x xs ih =>
    rw [List.map_cons, effect_cons, ih, List.map_cons]
    by_cases hxs : k ∈ xs.map f
    · rw [if_pos hxs, if_pos (List.mem_cons_of_mem _ hxs), Option.some_or]
    · by_cases hx : f x = k
      · rw [if_neg hxs, if_pos (by simp [hx]), Option.none_or, MetaOp.effect, if_pos hx]
      · rw [if_neg hxs, if_neg (by simp [hxs, Ne.symm hx]), Option.none_or, MetaOp.effect,
          if_neg hx]

/-- A run of edge writes leaves an edge at each key it names. -/
theorem effect_map_set {α : Type*} (f : α → Key) (fits : ∀ x, (f x).fits .edge = true)
    (xs : List α) (k : Key) :
    effect (xs.map fun x => MetaOp.set (f x) (fits x)) k =
      if k ∈ xs.map f then some (some .edge) else none := by
  induction xs with
  | nil => simp
  | cons x xs ih =>
    rw [List.map_cons, effect_cons, ih, List.map_cons]
    by_cases hxs : k ∈ xs.map f
    · rw [if_pos hxs, if_pos (List.mem_cons_of_mem _ hxs), Option.some_or]
    · by_cases hx : f x = k
      · rw [if_neg hxs, if_pos (by simp [hx]), Option.none_or, MetaOp.set, MetaOp.effect,
          if_pos hx]
      · rw [if_neg hxs, if_neg (by simp [hxs, Ne.symm hx]), Option.none_or, MetaOp.set,
          MetaOp.effect, if_neg hx]

/-- A batch built in pieces touches a key only where a piece does. -/
theorem effect_flatMap_none {α : Type*} {f : α → WriteBatch} {xs : List α} {k : Key}
    (h : ∀ x ∈ xs, effect (f x) k = none) : effect (xs.flatMap f) k = none := by
  induction xs with
  | nil => rfl
  | cons x xs ih =>
    rw [List.flatMap_cons, effect_append, h x List.mem_cons_self,
      ih fun y hy => h y (List.mem_cons_of_mem _ hy)]
    rfl

/-- Where every piece that touches a key leaves the same there, so does the batch. -/
theorem effect_flatMap_const {α : Type*} {f : α → WriteBatch} {xs : List α} {k : Key}
    {r : Option Value} (h : ∀ x ∈ xs, effect (f x) k = none ∨ effect (f x) k = some r) :
    effect (xs.flatMap f) k = some r ↔ ∃ x ∈ xs, effect (f x) k = some r := by
  induction xs with
  | nil => simp
  | cons x xs ih =>
    have tail := ih fun y hy => h y (List.mem_cons_of_mem _ hy)
    rw [List.flatMap_cons, effect_append, Option.or_eq_some_iff, tail]
    constructor
    · rintro (⟨y, hy, hr⟩ | ⟨-, hr⟩)
      · exact ⟨y, List.mem_cons_of_mem _ hy, hr⟩
      · exact ⟨x, List.mem_cons_self, hr⟩
    · rintro ⟨y, hy, hr⟩
      by_cases hxs : ∃ y ∈ xs, effect (f y) k = some r
      · exact Or.inl hxs
      · refine Or.inr ⟨?_, ?_⟩
        · apply effect_flatMap_none
          intro z hz
          rcases h z (List.mem_cons_of_mem _ hz) with hn | hs
          · exact hn
          · exact absurd ⟨z, hz, hs⟩ hxs
        · rcases List.mem_cons.mp hy with rfl | hy
          · exact hr
          · exact absurd ⟨y, hy, hr⟩ hxs

/-- What a batch built in pieces leaves at a key, some piece left there. -/
theorem effect_flatMap_some {α : Type*} {f : α → WriteBatch} {xs : List α} {k : Key}
    {r : Option Value} (h : effect (xs.flatMap f) k = some r) :
    ∃ x ∈ xs, effect (f x) k = some r := by
  induction xs with
  | nil => cases h
  | cons x xs ih =>
    rw [List.flatMap_cons, effect_append, Option.or_eq_some_iff] at h
    rcases h with h | ⟨-, h⟩
    · obtain ⟨y, hy, hr⟩ := ih h
      exact ⟨y, List.mem_cons_of_mem _ hy, hr⟩
    · exact ⟨x, List.mem_cons_self, h⟩

/-- Where one piece alone writes, the batch writes what the piece does. -/
theorem effect_flatMap_at {α : Type*} {f : α → WriteBatch} {k : Key} {x : α} {r : Option Value}
    {P : Prop} [Decidable P] [DecidableEq α]
    (h : ∀ y, effect (f y) k = if P ∧ y = x then some r else none) (xs : List α) :
    effect (xs.flatMap f) k = if P ∧ x ∈ xs then some r else none := by
  induction xs with
  | nil => simp
  | cons y xs ih =>
    rw [List.flatMap_cons, effect_append, ih, h]
    by_cases hy : y = x
    · subst hy
      by_cases hp : P <;> by_cases hxs : y ∈ xs <;> simp [hp, hxs]
    · by_cases hp : P <;> by_cases hxs : x ∈ xs <;> simp [hp, hxs, hy, Ne.symm hy]

end WriteBatch

theorem Scan.bytes_ne_nil (p : Scan) : p.bytes ≠ [] := by
  cases p <;> exact List.cons_ne_nil _ _

namespace Store

def empty : Store := ⟨∅, by simp⟩

instance : EmptyCollection Store := ⟨empty⟩

instance : Inhabited Store := ⟨empty⟩

def get (s : Store) (k : Key) : Option Value := s.map.get k

/-- `has k`: the key is present. -/
def has (s : Store) (k : Key) : Bool := (s.get k).isSome

theorem fits_of_get {s : Store} {k : Key} {v : Value} (h : s.get k = some v) : k.fits v = true :=
  s.typed k v h

@[simp] theorem get_empty (k : Key) : (∅ : Store).get k = none := rfl

/-- A store is determined by its lookups. -/
theorem ext_get {s t : Store} (h : ∀ k, s.get k = t.get k) : s = t := by
  obtain ⟨m, hm⟩ := s
  obtain ⟨n, hn⟩ := t
  obtain rfl : m = n := OrderedMap.ext_get h
  rfl

def put (s : Store) (k : Key) (v : Value) (fits : k.fits v = true) : Store where
  map := s.map.insert k v
  typed k' v' h := by
    rw [OrderedMap.get_insert] at h
    split at h
    · rename_i hk
      cases h
      exact hk ▸ fits
    · exact s.typed k' v' h

def keep (s : Store) (p : Key → Bool) : Store where
  map := s.map.keep p
  typed k v h := by
    rw [OrderedMap.get_keep] at h
    split at h
    · exact s.typed k v h
    · cases h

/-- One operation of `RocksEngine::apply`. -/
def applyOp (s : Store) : MetaOp → Store
  | .put key value fits => s.put key value fits
  | .delete key => s.keep fun k => decide (k ≠ key)
  | .deletePrefix pre => s.keep fun k => !Rocks.inDeleteRange pre.bytes k.bytes

/-- `RocksEngine::apply`: the operations in order, as one step. -/
def apply (s : Store) (batch : WriteBatch) : Store := batch.foldl applyOp s

theorem get_applyOp (s : Store) (op : MetaOp) (k : Key) :
    (s.applyOp op).get k = (op.effect k).getD (s.get k) := by
  cases op with
  | put key value fits =>
    simp only [applyOp, get, put, OrderedMap.get_insert, MetaOp.effect]
    split <;> rfl
  | delete key =>
    simp only [applyOp, get, keep, OrderedMap.get_keep, MetaOp.effect, decide_eq_true_eq]
    by_cases h : key = k
    · simp [h]
    · simp [h, Ne.symm h]
  | deletePrefix pre =>
    simp only [applyOp, get, keep, OrderedMap.get_keep, MetaOp.effect, Rocks.inDeleteRange_eq,
      Scan.bytes_prefix_iff]
    cases pre.covers k <;> simp

/-- What a batch leaves in the store, key by key. -/
theorem get_apply (s : Store) (batch : WriteBatch) (k : Key) :
    (s.apply batch).get k = (batch.effect k).getD (s.get k) := by
  induction batch generalizing s with
  | nil => rfl
  | cons op batch ih =>
    rw [show s.apply (op :: batch) = (s.applyOp op).apply batch from rfl, ih, get_applyOp,
      WriteBatch.effect_cons]
    cases WriteBatch.effect batch k <;> rfl

@[simp] theorem apply_nil (s : Store) : s.apply [] = s := rfl

theorem apply_append (s : Store) (b c : WriteBatch) : s.apply (b ++ c) = (s.apply b).apply c :=
  List.foldl_append

theorem get_apply_of_effect {s : Store} {batch : WriteBatch} {k : Key}
    (h : batch.effect k = none) : (s.apply batch).get k = s.get k := by
  rw [get_apply, h]
  rfl

theorem has_apply_of_effect {s : Store} {batch : WriteBatch} {k : Key}
    (h : batch.effect k = none) : (s.apply batch).has k = s.has k := by
  rw [has, has, get_apply_of_effect h]

theorem has_apply (s : Store) (batch : WriteBatch) (k : Key) :
    (s.apply batch).has k = ((batch.effect k).map Option.isSome).getD (s.has k) := by
  rw [has, get_apply]
  cases WriteBatch.effect batch k <;> rfl

/-! ## Reads -/

/-- `MetaEngine::scan`. -/
def scan (s : Store) (p : Scan) (startAfter : Option Key) (limit : Nat) : Page Key Value :=
  Rocks.scan Key.bytes s.map.entries p.bytes startAfter limit

/-- `MetaEngine::exists_prefix`. -/
def existsPrefix (s : Store) (p : Scan) : Bool :=
  Rocks.existsPrefix Key.bytes s.map.entries p.bytes

/-- The bindings under a scan prefix after a cursor, in key order. -/
def under (s : Store) (p : Scan) (startAfter : Option Key) : List (Key × Value) :=
  s.map.entriesWhere fun k => p.covers k && startAfter.all fun c => decide (c < k)

theorem mem_under {s : Store} {p : Scan} {c : Option Key} {k : Key} {v : Value} :
    (k, v) ∈ s.under p c ↔ p.covers k = true ∧ (∀ a ∈ c, a < k) ∧ s.get k = some v := by
  rw [under, OrderedMap.mem_entriesWhere, Bool.and_eq_true, and_assoc]
  cases c <;> simp [get]

theorem under_sorted (s : Store) (p : Scan) (c : Option Key) :
    (s.under p c).Pairwise fun a b => a.1 < b.1 := OrderedMap.entriesWhere_sorted _ _

theorem bytes_sorted (s : Store) :
    s.map.entries.Pairwise fun a b => a.1.bytes < b.1.bytes := s.map.sorted

theorem existsPrefix_iff {s : Store} {p : Scan} :
    s.existsPrefix p = true ↔ ∃ k v, p.covers k = true ∧ s.get k = some v := by
  rw [existsPrefix, Rocks.existsPrefix_iff s.bytes_sorted (Scan.bytes_ne_nil p)]
  constructor
  · rintro ⟨⟨k, v⟩, mem, hp⟩
    exact ⟨k, v, (Scan.bytes_prefix_iff p k).mp hp, OrderedMap.get_eq_some.mpr mem⟩
  · rintro ⟨k, v, hp, hv⟩
    exact ⟨(k, v), OrderedMap.get_eq_some.mp hv, (Scan.bytes_prefix_iff p k).mpr hp⟩

theorem mem_scan {s : Store} {p : Scan} {c : Option Key} {limit : Nat} {k : Key} {v : Value}
    (h : (k, v) ∈ (s.scan p c limit).entries) : p.covers k = true ∧ s.get k = some v := by
  obtain ⟨mem, hp⟩ := Rocks.mem_scan h
  exact ⟨(Scan.bytes_prefix_iff p k).mp hp, OrderedMap.get_eq_some.mpr mem⟩

/-- A page is cut from what the cursor sees of the bindings after it. -/
theorem scan_eq {s : Store} {p : Scan} {c : Option Key} (hc : ∀ k ∈ c, p.covers k = true)
    {limit : Nat} (pos : 0 < limit) :
    s.scan p c limit =
      Page.cut limit ((s.under p c).takeWhile fun e => Rocks.sees Key.bytes c e.1) := by
  have hc' : ∀ k ∈ c, p.bytes <+: k.bytes := fun k hk => (Scan.bytes_prefix_iff p k).mpr (hc k hk)
  rw [scan, Rocks.scan_eq s.bytes_sorted (Scan.bytes_ne_nil p) hc' pos]
  congr 2
  apply List.filter_congr
  rintro ⟨k, v⟩ _
  simp only [Scan.bytes_prefix_iff, Key.lt_iff, Bool.decide_eq_true]

end Store

end Summ
