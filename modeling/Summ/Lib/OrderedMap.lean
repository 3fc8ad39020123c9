import Mathlib.Order.Lattice
import Mathlib.Order.Monotone.Defs
import Mathlib.Data.List.Basic
import Mathlib.Order.Defs.LinearOrder

/-!
# Finite maps kept in key order

`OrderedMap K V` is a list of bindings whose keys strictly increase, so two
maps that answer every lookup alike are equal (`ext_get`), and the keys of a
range come out in order. `entriesWhere` lists the bindings a test selects.
-/

/-- A finite map as its bindings in strictly increasing key order. -/
structure OrderedMap (K V : Type*) [LinearOrder K] where
  entries : List (K × V)
  sorted : entries.Pairwise (fun a b => a.1 < b.1)

namespace OrderedMap

section Lists
variable {K V : Type*} [LinearOrder K]

/-- The value the bindings give `k`. -/
def find (k : K) : List (K × V) → Option V
  | [] => none
  | (k', v) :: rest => if k' = k then some v else find k rest

/-- Put `v` at `k`, replacing what was there. -/
def put (k : K) (v : V) : List (K × V) → List (K × V)
  | [] => [(k, v)]
  | (k', v') :: rest =>
    if k < k' then (k, v) :: (k', v') :: rest
    else if k' = k then (k, v) :: rest
    else (k', v') :: put k v rest

theorem find_eq_some {k : K} {v : V} {l : List (K × V)}
    (hl : l.Pairwise (fun a b => a.1 < b.1)) : find k l = some v ↔ (k, v) ∈ l := by
  induction l with
  | nil => simp [find]
  | cons b rest ih =>
    obtain ⟨k', v'⟩ := b
    obtain ⟨below, hrest⟩ := List.pairwise_cons.mp hl
    rw [find, List.mem_cons]
    split
    · rename_i h
      subst h
      constructor
      · intro h; cases h; exact Or.inl rfl
      · rintro (h | h)
        · cases h; rfl
        · exact absurd (below _ h) (lt_irrefl _)
    · rename_i h
      rw [ih hrest]
      constructor
      · exact Or.inr
      · rintro (h' | h')
        · cases h'; exact absurd rfl h
        · exact h'

theorem find_put (k k' : K) (v : V) (l : List (K × V)) :
    find k' (put k v l) = if k = k' then some v else find k' l := by
  induction l with
  | nil => rfl
  | cons b rest ih =>
    obtain ⟨k₁, v₁⟩ := b
    rw [put]
    split
    · rfl
    · split
      · rename_i _ h
        subst h
        by_cases hk : k₁ = k' <;> simp [find, hk]
      · rename_i _ h
        by_cases hk : k₁ = k'
        · subst hk; simp [find, Ne.symm h]
        · simp [find, hk, ih]

theorem mem_put {k : K} {v : V} {b : K × V} {l : List (K × V)} (h : b ∈ put k v l) :
    b = (k, v) ∨ b ∈ l := by
  induction l with
  | nil => simpa [put] using h
  | cons b' rest ih =>
    obtain ⟨k', v'⟩ := b'
    rw [put] at h
    split at h
    · simpa using h
    · split at h
      · rcases List.mem_cons.mp h with h | h
        · exact Or.inl h
        · exact Or.inr (List.mem_cons_of_mem _ h)
      · rcases List.mem_cons.mp h with h | h
        · exact Or.inr (h ▸ List.mem_cons_self)
        · rcases ih h with h | h
          · exact Or.inl h
          · exact Or.inr (List.mem_cons_of_mem _ h)

theorem put_sorted (k : K) (v : V) {l : List (K × V)}
    (hl : l.Pairwise (fun a b => a.1 < b.1)) : (put k v l).Pairwise (fun a b => a.1 < b.1) := by
  induction l with
  | nil => exact List.pairwise_singleton _ _
  | cons b rest ih =>
    obtain ⟨k', v'⟩ := b
    obtain ⟨below, hrest⟩ := List.pairwise_cons.mp hl
    rw [put]
    split
    · rename_i h
      refine List.pairwise_cons.mpr ⟨?_, hl⟩
      intro b hb
      rcases List.mem_cons.mp hb with rfl | hb
      · exact h
      · exact lt_trans h (below b hb)
    · split
      · rename_i _ h
        subst h
        exact List.pairwise_cons.mpr ⟨below, hrest⟩
      · rename_i h h'
        refine List.pairwise_cons.mpr ⟨?_, ih hrest⟩
        intro b hb
        rcases mem_put hb with rfl | hb
        · exact lt_of_le_of_ne (not_lt.mp h) h'
        · exact below b hb

/-! Over a list in order, a test that is closed downwards selects a prefix. -/

section Cutoff
variable {α : Type*} {p : α → Bool} {l : List α}

theorem takeWhile_eq_filter (h : l.Pairwise fun a b => p b = true → p a = true) :
    l.takeWhile p = l.filter p := by
  induction l with
  | nil => rfl
  | cons a l ih =>
    obtain ⟨below, hl⟩ := List.pairwise_cons.mp h
    cases ha : p a with
    | true => rw [List.takeWhile_cons_of_pos ha, List.filter_cons_of_pos ha, ih hl]
    | false =>
      rw [List.takeWhile_cons_of_neg (by simp [ha]), List.filter_cons_of_neg (by simp [ha])]
      symm
      rw [List.filter_eq_nil_iff]
      intro b hb hpb
      simp [below b hb hpb] at ha

theorem dropWhile_eq_filter (h : l.Pairwise fun a b => p b = true → p a = true) :
    l.dropWhile p = l.filter fun a => !p a := by
  induction l with
  | nil => rfl
  | cons a l ih =>
    obtain ⟨below, hl⟩ := List.pairwise_cons.mp h
    cases ha : p a with
    | true => rw [List.dropWhile_cons_of_pos ha, List.filter_cons_of_neg (by simp [ha]), ih hl]
    | false =>
      rw [List.dropWhile_cons_of_neg (by simp [ha]), List.filter_cons_of_pos (by simp [ha])]
      congr 1
      symm
      rw [List.filter_eq_self]
      intro b hb
      cases hpb : p b with
      | false => rfl
      | true => simp [below b hb hpb] at ha

end Cutoff

/-- The first `n` bindings are those with fewer than `n` keys below them. -/
theorem mem_take_iff {l : List (K × V)} (hl : l.Pairwise fun a b => a.1 < b.1) {n : Nat}
    {e : K × V} :
    e ∈ l.take n ↔ e ∈ l ∧ (l.filter fun x => decide (x.1 < e.1)).length < n := by
  induction l generalizing n with
  | nil => simp
  | cons a l ih =>
    obtain ⟨below, hl⟩ := List.pairwise_cons.mp hl
    cases n with
    | zero => simp
    | succ n =>
      rw [List.take_succ_cons, List.mem_cons, List.mem_cons, ih hl]
      constructor
      · rintro (rfl | ⟨he, few⟩)
        · have none : (l.filter fun x => decide (x.1 < e.1)) = [] :=
            List.filter_eq_nil_iff.mpr fun x hx => by simpa using le_of_lt (below x hx)
          refine ⟨Or.inl rfl, ?_⟩
          rw [List.filter_cons_of_neg (by simp), none]
          exact Nat.succ_pos n
        · refine ⟨Or.inr he, ?_⟩
          rw [List.filter_cons_of_pos (by simpa using below e he), List.length_cons]
          omega
      · rintro ⟨rfl | he, few⟩
        · exact Or.inl rfl
        · rw [List.filter_cons_of_pos (by simpa using below e he), List.length_cons] at few
          exact Or.inr ⟨he, by omega⟩

/-- Over a list in the order of `f`, what lies above an entry is what follows it. -/
theorem filter_lt_getElem {α : Type*} (f : α → K) {l : List α} (hl : l.Pairwise fun a b => f a < f b)
    {i : Nat} (h : i < l.length) : (l.filter fun b => decide (f l[i] < f b)) = l.drop (i + 1) := by
  induction l generalizing i with
  | nil => cases h
  | cons b l ih =>
    obtain ⟨below, hrest⟩ := List.pairwise_cons.mp hl
    cases i with
    | zero =>
      rw [List.filter_cons_of_neg (by simp), List.drop_succ_cons, List.drop_zero,
        List.filter_eq_self.mpr]
      intro c hc
      simpa using below c hc
    | succ i =>
      have hi : i < l.length := by simpa using h
      rw [List.filter_cons_of_neg, List.drop_succ_cons]
      · exact ih hrest hi
      · simpa using le_of_lt (below _ (List.getElem_mem hi))

theorem le_of_getLast {l : List (K × V)} (hl : l.Pairwise (fun a b => a.1 < b.1)) {b : K × V}
    (hb : l.getLast? = some b) {a : K × V} (ha : a ∈ l) : a.1 ≤ b.1 := by
  obtain ⟨front, rfl⟩ := List.getLast?_eq_some_iff.mp hb
  rcases List.mem_append.mp ha with ha | ha
  · exact le_of_lt ((List.pairwise_append.mp hl).2.2 a ha b List.mem_cons_self)
  · rw [List.mem_singleton.mp ha]

end Lists

variable {K V : Type*} [LinearOrder K]

@[ext] theorem ext {m n : OrderedMap K V} (h : m.entries = n.entries) : m = n := by
  cases m; cases n; cases h; rfl

instance [DecidableEq V] : DecidableEq (OrderedMap K V) := fun m n =>
  decidable_of_iff (m.entries = n.entries) ⟨ext, congrArg entries⟩

def empty : OrderedMap K V := ⟨[], List.Pairwise.nil⟩

instance : EmptyCollection (OrderedMap K V) := ⟨empty⟩

instance : Inhabited (OrderedMap K V) := ⟨empty⟩

def get (m : OrderedMap K V) (k : K) : Option V := find k m.entries

def insert (m : OrderedMap K V) (k : K) (v : V) : OrderedMap K V :=
  ⟨put k v m.entries, put_sorted k v m.sorted⟩

/-- Keep the bindings whose key passes the test. -/
def keep (m : OrderedMap K V) (p : K → Bool) : OrderedMap K V :=
  ⟨m.entries.filter (fun b => p b.1), m.sorted.filter _⟩

def erase (m : OrderedMap K V) (k : K) : OrderedMap K V := m.keep (fun k' => decide (k' ≠ k))

/-- What a run of edits leaves at a key, the last edit there deciding: `none`
where no edit touches it, `some none` where it ends up deleted. -/
def leaves {α : Type*} (edit : α → K → Option (Option V)) : List α → K → Option (Option V)
  | [], _ => none
  | a :: as, k => (leaves edit as k).or (edit a k)

/-- The map with its keys and values rewritten by a function that keeps the order. -/
def image {K' V' : Type*} [LinearOrder K'] (m : OrderedMap K V) (f : K → K') (mono : StrictMono f)
    (g : V → V') : OrderedMap K' V' where
  entries := m.entries.map fun b => (f b.1, g b.2)
  sorted := List.pairwise_map.mpr (m.sorted.imp fun lt => mono lt)

/-- The bindings a test on keys selects, in key order. -/
def entriesWhere (m : OrderedMap K V) (p : K → Bool) : List (K × V) :=
  m.entries.filter (fun b => p b.1)

@[simp] theorem get_empty (k : K) : (∅ : OrderedMap K V).get k = none := rfl

theorem get_eq_some {m : OrderedMap K V} {k : K} {v : V} :
    m.get k = some v ↔ (k, v) ∈ m.entries := find_eq_some m.sorted

@[simp] theorem get_insert (m : OrderedMap K V) (k k' : K) (v : V) :
    (m.insert k v).get k' = if k = k' then some v else m.get k' := find_put k k' v m.entries

@[simp] theorem get_keep (m : OrderedMap K V) (p : K → Bool) (k : K) :
    (m.keep p).get k = if p k then m.get k else none := by
  apply Option.ext
  intro v
  rw [get_eq_some]
  simp only [keep, List.mem_filter, ← get_eq_some]
  cases p k <;> simp

@[simp] theorem get_erase (m : OrderedMap K V) (k k' : K) :
    (m.erase k).get k' = if k = k' then none else m.get k' := by
  rw [erase, get_keep]
  by_cases h : k = k'
  · simp [h]
  · simp [h, Ne.symm h]

/-- A map is determined by its lookups. -/
theorem ext_get {m n : OrderedMap K V} (h : ∀ k, m.get k = n.get k) : m = n := by
  apply ext
  have antisymm : ∀ a b, a ∈ m.entries → b ∈ n.entries → a.1 < b.1 → b.1 < a.1 → a = b := by
    intro a b _ _ hab hba
    exact absurd (lt_trans hab hba) (lt_irrefl _)
  refine List.Perm.eq_of_pairwise antisymm m.sorted n.sorted ?_
  · apply (List.perm_ext_iff_of_nodup ?_ ?_).mpr
    · rintro ⟨k, v⟩
      rw [← get_eq_some, ← get_eq_some, h]
    · exact m.sorted.imp (fun hab hne => by subst hne; exact lt_irrefl _ hab)
    · exact n.sorted.imp (fun hab hne => by subst hne; exact lt_irrefl _ hab)

/-! Runs of edits, key by key. -/

section Edits
variable {α β : Type*} {edit : α → K → Option (Option V)}

theorem get_foldl {step : OrderedMap K V → α → OrderedMap K V}
    (h : ∀ m a k, (step m a).get k = (edit a k).getD (m.get k)) (as : List α)
    (m : OrderedMap K V) (k : K) :
    (as.foldl step m).get k = (leaves edit as k).getD (m.get k) := by
  induction as generalizing m with
  | nil => rfl
  | cons a as ih =>
    rw [List.foldl_cons, ih, h, leaves]
    cases leaves edit as k <;> rfl

omit [LinearOrder K] in
theorem leaves_append (as bs : List α) (k : K) :
    leaves edit (as ++ bs) k = (leaves edit bs k).or (leaves edit as k) := by
  induction as with
  | nil => simp [leaves]
  | cons a as ih => rw [List.cons_append, leaves, ih, leaves, Option.or_assoc]

omit [LinearOrder K] in
theorem leaves_flatMap (f : β → List α) (bs : List β) (k : K) :
    leaves edit (bs.flatMap f) k = leaves (fun b => leaves edit (f b)) bs k := by
  induction bs with
  | nil => rfl
  | cons b bs ih => rw [List.flatMap_cons, leaves_append, ih, leaves]

omit [LinearOrder K] in
theorem leaves_congr {edit' : α → K → Option (Option V)} {k : K} {as : List α}
    (h : ∀ a ∈ as, edit a k = edit' a k) : leaves edit as k = leaves edit' as k := by
  induction as with
  | nil => rfl
  | cons a as ih =>
    rw [leaves, leaves, ih fun b hb => h b (List.mem_cons_of_mem _ hb), h a List.mem_cons_self]

omit [LinearOrder K] in
theorem leaves_eq_none {k : K} {as : List α} :
    leaves edit as k = none ↔ ∀ a ∈ as, edit a k = none := by
  induction as with
  | nil => simp [leaves]
  | cons a as ih => rw [leaves, Option.or_eq_none_iff, ih, List.forall_mem_cons, and_comm]

omit [LinearOrder K] in
/-- What a run leaves, one of its edits leaves. -/
theorem exists_of_leaves {k : K} {as : List α} {r : Option V} (h : leaves edit as k = some r) :
    ∃ a ∈ as, edit a k = some r := by
  induction as with
  | nil => cases h
  | cons a as ih =>
    rw [leaves, Option.or_eq_some_iff] at h
    rcases h with h | ⟨-, h⟩
    · obtain ⟨b, hb, hr⟩ := ih h
      exact ⟨b, List.mem_cons_of_mem _ hb, hr⟩
    · exact ⟨a, List.mem_cons_self, h⟩

end Edits

theorem mem_image {K' V' : Type*} [LinearOrder K'] {m : OrderedMap K V} {f : K → K'}
    {mono : StrictMono f} {g : V → V'} {k' : K'} {v' : V'} :
    (m.image f mono g).get k' = some v' ↔ ∃ k v, m.get k = some v ∧ f k = k' ∧ g v = v' := by
  simp only [get_eq_some, image, List.mem_map, Prod.exists, Prod.mk.injEq]

/-- A rewritten map answers at the keys it was rewritten to, and nowhere else. -/
theorem get_image {K' V' : Type*} [LinearOrder K'] {m : OrderedMap K V} {f : K → K'}
    {mono : StrictMono f} {g : V → V'} (k : K) :
    (m.image f mono g).get (f k) = (m.get k).map g := by
  apply Option.ext
  intro v'
  rw [mem_image, Option.map_eq_some_iff]
  constructor
  · rintro ⟨k₁, v, hv, hk, rfl⟩
    rw [mono.injective hk] at hv
    exact ⟨v, hv, rfl⟩
  · rintro ⟨v, hv, rfl⟩
    exact ⟨k, v, hv, rfl, rfl⟩

theorem mem_entriesWhere {m : OrderedMap K V} {p : K → Bool} {k : K} {v : V} :
    (k, v) ∈ m.entriesWhere p ↔ p k = true ∧ m.get k = some v := by
  rw [entriesWhere, List.mem_filter, get_eq_some]
  exact and_comm

/-- A range is determined by the lookups in it. -/
theorem entriesWhere_congr {m n : OrderedMap K V} {p : K → Bool}
    (h : ∀ k, p k = true → m.get k = n.get k) : m.entriesWhere p = n.entriesWhere p := by
  have same : m.keep p = n.keep p := by
    apply ext_get
    intro k
    rw [get_keep, get_keep]
    split
    · rename_i hp
      exact h k hp
    · rfl
  exact congrArg entries same

theorem entriesWhere_sorted (m : OrderedMap K V) (p : K → Bool) :
    (m.entriesWhere p).Pairwise (fun a b => a.1 < b.1) := m.sorted.filter _

/-- One page of a range: the bindings after the cursor, at most `limit` of
them, and whether another one follows. -/
def page (m : OrderedMap K V) (p : K → Bool) (after : Option K) (limit : Nat) :
    List (K × V) × Bool :=
  let rest := m.entriesWhere (fun k => p k && after.all (fun c => decide (c < k)))
  (rest.take limit, decide (limit < rest.length))

end OrderedMap
