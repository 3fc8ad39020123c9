import Summ.Meta.Cursor

/-!
# The redb engine's reads, and both engines from any cursor

A scan is asked to resume after a cursor, and the cursor need not be under the
prefix. Both engines then start at the cursor and stop at the first key that is
not under the prefix (`scan_from`).
-/

namespace Summ

open keys

namespace Redb

section
variable {κ V : Type*} (bytes : κ → Bytes)

/-- The table's range, from its lower bound on. -/
def range (entries : List (κ × V)) (pre : Bytes) (startAfter : Option κ) : List (κ × V) :=
  entries.filter fun e =>
    match startAfter with
    | some c => decide (bytes c < bytes e.1)
    | none => decide (pre ≤ bytes e.1)

/-- The loop of `RedbEngine::walk`: what it emits, and whether a further
matching key exists past the page. -/
def walk (pre : Bytes) (limit : Nat) : List (κ × V) → (taken : Nat) → List (κ × V) × Bool
  | [], _ => ([], false)
  | e :: it, taken =>
    if ¬ pre <+: bytes e.1 then ([], false)
    else if taken = limit then ([], true)
    else
      let (entries, more) := walk pre limit it (taken + 1)
      (e :: entries, more)

/-- `RedbEngine::scan`. -/
def scan (entries : List (κ × V)) (pre : Bytes) (startAfter : Option κ) (limit : Nat) :
    Page κ V :=
  if limit = 0 then { entries := [], next := none }
  else
    let (entries, more) := walk bytes pre limit (range bytes entries pre startAfter) 0
    { entries, next := if more then entries.getLast?.map Prod.fst else none }

end

section
variable {κ V : Type*} {bytes : κ → Bytes}

theorem walk_eq (pre : Bytes) (limit : Nat) (it : List (κ × V)) (taken : Nat) (h : taken ≤ limit) :
    walk bytes pre limit it taken =
      ((it.takeWhile fun e => decide (pre <+: bytes e.1)).take (limit - taken),
        decide (limit - taken < (it.takeWhile fun e => decide (pre <+: bytes e.1)).length)) := by
  induction it generalizing taken with
  | nil => simp [walk]
  | cons e it ih =>
    rw [walk]
    by_cases starts : pre <+: bytes e.1
    · rw [if_neg (not_not.mpr starts), List.takeWhile_cons_of_pos (p := fun e : κ × V => decide (pre <+: bytes e.1))
          (decide_eq_true starts)]
      by_cases full : taken = limit
      · simp [full]
      · rw [if_neg full, ih (taken + 1) (by omega)]
        have step : limit - taken = limit - (taken + 1) + 1 := by omega
        simp only [step, List.take_succ_cons, List.length_cons, Nat.add_lt_add_iff_right]
    · rw [if_pos starts, List.takeWhile_cons_of_neg (p := fun e : κ × V => decide (pre <+: bytes e.1))
          (by simpa using starts)]
      simp

variable (bytes) in
/-- A page is cut from the range up to the first key not under the prefix. -/
theorem scan_from (entries : List (κ × V)) (pre : Bytes) (startAfter : Option κ) {limit : Nat}
    (pos : 0 < limit) :
    scan bytes entries pre startAfter limit =
      Page.cut limit ((range bytes entries pre startAfter).takeWhile fun e =>
        decide (pre <+: bytes e.1)) := by
  rw [scan, if_neg (by omega)]
  simp only [walk_eq pre limit _ 0 (by omega), Nat.sub_zero, decide_eq_true_eq]
  rfl

/-- Some key lies after the cursor and before the prefix. -/
def Gap (bytes : κ → Bytes) (entries : List (κ × V)) (pre : Bytes) (startAfter : Option κ) : Prop :=
  ∃ c ∈ startAfter, ∃ e ∈ entries, bytes c < bytes e.1 ∧ bytes e.1 < pre

theorem range_sorted {entries : List (κ × V)}
    (sorted : entries.Pairwise fun a b => bytes a.1 < bytes b.1) (pre : Bytes)
    (startAfter : Option κ) :
    (range bytes entries pre startAfter).Pairwise fun a b => bytes a.1 < bytes b.1 :=
  sorted.filter _

/-- With no key in between, the range starts with the keys under the prefix. -/
theorem range_no_gap {entries : List (κ × V)}
    (sorted : entries.Pairwise fun a b => bytes a.1 < bytes b.1) {pre : Bytes}
    {startAfter : Option κ} (gap : ¬Gap bytes entries pre startAfter) :
    ((range bytes entries pre startAfter).takeWhile fun e => decide (pre <+: bytes e.1)) =
      Rocks.after bytes entries pre startAfter := by
  have above : ∀ e ∈ range bytes entries pre startAfter, pre ≤ bytes e.1 := by
    intro e he
    obtain ⟨mem, beyond⟩ := List.mem_filter.mp he
    cases startAfter with
    | none => exact of_decide_eq_true beyond
    | some c =>
      by_contra below
      exact gap ⟨c, rfl, e, mem, of_decide_eq_true beyond, not_le.mp below⟩
  rw [OrderedMap.takeWhile_eq_filter]
  · rw [range, Rocks.after, List.filter_filter]
    apply List.filter_congr
    intro e _
    cases startAfter with
    | none =>
      by_cases h : pre <+: bytes e.1
      · simp [h, Bytes.prefix_le h]
      · simp [h]
    | some c => simp
  · refine (List.Pairwise.and_mem.mp (range_sorted sorted pre startAfter)).imp ?_
    rintro a b ⟨ha, -, lt⟩ hb
    have starts := Bytes.startsWith_convex (List.prefix_refl pre) (of_decide_eq_true hb)
      (above a ha) (le_of_lt lt)
    exact decide_eq_true starts

/-- A key in between ends the scan before it has begun. -/
theorem range_gap {entries : List (κ × V)}
    (sorted : entries.Pairwise fun a b => bytes a.1 < bytes b.1) {pre : Bytes}
    {startAfter : Option κ} (gap : Gap bytes entries pre startAfter) :
    ((range bytes entries pre startAfter).takeWhile fun e => decide (pre <+: bytes e.1)) = [] := by
  obtain ⟨c, rfl, x, mem, beyond, below⟩ := gap
  have hx : x ∈ range bytes entries pre (some c) :=
    List.mem_filter.mpr ⟨mem, decide_eq_true beyond⟩
  have sorted' := range_sorted sorted pre (some c)
  cases hrange : range bytes entries pre (some c) with
  | nil => rfl
  | cons e it =>
    rw [hrange] at hx sorted'
    have le : bytes e.1 ≤ bytes x.1 := by
      rcases List.mem_cons.mp hx with rfl | hx
      · exact le_refl _
      · exact le_of_lt ((List.pairwise_cons.mp sorted').1 x hx)
    have starts : ¬pre <+: bytes e.1 := fun h =>
      absurd (lt_of_le_of_lt le below) (not_lt_of_ge (Bytes.prefix_le h))
    exact List.takeWhile_cons_of_neg (by simpa using starts)

end

end Redb

namespace Rocks

variable {κ V : Type*} {bytes : κ → Bytes}

theorem walk_takeWhile (pre : Bytes) (startAfter : Option κ) (limit : Nat) (it : List (κ × V))
    (taken : Nat) (h : taken ≤ limit) :
    walk bytes pre startAfter limit it taken =
      let left := (it.filter fun e => decide (startAfter.map bytes ≠ some (bytes e.1))).takeWhile
        fun e => decide (pre <+: bytes e.1)
      (left.take (limit - taken), decide (limit - taken < left.length)) := by
  induction it generalizing taken with
  | nil => simp [walk]
  | cons e it ih =>
    rw [walk]
    by_cases hcursor : startAfter.map bytes = some (bytes e.1)
    · rw [if_pos hcursor, List.filter_cons_of_neg (by simp [hcursor]), ih taken h]
    · rw [if_neg hcursor, List.filter_cons_of_pos (by simp [hcursor])]
      by_cases starts : pre <+: bytes e.1
      · rw [if_neg (not_not.mpr starts), List.takeWhile_cons_of_pos (p := fun e : κ × V => decide (pre <+: bytes e.1))
            (decide_eq_true starts)]
        by_cases full : taken = limit
        · simp [full]
        · rw [if_neg full, ih (taken + 1) (by omega)]
          have step : limit - taken = limit - (taken + 1) + 1 := by omega
          simp only [step, List.take_succ_cons, List.length_cons, Nat.add_lt_add_iff_right]
      · rw [if_pos starts, List.takeWhile_cons_of_neg (p := fun e : κ × V => decide (pre <+: bytes e.1))
            (by simpa using starts)]
        simp

/-- Where the seek key is in no prefix group, RocksDB reads what redb does. -/
theorem scan_from {entries : List (κ × V)}
    (sorted : entries.Pairwise fun a b => bytes a.1 < bytes b.1) {pre : Bytes}
    {startAfter : Option κ} (free : summInDomain ((startAfter.map bytes).getD pre) = false)
    {limit : Nat} (pos : 0 < limit) :
    scan bytes entries pre startAfter limit = Redb.scan bytes entries pre startAfter limit := by
  rw [Redb.scan_from bytes entries pre startAfter pos, scan, if_neg (by omega)]
  simp only [walk_takeWhile pre startAfter limit _ 0 (by omega), Nat.sub_zero, decide_eq_true_eq]
  have within (a : κ × V) (h : pre <+: bytes a.1) :
      (prefixSuccessor pre).all (fun bound => decide (bytes a.1 < bound)) = true := by
    rw [prefixSuccessor_spec pre _ (Bytes.prefix_le h)]
    exact decide_eq_true h
  have left : ((seek bytes entries pre startAfter (prefixReadOpts pre)).filter fun e =>
        decide (startAfter.map bytes ≠ some (bytes e.1))) =
      (Redb.range bytes entries pre startAfter).takeWhile fun e =>
        (prefixSuccessor pre).all fun bound => decide (bytes e.1 < bound) := by
    rw [seek, rawIterator_eq sorted, List.filter_filter, Redb.range,
      OrderedMap.takeWhile_eq_filter, List.filter_filter]
    · apply List.filter_congr
      intro e _
      have group : inGroup pre ((startAfter.map bytes).getD pre) (bytes e.1) = true := by
        rw [inGroup, free, Bool.and_false, Bool.not_false, Bool.true_or]
      rw [group, Bool.true_and]
      cases startAfter with
      | none => simp
      | some c =>
        simp only [Option.map_some, Option.getD_some]
        rcases lt_trichotomy (bytes c) (bytes e.1) with lt | eq | gt
        · simp [lt, le_of_lt lt, ne_of_lt lt]
        · simp [eq]
        · simp [not_lt_of_gt gt, not_le_of_gt gt]
    · refine (sorted.filter _).imp ?_
      intro a b hab hb
      cases hs : prefixSuccessor pre with
      | none => rfl
      | some bound =>
        simp only [hs, Option.all_some, decide_eq_true_eq] at hb ⊢
        exact lt_trans hab hb
  rw [left, List.takeWhile_takeWhile]
  have both : (fun e : κ × V => decide (decide (pre <+: bytes e.1) = true ∧
      ((prefixSuccessor pre).all fun bound => decide (bytes e.1 < bound)) = true)) =
      fun e => decide (pre <+: bytes e.1) := by
    funext e
    by_cases h : pre <+: bytes e.1
    · simp [h, within e h]
    · simp [h]
  rw [both]
  rfl

end Rocks

end Summ
