import Mathlib.Data.List.Basic
import Mathlib.Order.Basic
import Mathlib.Order.Lattice

/-!
# Rows in the order of their keys

Rows of one key, which lie next to each other, are merged into one (`group`),
and a list of keys is filled with the rows there are and an empty row for each
key that has none (`fill`).
-/

namespace Runs

section Groups
variable {K R : Type*} [LinearOrder K] (key : R → K) (merge : R → R → R)

/-- A row is merged into the last one if that has its key. -/
def add (out : List R) (row : R) : List R :=
  match out.getLast? with
  | some last => if key last = key row then out.dropLast ++ [merge last row] else out ++ [row]
  | none => [row]

def group (rows : List R) : List R := rows.foldl (add key merge) []

/-- The rows of one key as one row. -/
def run (k : K) (rows : List R) : Option R :=
  match rows.filter fun row => decide (key row = k) with
  | [] => none
  | row :: rows => some (rows.foldl merge row)

variable {key merge}

theorem add_same {out : List R} {last row : R} (same : key last = key row) :
    add key merge (out ++ [last]) row = out ++ [merge last row] := by
  rw [add, List.getLast?_concat]
  dsimp only
  rw [if_pos same, List.dropLast_concat]

theorem add_other {out : List R} {row : R} (other : ∀ last ∈ out.getLast?, key last ≠ key row) :
    add key merge out row = out ++ [row] := by
  rw [add]
  cases ended : out.getLast? with
  | none =>
    rw [List.getLast?_eq_none_iff.mp ended]
    rfl
  | some last => exact if_neg (other last ended)

section
variable (keeps : ∀ a b, key (merge a b) = key a)
include keeps

omit [LinearOrder K] in
theorem key_foldl (row : R) (rows : List R) : key (rows.foldl merge row) = key row := by
  induction rows generalizing row with
  | nil => rfl
  | cons next rows ih => rw [List.foldl_cons, ih, keeps]

theorem key_run {k : K} {rows : List R} {row : R} (h : run key merge k rows = some row) :
    key row = k := by
  rw [run] at h
  split at h
  · cases h
  · rename_i first rest whole
    cases h
    have mem : first ∈ rows.filter fun row => decide (key row = k) := by
      rw [whole]
      exact List.mem_cons_self
    rw [key_foldl keeps]
    exact of_decide_eq_true (List.mem_filter.mp mem).2

/-- Rows of the last key go into the last row. -/
theorem foldl_same {k : K} {rows : List R} (h : ∀ row ∈ rows, key row = k) {last : R}
    (same : key last = k) (out : List R) :
    rows.foldl (add key merge) (out ++ [last]) = out ++ [rows.foldl merge last] := by
  induction rows generalizing last with
  | nil => rfl
  | cons row rows ih =>
    obtain ⟨first, rest⟩ := List.forall_mem_cons.mp h
    rw [List.foldl_cons, List.foldl_cons, add_same (same.trans first.symm)]
    exact ih rest ((keeps last row).trans same)

/-- Rows of one new key become one row. -/
theorem foldl_run {k : K} {rows : List R} (h : ∀ row ∈ rows, key row = k) {out : List R}
    (other : ∀ last ∈ out.getLast?, key last ≠ k) :
    rows.foldl (add key merge) out = out ++ (run key merge k rows).toList := by
  have all : (rows.filter fun row => decide (key row = k)) = rows :=
    List.filter_eq_self.mpr fun row mem => decide_eq_true (h row mem)
  rw [run, all]
  cases rows with
  | nil => exact (List.append_nil out).symm
  | cons row rows =>
    obtain ⟨first, rest⟩ := List.forall_mem_cons.mp h
    rw [List.foldl_cons, add_other fun last mem => first ▸ other last mem, foldl_same keeps rest first]
    rfl

omit keeps

/-- Sorted rows start with those of the least key. -/
theorem filter_least {rows : List R} (sorted : rows.Pairwise fun a b => key a ≤ key b) {k : K}
    (least : ∀ row ∈ rows, k ≤ key row) :
    rows = (rows.filter fun row => decide (key row = k)) ++
      rows.filter fun row => decide (key row ≠ k) := by
  induction rows with
  | nil => rfl
  | cons row rows ih =>
    rw [List.pairwise_cons] at sorted
    obtain ⟨first, rest⟩ := List.forall_mem_cons.mp least
    by_cases same : key row = k
    · have taken : (row :: rows).filter (fun row => decide (key row = k)) =
          row :: rows.filter fun row => decide (key row = k) :=
        List.filter_cons_of_pos (by simpa using same)
      have dropped : (row :: rows).filter (fun row => decide (key row ≠ k)) =
          rows.filter fun row => decide (key row ≠ k) := List.filter_cons_of_neg (by simpa using same)
      rw [taken, dropped, List.cons_append, ← ih sorted.2 rest]
    · have above : ∀ later ∈ rows, key later ≠ k := fun later mem =>
        ne_of_gt (lt_of_lt_of_le (lt_of_le_of_ne first (Ne.symm same)) (sorted.1 later mem))
      have all : ∀ later ∈ row :: rows, key later ≠ k := List.forall_mem_cons.mpr ⟨same, above⟩
      have none_ : ((row :: rows).filter fun row => decide (key row = k)) = [] :=
        List.filter_eq_nil_iff.mpr fun later mem h => all later mem (of_decide_eq_true h)
      have whole : ((row :: rows).filter fun row => decide (key row ≠ k)) = row :: rows :=
        List.filter_eq_self.mpr fun later mem => decide_eq_true (all later mem)
      rw [none_, whole, List.nil_append]

theorem run_filter_ne {k k' : K} (other : k' ≠ k) (rows : List R) :
    run key merge k' (rows.filter fun row => decide (key row ≠ k)) = run key merge k' rows := by
  have same : ((rows.filter fun row => decide (key row ≠ k)).filter fun row => decide (key row = k')) =
      rows.filter fun row => decide (key row = k') := by
    rw [List.filter_filter]
    refine List.filter_congr fun row _ => ?_
    by_cases h : key row = k'
    · simp [h, other]
    · simp [h]
  rw [run, run, same]

/-- So many rows of each of so many keys. -/
theorem length_le {n : ℕ} {ks : List K} {rows : List R} (listed : ∀ row ∈ rows, key row ∈ ks)
    (few : ∀ k ∈ ks, (rows.filter fun row => decide (key row = k)).length ≤ n) :
    rows.length ≤ ks.length * n := by
  induction ks generalizing rows with
  | nil =>
    cases rows with
    | nil => exact Nat.zero_le _
    | cons row rows => cases listed row List.mem_cons_self
  | cons k ks ih =>
    have rest : ∀ row ∈ rows.filter fun row => !decide (key row = k), key row ∈ ks := by
      intro row mem
      obtain ⟨mem, ne⟩ := List.mem_filter.mp mem
      exact (List.mem_cons.mp (listed row mem)).resolve_left (by simpa using ne)
    have fewer : ∀ k' ∈ ks, ((rows.filter fun row => !decide (key row = k)).filter
        fun row => decide (key row = k')).length ≤ n := by
      intro k' hk'
      refine Nat.le_trans (List.Sublist.length_le ?_) (few k' (List.mem_cons_of_mem k hk'))
      exact List.Sublist.filter _ List.filter_sublist
    have later := ih rest fewer
    have first := few k List.mem_cons_self
    have parts := List.length_eq_length_filter_add (fun row : R => decide (key row = k)) (l := rows)
    rw [List.length_cons, Nat.succ_mul]
    omega

include keeps in
/-- Sorted rows are grouped into one row for each key that has any. -/
theorem group_eq {ks : List K} (ascending : ks.Pairwise (· < ·)) {rows : List R}
    (sorted : rows.Pairwise fun a b => key a ≤ key b) (listed : ∀ row ∈ rows, key row ∈ ks) :
    group key merge rows = ks.filterMap fun k => run key merge k rows := by
  have grown (out : List R) (other : ∀ last ∈ out.getLast?, ∀ k ∈ ks, key last ≠ k) :
      rows.foldl (add key merge) out = out ++ ks.filterMap fun k => run key merge k rows := by
    induction ks generalizing rows out with
    | nil =>
      have none_ : rows = [] := List.eq_nil_iff_forall_not_mem.mpr fun row mem => nomatch listed row mem
      rw [none_]
      exact (List.append_nil out).symm
    | cons k ks ih =>
      rw [List.pairwise_cons] at ascending
      have least : ∀ row ∈ rows, k ≤ key row := by
        intro row mem
        rcases List.mem_cons.mp (listed row mem) with same | later
        · exact le_of_eq same.symm
        · exact le_of_lt (ascending.1 _ later)
      have first : ∀ row ∈ rows.filter fun row => decide (key row = k), key row = k := fun row mem =>
        of_decide_eq_true (List.mem_filter.mp mem).2
      have one : run key merge k (rows.filter fun row => decide (key row = k)) =
          run key merge k rows := by
        rw [run, run, List.filter_filter]
        simp only [Bool.and_self]
      have rest : ∀ row ∈ rows.filter fun row => decide (key row ≠ k), key row ∈ ks := by
        intro row mem
        obtain ⟨mem, ne⟩ := List.mem_filter.mp mem
        exact (List.mem_cons.mp (listed row mem)).resolve_left (of_decide_eq_true ne)
      have fresh : ∀ last ∈ (out ++ (run key merge k rows).toList).getLast?, ∀ k' ∈ ks, key last ≠ k' := by
        intro last mem k' hk'
        cases merged : run key merge k rows with
        | none =>
          rw [merged, Option.toList_none, List.append_nil] at mem
          exact other last mem k' (List.mem_cons_of_mem k hk')
        | some row =>
          rw [merged, Option.toList_some, List.getLast?_concat] at mem
          cases mem
          rw [key_run keeps merged]
          exact ne_of_lt (ascending.1 k' hk')
      have later := ih ascending.2 (sorted.filter _) rest _ fresh
      have runs : (ks.filterMap fun k' =>
          run key merge k' (rows.filter fun row => decide (key row ≠ k))) =
          ks.filterMap fun k' => run key merge k' rows :=
        List.filterMap_congr fun k' hk' => run_filter_ne (ne_of_gt (ascending.1 k' hk')) rows
      have parted := filter_least sorted least
      calc rows.foldl (add key merge) out
          = ((rows.filter fun row => decide (key row = k)) ++
              rows.filter fun row => decide (key row ≠ k)).foldl (add key merge) out := by rw [← parted]
        _ = (rows.filter fun row => decide (key row ≠ k)).foldl (add key merge)
              (out ++ (run key merge k rows).toList) := by
            rw [List.foldl_append, foldl_run keeps first fun last mem => other last mem k
              List.mem_cons_self, one]
        _ = out ++ (k :: ks).filterMap fun k => run key merge k rows := by
            rw [later, runs, List.append_assoc, List.filterMap_cons]
            cases run key merge k rows <;> rfl
  exact (grown [] nofun).trans (List.nil_append _)

end

end Groups

section Fill
variable {K R : Type*} [DecidableEq K] (key : R → K)

/-- The rows of the keys, each key's own where it is next and an empty one where it is not. -/
def fill (empty : K → R) : List K → List R → List R
  | [], _ => []
  | k :: ks, [] => empty k :: fill empty ks []
  | k :: ks, row :: rows =>
    if key row = k then row :: fill empty ks rows else empty k :: fill empty ks (row :: rows)

variable {key}

/-- The rows of distinct keys, in their order, fill the keys. -/
theorem fill_filterMap (empty : K → R) {ks : List K} (distinct : ks.Nodup) {f : K → Option R}
    (keyed : ∀ k row, f k = some row → key row = k) :
    fill key empty ks (ks.filterMap f) = ks.map fun k => (f k).getD (empty k) := by
  induction ks with
  | nil => rfl
  | cons k ks ih =>
    rw [List.nodup_cons] at distinct
    have later := ih distinct.2
    rw [List.map_cons, List.filterMap_cons]
    cases found : f k with
    | some row =>
      dsimp only
      rw [fill, if_pos (keyed k row found), later]
      rfl
    | none =>
      dsimp only
      rw [← later]
      cases next : ks.filterMap f with
      | nil => rfl
      | cons row rows =>
        have mem : row ∈ ks.filterMap f := by
          rw [next]
          exact List.mem_cons_self
        obtain ⟨k', hk', hrow⟩ := List.mem_filterMap.mp mem
        have other : ¬key row = k := by
          rw [keyed k' row hrow]
          exact fun same => distinct.1 (same ▸ hk')
        rw [fill, if_neg other]
        rfl

end Fill

end Runs
