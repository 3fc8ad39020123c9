import Mathlib.Data.List.TakeWhile
import Mathlib.Tactic.Common

/-!
# Reading a range page by page

A reader answers with a page: some bindings, and the cursor to ask from next.
`follow` asks until a page carries no cursor, threading a state that each
request may change. `Serves` is what a complete run is.

A reader may stop short of what lies after its cursor: it passes on from cursor
`c` only over the items `c` sees. `follow_serves_iff` says when such a reader
is complete all the same: every page that ends inside the range sees all the rest.

A listing is made of a reader: its rows are made of the items of a page, and its
cursors of the reader's. `walk` follows the listing's own cursors.
-/

structure Page (κ V : Type*) where
  entries : List (κ × V)
  next : Option κ

namespace Page

variable {κ V σ : Type*}

/-- Ask for pages from a cursor on, until one carries no cursor. -/
def follow (ask : σ → Option κ → Page κ V × σ) :
    Nat → σ → Option κ → Option (List (Page κ V) × σ)
  | 0, _, _ => none
  | fuel + 1, s, c =>
    match (ask s c).1.next with
    | none => some ([(ask s c).1], (ask s c).2)
    | some n =>
      (follow ask fuel (ask s c).2 (some n)).map fun r => ((ask s c).1 :: r.1, r.2)

/-- The pages hold exactly `l`, in order, and a page carries no cursor exactly
when nothing of `l` is left after it. -/
def Serves (pages : List (Page κ V)) (l : List (κ × V)) : Prop :=
  pages.flatMap entries = l ∧
    ∀ before page after, pages = before ++ page :: after →
      (page.next = none ↔ (before ++ [page]).flatMap entries = l)

/-- The page a reader serves out of what it sees. -/
def cut (limit : Nat) (seen : List (κ × V)) : Page κ V where
  entries := seen.take limit
  next := if limit < seen.length then (seen.take limit).getLast?.map Prod.fst else none

/-- At every page boundary inside `l`, the last item served sees all the rest. -/
def Unbroken (sees : κ → κ → Bool) (limit : Nat) (l : List (κ × V)) : Prop :=
  ∀ i (h : i < l.length), limit ∣ i + 1 → ∀ x ∈ l.drop (i + 1), sees l[i].1 x.1 = true

section Cut
variable {limit : Nat} {seen : List (κ × V)}

theorem cut_next_none (h : seen.length ≤ limit) : (cut limit seen).next = none := by
  simp [cut, Nat.not_lt.mpr h]

theorem cut_entries_all (h : seen.length ≤ limit) : (cut limit seen).entries = seen :=
  List.take_of_length_le h

/-- A page that is not the last is a full one, and its cursor its last key. -/
theorem cut_next_some (pos : 0 < limit) (h : limit < seen.length) :
    (cut limit seen).next = some (seen[limit - 1]).1 := by
  have last : (seen.take limit).getLast? = some (seen[limit - 1]) := by
    rw [List.getLast?_eq_getElem?, List.length_take, Nat.min_eq_left (Nat.le_of_lt h),
      List.getElem?_take_of_lt (by omega), List.getElem?_eq_getElem]
  simp [cut, h, last]

theorem cut_isSome (pos : 0 < limit) :
    (cut limit seen).next.isSome = decide (limit < seen.length) := by
  by_cases h : limit < seen.length
  · rw [cut_next_some pos h, decide_eq_true h]
    rfl
  · rw [cut_next_none (Nat.not_lt.mp h), decide_eq_false h]
    rfl

end Cut

theorem follow_last {ask : σ → Option κ → Page κ V × σ} {s : σ} {c : Option κ} (fuel : Nat)
    (h : (ask s c).1.next = none) :
    follow ask (fuel + 1) s c = some ([(ask s c).1], (ask s c).2) := by
  simp [follow, h]

theorem follow_more {ask : σ → Option κ → Page κ V × σ} {s : σ} {c : Option κ} {n : κ}
    (fuel : Nat) (h : (ask s c).1.next = some n) :
    follow ask (fuel + 1) s c =
      (follow ask fuel (ask s c).2 (some n)).map fun r => ((ask s c).1 :: r.1, r.2) := by
  simp [follow, h]

/-- A run that ends does not depend on how far it may go. -/
theorem follow_unique {ask : σ → Option κ → Page κ V × σ} {fuel fuel' : Nat} {s : σ} {c : Option κ}
    {r r' : List (Page κ V) × σ} (h : follow ask fuel s c = some r)
    (h' : follow ask fuel' s c = some r') : r = r' := by
  induction fuel generalizing fuel' s c r r' with
  | zero => cases h
  | succ fuel ih =>
    cases fuel' with
    | zero => cases h'
    | succ fuel' =>
      cases hn : (ask s c).1.next with
      | none =>
        rw [follow_last _ hn] at h h'
        exact Option.some.inj (h.symm.trans h')
      | some n =>
        rw [follow_more _ hn] at h h'
        obtain ⟨rest, run, rfl⟩ := Option.map_eq_some_iff.mp h
        obtain ⟨rest', run', rfl⟩ := Option.map_eq_some_iff.mp h'
        rw [ih run run']

theorem serves_single {page : Page κ V} {l : List (κ × V)} (h : page.next = none) :
    Serves [page] l ↔ page.entries = l := by
  constructor
  · rintro ⟨hall, -⟩
    simpa using hall
  · rintro rfl
    refine ⟨by simp, ?_⟩
    intro before p after hsplit
    cases before with
    | nil =>
      obtain ⟨rfl, -⟩ := List.cons.inj hsplit
      simp [h]
    | cons b before => simp at hsplit

theorem serves_cons {page : Page κ V} {pages : List (Page κ V)} {l : List (κ × V)} {n : κ}
    (h : page.next = some n) (left : l ≠ []) :
    Serves (page :: pages) (page.entries ++ l) ↔ Serves pages l := by
  unfold Serves
  rw [List.flatMap_cons, List.append_cancel_left_eq]
  refine and_congr_right fun _ => ?_
  constructor
  · intro hpages before p after hsplit
    rw [hpages (page :: before) p after (by rw [hsplit, List.cons_append]), List.cons_append,
      List.flatMap_cons, List.append_cancel_left_eq]
  · intro hpages before p after hsplit
    cases before with
    | nil =>
      obtain ⟨rfl, -⟩ := List.cons.inj hsplit
      have short : page.entries ≠ page.entries ++ l := by simpa using left
      simpa [h] using short
    | cons b before =>
      obtain ⟨rfl, hrest⟩ := List.cons.inj hsplit
      rw [hpages before p after hrest, List.cons_append, List.flatMap_cons,
        List.append_cancel_left_eq]

/-- Breaking a range at its first page boundary. -/
theorem unbroken_drop {sees : κ → κ → Bool} {limit : Nat} {l : List (κ × V)} (pos : 0 < limit)
    (h : limit < l.length) :
    Unbroken sees limit l ↔
      (∀ x ∈ l.drop limit, sees (l[limit - 1]).1 x.1 = true) ∧
        Unbroken sees limit (l.drop limit) := by
  constructor
  · intro hl
    constructor
    · intro x hx
      apply hl (limit - 1) (by omega) ⟨1, by omega⟩
      rwa [Nat.sub_add_cancel pos]
    · intro i hi hdvd x hx
      rw [List.length_drop] at hi
      rw [List.getElem_drop]
      apply hl (limit + i) (by omega)
      · rw [Nat.add_assoc]
        exact Nat.dvd_add (Nat.dvd_refl limit) hdvd
      · rwa [List.drop_drop, ← Nat.add_assoc] at hx
  · rintro ⟨first, later⟩ i hi hdvd x hx
    obtain ⟨k, hk⟩ := hdvd
    by_cases hfirst : i = limit - 1
    · subst hfirst
      rw [Nat.sub_add_cancel pos] at hx
      exact first x hx
    · have hge : limit ≤ i := by
        rcases k with - | - | k
        · omega
        · omega
        · rw [Nat.mul_add] at hk
          omega
      have hdrop : i - limit < (l.drop limit).length := by
        rw [List.length_drop]
        omega
      have := later (i - limit) hdrop ⟨k - 1, by rw [Nat.mul_sub]; omega⟩ x (by
        rw [List.drop_drop]
        rwa [show limit + (i - limit + 1) = i + 1 by omega])
      rw [List.getElem_drop] at this
      simpa only [Nat.add_sub_cancel' hge] using this

section Reader
variable {ask : σ → Option κ → Page κ V × σ} {limit : Nat} {rest : σ → Option κ → List (κ × V)}
  {sees : Option κ → κ → Bool} {valid : σ → Option κ → Prop}

/-- The law of a reader: its pages are cut from what a cursor sees of the rest
of the range, and where one page ends the next one's range begins. -/
structure Reads (ask : σ → Option κ → Page κ V × σ) (limit : Nat)
    (rest : σ → Option κ → List (κ × V)) (sees : Option κ → κ → Bool)
    (valid : σ → Option κ → Prop) : Prop where
  served : ∀ s c, valid s c → (ask s c).1 = cut limit ((rest s c).takeWhile fun x => sees c x.1)
  onward : ∀ s c n, valid s c → (ask s c).1.next = some n →
    valid (ask s c).2 (some n) ∧ rest (ask s c).2 (some n) = (rest s c).drop limit
  through : ∀ c x y, sees c x = true → sees (some x) y = true → sees c y = true

/-- A run over pages ends, and it is complete exactly when the starting cursor
and every page boundary see all that is left. -/
theorem follow_serves_iff (pos : 0 < limit) (reads : Reads ask limit rest sees valid)
    {fuel : Nat} (s : σ) (c : Option κ) (start : valid s c) (enough : (rest s c).length < fuel) :
    ∃ pages t, follow ask fuel s c = some (pages, t) ∧
      (Serves pages (rest s c) ↔
        (∀ x ∈ rest s c, sees c x.1 = true) ∧
          Unbroken (fun k => sees (some k)) limit (rest s c)) := by
  induction fuel generalizing s c with
  | zero => omega
  | succ fuel ih =>
    have served := reads.served s c start
    have seenAll : ∀ x ∈ (rest s c).takeWhile (fun x => sees c x.1), sees c x.1 = true :=
      fun x hx => List.mem_takeWhile_imp (p := fun y : κ × V => sees c y.1) hx
    have seenPrefix : (rest s c).takeWhile (fun x => sees c x.1) <+: rest s c :=
      List.takeWhile_prefix _
    rcases Nat.lt_or_ge limit ((rest s c).takeWhile fun x => sees c x.1).length with more | last
    · have long : limit < (rest s c).length := Nat.lt_of_lt_of_le more seenPrefix.length_le
      have boundary : (rest s c)[limit - 1] =
          ((rest s c).takeWhile fun x => sees c x.1)[limit - 1] :=
        (seenPrefix.getElem (by omega)).symm
      have next : (ask s c).1.next = some ((rest s c)[limit - 1]).1 := by
        rw [served, cut_next_some pos more, boundary]
      have entries : (ask s c).1.entries = (rest s c).take limit := by
        rw [served]
        obtain ⟨unseen, hunseen⟩ := seenPrefix
        conv => rhs; rw [← hunseen]
        exact (List.take_append_of_le_length (Nat.le_of_lt more)).symm
      have boundarySeen : sees c ((rest s c)[limit - 1]).1 = true := by
        rw [boundary]
        exact seenAll _ (List.getElem_mem _)
      have headSeen : ∀ x ∈ (rest s c).take limit, sees c x.1 = true := by
        intro x hx
        rw [← entries, served] at hx
        exact seenAll x (List.mem_of_mem_take hx)
      have left : (rest s c).drop limit ≠ [] := by
        rw [Ne, List.drop_eq_nil_iff]
        omega
      obtain ⟨start', onward⟩ := reads.onward s c _ start next
      obtain ⟨pages, t, run, iff⟩ := ih (ask s c).2 _ start' (by
        rw [onward, List.length_drop]
        omega)
      rw [onward] at iff
      refine ⟨(ask s c).1 :: pages, t, by rw [follow_more fuel next, run]; rfl, ?_⟩
      have split : rest s c = (ask s c).1.entries ++ (rest s c).drop limit := by
        rw [entries, List.take_append_drop]
      rw [split, serves_cons next left, ← split, iff, unbroken_drop pos long]
      constructor
      · rintro ⟨first, later⟩
        refine ⟨?_, first, later⟩
        intro x hx
        rw [← List.take_append_drop limit (rest s c), List.mem_append] at hx
        rcases hx with hx | hx
        · exact headSeen x hx
        · exact reads.through c _ _ boundarySeen (first x hx)
      · exact fun h => h.2
    · have none' : (ask s c).1.next = none := by rw [served, cut_next_none last]
      refine ⟨[(ask s c).1], (ask s c).2, follow_last fuel none', ?_⟩
      rw [serves_single none', served, cut_entries_all last, List.takeWhile_eq_self_iff]
      refine ⟨fun all => ⟨all, ?_⟩, fun h => h.1⟩
      -- the whole rest fits in the page, so no boundary leaves anything
      have short : (rest s c).length ≤ limit := by
        rwa [List.takeWhile_eq_self_iff.mpr all] at last
      intro i hi hdvd x hx
      have := Nat.le_of_dvd (Nat.succ_pos i) hdvd
      rw [List.drop_eq_nil_of_le (by omega)] at hx
      exact absurd hx List.not_mem_nil

end Reader

section Listing
variable {τ γ α : Type*}

/-- Ask a listing for page after page by its own cursors, until one carries no
cursor. A request may fail, and the walk then ends with nothing. -/
def walk (ask : σ → Option γ → Option ((List α × Option γ) × σ)) :
    Nat → σ → Option γ → Option (List (List α))
  | 0, _, _ => none
  | fuel + 1, s, c =>
    match ask s c with
    | none => none
    | some ((rows, none), _) => some [rows]
    | some ((rows, some n), s') => (walk ask fuel s' (some n)).map (rows :: ·)

/-- A walk of a listing made of a reader is a run of the reader. -/
theorem walk_eq_follow {ask : σ → Option γ → Option ((List α × Option γ) × σ)}
    {read : τ → Option κ → Page κ V × τ} {row : κ × V → Option α} {cursor : κ → γ}
    {made : σ → τ → Option κ → Prop}
    (asks : ∀ s t c, made s t c → ∃ s',
      ask s (c.map cursor) =
          some (((read t c).1.entries.filterMap row, (read t c).1.next.map cursor), s') ∧
        ∀ n, (read t c).1.next = some n → made s' (read t c).2 (some n))
    (fuel : Nat) {s : σ} {t : τ} {c : Option κ} (start : made s t c) :
    walk ask fuel s (c.map cursor) =
      (follow read fuel t c).map fun r => r.1.map fun page => page.entries.filterMap row := by
  induction fuel generalizing s t c with
  | zero => rfl
  | succ fuel ih =>
    obtain ⟨s', answer, onward⟩ := asks s t c start
    cases hn : (read t c).1.next with
    | none =>
      rw [follow_last fuel hn, walk, answer, hn]
      rfl
    | some n =>
      have rest := ih (onward n hn)
      rw [Option.map_some] at rest
      rw [follow_more fuel hn, walk, answer, hn]
      dsimp only [Option.map_some]
      rw [rest, Option.map_map, Option.map_map]
      rfl

/-- A walk that came to its end has met no refusal, and so is a run of the reader
whose items are all fit. -/
theorem follow_of_walk {ask : σ → Option γ → Option ((List α × Option γ) × σ)}
    {read : τ → Option κ → Page κ V × τ} {row : κ × V → Option α} {cursor : κ → γ}
    {made : σ → τ → Option κ → Prop} (fit : κ × V → Prop)
    (asks : ∀ s t c, made s t c → ask s (c.map cursor) = none ∨
      (∀ e ∈ (read t c).1.entries, fit e) ∧ ∃ s',
        ask s (c.map cursor) =
            some (((read t c).1.entries.filterMap row, (read t c).1.next.map cursor), s') ∧
          ∀ n, (read t c).1.next = some n → made s' (read t c).2 (some n))
    {fuel : Nat} {s : σ} {t : τ} {c : Option κ} (start : made s t c) {lists : List (List α)}
    (walked : walk ask fuel s (c.map cursor) = some lists) :
    ∃ pages t', follow read fuel t c = some (pages, t') ∧
      ∀ page ∈ pages, ∀ e ∈ page.entries, fit e := by
  induction fuel generalizing s t c lists with
  | zero => cases walked
  | succ fuel ih =>
    rcases asks s t c start with refused | ⟨fits, s', answer, onward⟩
    · rw [walk, refused] at walked
      cases walked
    · rw [walk, answer] at walked
      cases hn : (read t c).1.next with
      | none => exact ⟨_, _, follow_last fuel hn, List.forall_mem_singleton.mpr fits⟩
      | some n =>
        rw [hn] at walked
        obtain ⟨rest, later, -⟩ := Option.map_eq_some_iff.mp walked
        obtain ⟨pages, t', run, all⟩ := ih (onward n hn) later
        refine ⟨_ :: pages, t', ?_, List.forall_mem_cons.mpr ⟨fits, all⟩⟩
        rw [follow_more fuel hn, run]
        rfl

/-! Where every item makes a row, the rows are cut as the items are. -/

variable {row : κ × V → Option α} {l : List (κ × V)} {rows : List α}

theorem rows_of_total (total : l.map row = rows.map some) : l.filterMap row = rows := by
  have same : (l.map row).filterMap id = (rows.map some).filterMap id := by rw [total]
  simpa [List.filterMap_map] using same

theorem cut_rows (total : l.map row = rows.map some) (limit : Nat) :
    (cut limit l).entries.filterMap row = rows.take limit := by
  apply rows_of_total
  rw [cut, List.map_take, total, List.map_take]

theorem length_of_total (total : l.map row = rows.map some) : l.length = rows.length := by
  have := congrArg List.length total
  rwa [List.length_map, List.length_map] at this

/-- Rows are left out as the items they are made of are. -/
theorem filter_rows {key : α → κ} (total : l.map row = rows.map some)
    (keyed : l.map Prod.fst = rows.map key) {p : κ → Bool} {q : α → Bool}
    (same : ∀ a ∈ rows, p (key a) = q a) :
    (l.filter fun e => p e.1).map row = (rows.filter q).map some := by
  induction l generalizing rows with
  | nil =>
    obtain rfl : rows = [] := List.map_eq_nil_iff.mp total.symm
    rfl
  | cons e l ih =>
    cases rows with
    | nil => cases total
    | cons a rows =>
      obtain ⟨head, total⟩ := List.cons.inj total
      obtain ⟨headKey, keyed⟩ := List.cons.inj keyed
      have rest := ih total keyed fun b hb => same b (List.mem_cons_of_mem _ hb)
      have hp : p e.1 = q a := by rw [headKey, same a List.mem_cons_self]
      cases hq : q a with
      | true => rw [List.filter_cons_of_pos (by rw [hp, hq]), List.filter_cons_of_pos hq,
          List.map_cons, List.map_cons, head, rest]
      | false =>
        rw [List.filter_cons_of_neg (by rw [hp, hq]; decide),
          List.filter_cons_of_neg (by rw [hq]; decide), rest]

theorem cut_next_rows (total : l.map row = rows.map some) {cursor : κ → γ} {last : α → γ}
    (made : ∀ e ∈ l, ∀ a, row e = some a → last a = cursor e.1) (limit : Nat) :
    (cut limit l).next.map cursor =
      if limit < rows.length then (rows.take limit).getLast?.map last else none := by
  have length := length_of_total total
  have taken : (l.take limit).map row = (rows.take limit).map some := by
    rw [List.map_take, total, List.map_take]
  have ends := congrArg List.getLast? taken
  rw [List.getLast?_map, List.getLast?_map] at ends
  simp only [cut, length]
  split
  · cases he : (l.take limit).getLast? with
    | none =>
      rw [he] at ends
      rw [Option.map_eq_none_iff.mp ends.symm]
      rfl
    | some e =>
      rw [he] at ends
      obtain ⟨a, ha, hrow⟩ := Option.map_eq_some_iff.mp ends.symm
      rw [ha]
      exact congrArg some (made e (List.mem_of_mem_take (List.mem_of_getLast? he)) a hrow.symm).symm
  · rfl

end Listing

end Page
