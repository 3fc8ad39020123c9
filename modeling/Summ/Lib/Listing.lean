import Mathlib.Data.List.Basic
import Mathlib.Order.Defs.Unbundled

/-!
# Listings of what is stored, while it changes

A page of a listing is the first `limit` of the rows that come after its cursor,
in order, and carries a cursor at its last row whenever rows are left (`Serves`).
A page may also drop rows it has listed (`Steady.dropped`). What a walk rests on is
less: the rows that stay are listed as far as the page's cursor (`Steady`).

A client walks from page to page (`Walked`) while the rows change under it:
`walked_inOrder` and `walked_stays` say that no row is listed twice, and that a
row that stays is listed.
-/

namespace Listing

variable {α γ : Type*}

/-- What is left of the rows after a cursor. -/
def left (beyond : γ → α → Bool) (c : Option γ) (all : List α) : List α :=
  all.filter fun a => c.all fun n => beyond n a

/-- One page of the rows that are `stored`. -/
def Serves (lt : α → α → Prop) (beyond : γ → α → Bool) (cursor : α → γ) (limit : Nat)
    (stored : α → Prop) (c : Option γ) (rows : List α) (next : Option γ) : Prop :=
  ∃ all : List α, all.Pairwise lt ∧ (∀ a, a ∈ all ↔ stored a) ∧
    rows = (left beyond c all).take limit ∧
    next = if limit < (left beyond c all).length then rows.getLast?.map cursor else none

/-- A page that lists, up to where the next one resumes, the rows that stay. -/
structure Steady (lt : α → α → Prop) (beyond : γ → α → Bool) (cursor : α → γ) (stays : α → Prop)
    (c : Option γ) (rows : List α) (next : Option γ) : Prop where
  inOrder : rows.Pairwise lt
  after : ∀ a ∈ rows, ∀ n ∈ c, beyond n a = true
  resumes : ∀ n ∈ next, ∃ z, n = cursor z ∧ (∀ m ∈ c, beyond m z = true) ∧
    (∀ a ∈ rows, a = z ∨ lt a z) ∧
    ∀ a, stays a → (∀ m ∈ c, beyond m a = true) → a ∈ rows ∨ lt z a
  ends : next = none → ∀ a, stays a → (∀ m ∈ c, beyond m a = true) → a ∈ rows

/-- Pages each asked for from where the one before ended, and what stayed while
each was served. -/
inductive Walked (serves : (α → Prop) → Option γ → List α → Option γ → Prop) :
    Option γ → List (α → Prop) → List (List α) → Prop
  | last {c : Option γ} {stays : α → Prop} {rows : List α} (page : serves stays c rows none) :
      Walked serves c [stays] [rows]
  | more {c : Option γ} {stays : α → Prop} {rows : List α} {n : γ} {later : List (α → Prop)}
      {pages : List (List α)} (page : serves stays c rows (some n))
      (rest : Walked serves (some n) later pages) :
      Walked serves c (stays :: later) (rows :: pages)

variable {lt : α → α → Prop} {beyond : γ → α → Bool} {cursor : α → γ} {limit : Nat}

theorem mem_left {c : Option γ} {all : List α} {a : α} :
    a ∈ left beyond c all ↔ a ∈ all ∧ ∀ n ∈ c, beyond n a = true := by
  rw [left, List.mem_filter]
  cases c <;> simp

section Page
variable {stored stays : α → Prop} {c : Option γ} {rows : List α} {next : Option γ}

theorem Serves.congr {lt' : α → α → Prop} {stored' : α → Prop}
    (same : ∀ a b, lt a b ↔ lt' a b) (mem : ∀ a, stored a ↔ stored' a)
    (page : Serves lt beyond cursor limit stored c rows next) :
    Serves lt' beyond cursor limit stored' c rows next := by
  obtain ⟨all, sorted, listed, served, last⟩ := page
  exact ⟨all, sorted.imp fun {a b} => (same a b).mp, fun a => (listed a).trans (mem a), served, last⟩

theorem Serves.sound (page : Serves lt beyond cursor limit stored c rows next) {a : α}
    (ha : a ∈ rows) : stored a ∧ ∀ n ∈ c, beyond n a = true := by
  obtain ⟨all, -, mem, rfl, -⟩ := page
  obtain ⟨listed, after⟩ := mem_left.mp (List.mem_of_mem_take ha)
  exact ⟨(mem a).mp listed, after⟩

theorem Serves.cursor_last (page : Serves lt beyond cursor limit stored c rows next) :
    (if next.isSome then rows.getLast?.map cursor else none) = next := by
  obtain ⟨all, -, -, -, ends⟩ := page
  by_cases more : limit < (left beyond c all).length
  · rw [if_pos more] at ends
    rw [ends]
    split <;> simp_all
  · rw [if_neg more] at ends
    rw [ends]
    rfl

/-- The cursor of a page is at its last row, and every row it left out comes later. -/
theorem Serves.split (page : Serves lt beyond cursor limit stored c rows next) {n : γ}
    (more : next = some n) : ∃ z ∈ rows, n = cursor z ∧ (∀ a ∈ rows, a = z ∨ lt a z) ∧
      ∀ a, stored a → (∀ m ∈ c, beyond m a = true) → a ∈ rows ∨ lt z a := by
  obtain ⟨all, sorted, mem, rfl, rfl⟩ := page
  split at more
  · obtain ⟨z, hz, rfl⟩ := Option.map_eq_some_iff.mp more
    obtain ⟨front, ends⟩ := List.getLast?_eq_some_iff.mp hz
    have order : ((left beyond c all).take limit ++ (left beyond c all).drop limit).Pairwise lt := by
      rw [List.take_append_drop]
      exact sorted.filter _
    rw [ends] at order
    have within := List.pairwise_append.mp (List.pairwise_append.mp order).1
    refine ⟨z, List.mem_of_getLast? hz, rfl, ?_, ?_⟩
    · intro a ha
      rw [ends] at ha
      cases List.mem_append.mp ha with
      | inl earlier => exact Or.inr (within.2.2 a earlier z (List.mem_singleton.mpr rfl))
      | inr last => exact Or.inl (List.mem_singleton.mp last)
    · intro a ha after
      have listed : a ∈ left beyond c all := mem_left.mpr ⟨(mem a).mpr ha, after⟩
      rw [← List.take_append_drop limit (left beyond c all)] at listed
      cases List.mem_append.mp listed with
      | inl served => exact Or.inl served
      | inr rest => exact Or.inr ((List.pairwise_append.mp order).2.2 z (by simp) a rest)
  · cases more

/-- A page with a cursor is full, and leaves something out. -/
theorem Serves.full (page : Serves lt beyond cursor limit stored c rows next) {n : γ}
    (more : next = some n) : rows.length = limit ∧
      ∃ b, stored b ∧ (∀ m ∈ c, beyond m b = true) ∧ ∀ a ∈ rows, lt a b := by
  obtain ⟨all, sorted, mem, rfl, rfl⟩ := page
  split at more
  · rename_i long
    have order : ((left beyond c all).take limit ++ (left beyond c all).drop limit).Pairwise lt := by
      rw [List.take_append_drop]
      exact sorted.filter _
    obtain ⟨b, hb⟩ := List.exists_mem_of_length_pos (l := (left beyond c all).drop limit)
      (by rw [List.length_drop]; omega)
    obtain ⟨listed, after⟩ := mem_left.mp (List.mem_of_mem_drop hb)
    exact ⟨List.length_take_of_le (by omega), b, (mem b).mp listed, after,
      fun a ha => (List.pairwise_append.mp order).2.2 a ha b hb⟩
  · cases more

theorem Serves.length_le (page : Serves lt beyond cursor limit stored c rows next) :
    rows.length ≤ limit := by
  obtain ⟨all, -, -, rfl, -⟩ := page
  exact List.length_take_le _ _

/-- A page without a cursor leaves nothing out. -/
theorem Serves.whole (page : Serves lt beyond cursor limit stored c rows next) (more : next = none)
    (pos : 0 < limit) {a : α} (ha : stored a) (after : ∀ n ∈ c, beyond n a = true) : a ∈ rows := by
  obtain ⟨all, -, mem, rfl, rfl⟩ := page
  have listed : a ∈ left beyond c all := mem_left.mpr ⟨(mem a).mpr ha, after⟩
  split at more
  · rename_i long
    have empty := List.getLast?_eq_none_iff.mp (Option.map_eq_none_iff.mp more)
    cases List.take_eq_nil_iff.mp empty with
    | inl zero => omega
    | inr nil =>
      rw [nil] at long
      cases long
  · rename_i short
    rwa [List.take_of_length_le (Nat.le_of_not_lt short)]

theorem Serves.steady (page : Serves lt beyond cursor limit stored c rows next) (pos : 0 < limit)
    (there : ∀ a, stays a → stored a) : Steady lt beyond cursor stays c rows next where
  inOrder := by
    obtain ⟨all, sorted, -, rfl, -⟩ := page
    exact (sorted.filter _).sublist (List.take_sublist _ _)
  after a ha := (page.sound ha).2
  resumes n hn := by
    obtain ⟨z, hz, at_, lastRow, leaves⟩ := page.split hn
    exact ⟨z, at_, (page.sound hz).2, lastRow, fun a ha => leaves a (there a ha)⟩
  ends last a ha := page.whole last pos (there a ha)

/-- A page some of whose rows are dropped, but none that stays. -/
theorem Steady.kept (page : Steady lt beyond cursor stays c rows next) {kept : α → Bool}
    {stays' : α → Prop} (there : ∀ a, stays' a → stays a)
    (keeps : ∀ a ∈ rows, stays' a → kept a = true) :
    Steady lt beyond cursor stays' c (rows.filter kept) next where
  inOrder := page.inOrder.filter _
  after a ha := page.after a (List.mem_of_mem_filter ha)
  resumes n hn := by
    obtain ⟨z, at_, after, lastRow, leaves⟩ := page.resumes n hn
    refine ⟨z, at_, after, fun a ha => lastRow a (List.mem_of_mem_filter ha), fun a ha past => ?_⟩
    cases leaves a (there a ha) past with
    | inl listed => exact Or.inl (List.mem_filter.mpr ⟨listed, keeps a listed ha⟩)
    | inr later => exact Or.inr later
  ends last a ha past :=
    have listed := page.ends last a (there a ha) past
    List.mem_filter.mpr ⟨listed, keeps a listed ha⟩

/-- A page some of whose rows are dropped, which resumes at the last that is left. -/
theorem Steady.dropped (trans : ∀ a b d, lt a b → lt b d → lt a d)
    (page : Steady lt beyond cursor stays c rows next) {remain : List α} (within : remain.Sublist rows)
    {stays' : α → Prop} (there : ∀ a, stays' a → stays a)
    (keeps : ∀ a ∈ rows, stays' a → a ∈ remain)
    (some_ : ∀ a, stays' a → next.isSome = true → remain ≠ []) :
    Steady lt beyond cursor stays' c remain
      (if next.isSome then remain.getLast?.map cursor else none) where
  inOrder := page.inOrder.sublist within
  after a ha := page.after a (within.subset ha)
  resumes n hn := by
    split at hn
    · rename_i more
      obtain ⟨m, rfl⟩ := Option.isSome_iff_exists.mp more
      obtain ⟨z, hz, rfl⟩ := Option.map_eq_some_iff.mp hn
      obtain ⟨front, ends⟩ := List.getLast?_eq_some_iff.mp hz
      have listed : z ∈ remain := List.mem_of_getLast? hz
      have order := page.inOrder.sublist within
      rw [ends] at order
      obtain ⟨y, -, -, lastRow, leaves⟩ := page.resumes m rfl
      refine ⟨z, rfl, page.after z (within.subset listed), ?_, ?_⟩
      · intro a ha
        rw [ends] at ha
        cases List.mem_append.mp ha with
        | inl earlier =>
          exact Or.inr ((List.pairwise_append.mp order).2.2 a earlier z (List.mem_singleton.mpr rfl))
        | inr last => exact Or.inl (List.mem_singleton.mp last)
      · intro a ha past
        cases leaves a (there a ha) past with
        | inl served => exact Or.inl (keeps a served ha)
        | inr later =>
          cases lastRow z (within.subset listed) with
          | inl same => exact Or.inr (same ▸ later)
          | inr before => exact Or.inr (trans z y a before later)
    · cases hn
  ends last a ha past := by
    refine keeps a (page.ends ?_ a (there a ha) past) ha
    cases more : next with
    | none => rfl
    | some m =>
      have nil := some_ a ha (Option.isSome_of_eq_some more)
      simp only [more, Option.isSome_some, if_true, Option.map_eq_none_iff,
        List.getLast?_eq_none_iff] at last
      exact absurd last nil

/-- A page listed by what its rows are read as. -/
theorem Steady.map {β : Type*} {f : α → β} {lt' : β → β → Prop} {beyond' : γ → β → Bool}
    {cursor' : β → γ} {stays' : β → Prop} (order : ∀ a b, lt a b ↔ lt' (f a) (f b))
    (past : ∀ n a, beyond n a = beyond' n (f a)) (resumes : ∀ a, cursor a = cursor' (f a))
    (there : ∀ b, stays' b → ∃ a, f a = b ∧ stays a)
    (page : Steady lt beyond cursor stays c rows next) :
    Steady lt' beyond' cursor' stays' c (rows.map f) next where
  inOrder := List.pairwise_map.mpr (page.inOrder.imp fun {a b} => (order a b).mp)
  after b hb := by
    obtain ⟨a, ha, rfl⟩ := List.mem_map.mp hb
    intro n hn
    exact (past n a).symm.trans (page.after a ha n hn)
  resumes n hn := by
    obtain ⟨z, rfl, after, lastRow, leaves⟩ := page.resumes n hn
    refine ⟨f z, resumes z, fun m hm => (past m z).symm.trans (after m hm), ?_, ?_⟩
    · intro b hb
      obtain ⟨a, ha, rfl⟩ := List.mem_map.mp hb
      cases lastRow a ha with
      | inl same => exact Or.inl (congrArg f same)
      | inr before => exact Or.inr ((order a z).mp before)
    · intro b hb beyond_
      obtain ⟨a, rfl, ha⟩ := there b hb
      cases leaves a ha fun m hm => (past m a).trans (beyond_ m hm) with
      | inl listed => exact Or.inl (List.mem_map_of_mem listed)
      | inr later => exact Or.inr ((order z a).mp later)
  ends last b hb beyond_ := by
    obtain ⟨a, rfl, ha⟩ := there b hb
    exact List.mem_map_of_mem (page.ends last a ha fun m hm => (past m a).trans (beyond_ m hm))

end Page

section Walk
variable {c : Option γ} {states : List (α → Prop)} {pages : List (List α)}
  (at_ : ∀ a b, beyond (cursor a) b = true ↔ lt a b)
  (mono : ∀ n a b, beyond n a = true → lt a b → beyond n b = true)
  (walk : Walked (Steady lt beyond cursor) c states pages)
include at_ mono walk

/-- A walk lists nothing before its cursor. -/
theorem walked_beyond : ∀ a ∈ pages.flatten, ∀ n ∈ c, beyond n a = true := by
  induction walk with
  | last page =>
    intro a ha n hn
    exact page.after a (by simpa using ha) n hn
  | @more c stays rows n later pages page rest ih =>
    intro a ha m hm
    rw [List.flatten_cons, List.mem_append] at ha
    cases ha with
    | inl here => exact page.after a here m hm
    | inr there =>
      obtain ⟨z, rfl, after, -, -⟩ := page.resumes n rfl
      have following := (at_ z a).mp (ih a there _ rfl)
      exact mono m z a (after m hm) following

/-- No row is listed twice: they come in order. -/
theorem walked_inOrder : pages.flatten.Pairwise lt := by
  induction walk with
  | last page => simpa using page.inOrder
  | @more c stays rows n later pages page rest ih =>
    rw [List.flatten_cons, List.pairwise_append]
    refine ⟨page.inOrder, ih, fun a ha b hb => ?_⟩
    obtain ⟨z, rfl, -, lastRow, -⟩ := page.resumes n rfl
    have following := (at_ z b).mp (walked_beyond at_ mono rest b hb _ rfl)
    cases lastRow a ha with
    | inl same => exact same ▸ following
    | inr before => exact (at_ a b).mp (mono _ z b ((at_ a z).mpr before) following)

omit mono in
/-- A row that stays while every page is served is listed. -/
theorem walked_stays {a : α} (after : ∀ n ∈ c, beyond n a = true)
    (always : ∀ stays ∈ states, stays a) : a ∈ pages.flatten := by
  induction walk with
  | last page =>
    have listed := page.ends rfl a (always _ List.mem_cons_self) after
    simpa using listed
  | @more c stays rows n later pages page rest ih =>
    rw [List.flatten_cons, List.mem_append]
    obtain ⟨z, rfl, -, -, leaves⟩ := page.resumes n rfl
    cases leaves a (always _ List.mem_cons_self) after with
    | inl here => exact Or.inl here
    | inr following =>
      refine Or.inr (ih ?_ fun stays hs => always stays (List.mem_cons_of_mem _ hs))
      intro m hm
      cases hm
      exact (at_ z a).mpr following

end Walk

end Listing
