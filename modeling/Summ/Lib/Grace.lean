import Mathlib.Logic.Basic

/-!
# Taking away what nobody names, after a grace period

A thing is kept in places, each with the time since when, and named from places. A
pass started at `T` first walks the places: what has been kept for a grace period
and is not named there is let go, and its mark with it. It then marks what is named
nowhere, with `T`, and takes away what is marked with a time a grace period before
`T`. Meanwhile plans are made to name the thing from where it is kept or named, and
carried out later.

`Safe` is kept by every step, so that a thing is there wherever it is kept or named:

* what clears the mark of a thing that is there (`Safe.unmarked`), and what
  unnames it (`Safe.unnamed`);
* a pass that has seen to more places (`Safe.seen`), that marks (`Safe.marked`)
  and that takes away (`Safe.taken`).
-/

namespace Grace

structure Thing (ρ : Type*) where
  held : Prop
  mark : Option Nat
  kept : ρ → Option Nat
  named : ρ → Prop

/-- The grace period, how late after its start a pass still marks, and how late a
plan is still carried out. -/
structure Terms where
  grace : Nat
  delay : Nat
  gap : Nat
  pos : 0 < gap
  fits : delay + gap ≤ grace

variable {ρ : Type*}

/-- Nothing is gone that is kept, named, or planned to be named. A mark is younger
than all that is kept; a pass has left no old mark where it has seen to a place; a
plan rests on where the thing is kept or named, or there is no mark but a late one. -/
structure Safe (k : Terms) (clock : Nat) (x : Thing ρ) (plans : ρ → Nat → Prop)
    (passes : Nat → (ρ → Prop) → Prop) : Prop where
  named : ∀ r, x.named r → x.held
  kept : ∀ r a, x.kept r = some a → x.held
  planned : ∀ r p, plans r p → clock < p + k.gap → x.held
  free : ∀ S, x.mark = some S → ∀ r, ¬x.named r
  older : ∀ S, x.mark = some S → ∀ r a, x.kept r = some a → a ≤ S
  swept : ∀ T seen, passes T seen → ∀ r, seen r → ∀ a S, x.kept r = some a → x.mark = some S →
    T < S + k.grace
  late : ∀ r p, plans r p → clock < p + k.gap →
    (∃ a, x.kept r = some a) ∨ x.named r ∨ ∀ S, x.mark = some S → p ≤ S + k.delay
  made : ∀ r p, plans r p → p ≤ clock
  begun : ∀ T seen, passes T seen → T ≤ clock

variable {k : Terms} {clock : Nat} {x y : Thing ρ} {plans : ρ → Nat → Prop}
  {passes : Nat → (ρ → Prop) → Prop}

/-- Time passes, plans end, and passes end or start with nothing seen. -/
theorem Safe.later (safe : Safe k clock x plans passes) {clock' : Nat} {plans' : ρ → Nat → Prop}
    {passes' : Nat → (ρ → Prop) → Prop} (on : clock ≤ clock') (fewer : ∀ r p, plans' r p → plans r p)
    (among : ∀ T seen, passes' T seen → T ≤ clock' ∧
      ∀ r, seen r → ∃ seen', passes T seen' ∧ seen' r) : Safe k clock' x plans' passes' where
  named := safe.named
  kept := safe.kept
  planned r p h ends := safe.planned r p (fewer r p h) (by omega)
  free := safe.free
  older := safe.older
  swept T seen h r hr := by
    obtain ⟨seen', h', hr'⟩ := (among T seen h).2 r hr
    exact safe.swept T seen' h' r hr'
  late r p h ends := safe.late r p (fewer r p h) (by omega)
  made r p h := Nat.le_trans (safe.made r p (fewer r p h)) on
  begun T seen h := (among T seen h).1

/-- A thing that is there is safe without a mark. -/
theorem Safe.unmarked (safe : Safe k clock x plans passes) (held : y.held) (mark : y.mark = none) :
    Safe k clock y plans passes where
  named _ _ := held
  kept _ _ _ := held
  planned _ _ _ _ := held
  free S h := by rw [mark] at h; cases h
  older S h := by rw [mark] at h; cases h
  swept T seen _ r _ a S _ h := by rw [mark] at h; cases h
  late r p _ _ := Or.inr (Or.inr fun S h => by rw [mark] at h; cases h)
  made := safe.made
  begun := safe.begun

/-- A thing may be named from fewer places: a plan that rested on one finds no mark. -/
theorem Safe.unnamed (safe : Safe k clock x plans passes) (held : y.held ↔ x.held)
    (mark : y.mark = x.mark) (kept : ∀ r, y.kept r = x.kept r) (named : ∀ r, y.named r → x.named r) :
    Safe k clock y plans passes where
  named r h := held.mpr (safe.named r (named r h))
  kept r a h := held.mpr (safe.kept r a (by rw [← kept, h]))
  planned r p h ends := held.mpr (safe.planned r p h ends)
  free S h r hr := safe.free S (by rw [← mark, h]) r (named r hr)
  older S h r a ha := safe.older S (by rw [← mark, h]) r a (by rw [← kept, ha])
  swept T seen h r hr a S ha hS :=
    safe.swept T seen h r hr a S (by rw [← kept, ha]) (by rw [← mark, hS])
  late r p h ends := by
    rw [kept, mark]
    cases safe.late r p h ends with
    | inl there => exact Or.inl there
    | inr rest =>
      refine Or.inr (Or.inr ?_)
      cases rest with
      | inl there => exact fun S hS => absurd there (safe.free S hS r)
      | inr late => exact late
  made := safe.made
  begun := safe.begun

/-- A plan is made where the thing is kept or named. -/
theorem Safe.planning (safe : Safe k clock x plans passes) {plans' : ρ → Nat → Prop}
    (more : ∀ r p, plans' r p → plans r p ∨
      p = clock ∧ x.held ∧ ((∃ a, x.kept r = some a) ∨ x.named r)) :
    Safe k clock x plans' passes where
  named := safe.named
  kept := safe.kept
  planned r p h ends := by
    cases more r p h with
    | inl old => exact safe.planned r p old ends
    | inr new => exact new.2.1
  free := safe.free
  older := safe.older
  swept := safe.swept
  late r p h ends := by
    cases more r p h with
    | inl old => exact safe.late r p old ends
    | inr new => exact new.2.2.imp_right Or.inl
  made r p h := by
    cases more r p h with
    | inl old => exact safe.made r p old
    | inr new => exact Nat.le_of_eq new.1
  begun := safe.begun

/-- A pass has seen to places that keep the thing for too short a time, or name it. -/
theorem Safe.seen (safe : Safe k clock x plans passes) {passes' : Nat → (ρ → Prop) → Prop}
    (more : ∀ T seen', passes' T seen' → T ≤ clock ∧ ∀ r, seen' r →
      (∃ seen, passes T seen ∧ seen r) ∨
        ∀ a, x.kept r = some a → T < a + k.grace ∨ x.named r) :
    Safe k clock x plans passes' where
  named := safe.named
  kept := safe.kept
  planned := safe.planned
  free := safe.free
  older := safe.older
  swept T seen' h r hr a S ha hS := by
    cases (more T seen' h).2 r hr with
    | inl before =>
      obtain ⟨seen, h', hr'⟩ := before
      exact safe.swept T seen h' r hr' a S ha hS
    | inr now =>
      cases now a ha with
      | inl young =>
        have := safe.older S hS r a ha
        omega
      | inr there => exact absurd there (safe.free S hS r)
  late := safe.late
  made := safe.made
  begun T seen' h := (more T seen' h).1

/-- A pass marks in time what is named nowhere, and kept only since before it. -/
theorem Safe.marked (safe : Safe k clock x plans passes) {T : Nat}
    (inTime : clock ≤ T + k.delay) (unnamed : ∀ r, ¬x.named r)
    (older : ∀ r a, x.kept r = some a → a ≤ T) (held : y.held ↔ x.held) (mark : y.mark = some T)
    (kept : ∀ r, y.kept r = x.kept r) (named : ∀ r, y.named r → x.named r) :
    Safe k clock y plans passes where
  named r h := absurd (named r h) (unnamed r)
  kept r a h := held.mpr (safe.kept r a (by rw [← kept, h]))
  planned r p h ends := held.mpr (safe.planned r p h ends)
  free S _ r hr := unnamed r (named r hr)
  older S hS r a ha := by
    rw [mark] at hS
    cases hS
    exact older r a (by rw [← kept, ha])
  swept T' seen h r _ a S _ hS := by
    rw [mark] at hS
    cases hS
    have begun := safe.begun T' seen h
    have fits := k.fits
    have pos := k.pos
    omega
  late r p h _ := by
    refine Or.inr (Or.inr fun S hS => ?_)
    rw [mark] at hS
    cases hS
    exact Nat.le_trans (safe.made r p h) inTime
  made := safe.made
  begun := safe.begun

/-- A pass that has seen to every place takes away what was marked a grace period
before it started: nothing keeps it, and no plan can still count on it. -/
theorem Safe.taken (safe : Safe k clock x plans passes) {T S : Nat} {seen : ρ → Prop}
    (pass : passes T seen) (all : ∀ r, seen r) (marked : x.mark = some S) (old : S + k.grace ≤ T)
    (mark : y.mark = none) (kept : ∀ r, y.kept r = x.kept r) (named : ∀ r, y.named r → x.named r) :
    Safe k clock y plans passes := by
  have keeps (r : ρ) (a : Nat) : x.kept r ≠ some a := by
    intro h
    have := safe.swept T seen pass r (all r) a S h marked
    omega
  have names (r : ρ) : ¬x.named r := safe.free S marked r
  have counts (r : ρ) (p : Nat) (h : plans r p) : ¬clock < p + k.gap := by
    intro ends
    have begun := safe.begun T seen pass
    have fits := k.fits
    rcases safe.late r p h ends with ⟨a, ha⟩ | there | late
    · exact keeps r a ha
    · exact names r there
    · have := late S marked
      omega
  exact {
    named := fun r h => absurd (named r h) (names r)
    kept := fun r a h => absurd ((kept r).symm.trans h) (keeps r a)
    planned := fun r p h ends => absurd ends (counts r p h)
    free := fun S h => by rw [mark] at h; cases h
    older := fun S h => by rw [mark] at h; cases h
    swept := fun T seen _ r _ a S _ h => by rw [mark] at h; cases h
    late := fun r p h ends => absurd ends (counts r p h)
    made := safe.made
    begun := safe.begun }

end Grace
