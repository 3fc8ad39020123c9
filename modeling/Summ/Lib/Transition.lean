import Mathlib.Data.List.Induction
import Mathlib.Logic.Relation

/-!
# Labelled steps and their runs

A system is a partial step function `step : σ → α → Option σ`. The label says
which party moves and with which choice, so a run is a list of labels:

* `exec`: the state a run ends in, `none` when some label is not enabled;
* `Meets`: every step of the run starts in a state its label is `ok` in;
* `exec_invariant`, `exec_preorder`: what one step keeps, a whole run keeps;
* `exec_history`: the same for what is said of the labels so far as well;
* `meets_of_prefixes`: a condition that each prefix of a run forces on its next
  label holds along the run.
-/

namespace Transition

variable {σ α : Type*}

/-- The state the labels lead to from `s`. -/
def exec (step : σ → α → Option σ) : σ → List α → Option σ
  | s, [] => some s
  | s, a :: as =>
    match step s a with
    | some t => exec step t as
    | none => none

/-- Every label is taken in a state that is `ok` for it. -/
def Meets (step : σ → α → Option σ) (ok : σ → α → Prop) : σ → List α → Prop
  | _, [] => True
  | s, a :: as =>
    ok s a ∧
      match step s a with
      | some t => Meets step ok t as
      | none => True

instance decidableMeets (step : σ → α → Option σ) (ok : σ → α → Prop)
    [∀ s a, Decidable (ok s a)] : ∀ s as, Decidable (Meets step ok s as)
  | _, [] => isTrue trivial
  | s, a :: as =>
    have : Decidable (match step s a with
      | some t => Meets step ok t as
      | none => True) :=
      match step s a with
      | some t => decidableMeets step ok t as
      | none => isTrue trivial
    inferInstanceAs (Decidable (ok s a ∧ _))

variable {step : σ → α → Option σ} {ok : σ → α → Prop}

@[simp] theorem exec_nil (s : σ) : exec step s [] = some s := rfl

theorem exec_cons (s : σ) (a : α) (as : List α) :
    exec step s (a :: as) = (step s a).bind (exec step · as) := by
  rw [exec]
  cases step s a <;> rfl

theorem exec_append (s : σ) (as bs : List α) :
    exec step s (as ++ bs) = (exec step s as).bind (exec step · bs) := by
  induction as generalizing s with
  | nil => rfl
  | cons a as ih =>
    rw [List.cons_append, exec_cons, exec_cons, Option.bind_assoc]
    congr 1
    funext t
    exact ih t

theorem exec_cons_some {s t : σ} {a : α} {as : List α} (h : exec step s (a :: as) = some t) :
    ∃ u, step s a = some u ∧ exec step u as = some t := by
  rw [exec_cons] at h
  exact Option.bind_eq_some_iff.mp h

theorem meets_cons {s u : σ} {a : α} {as : List α} (h : Meets step ok s (a :: as))
    (hs : step s a = some u) : ok s a ∧ Meets step ok u as := by
  simpa only [Meets, hs] using h

theorem meets_true (s : σ) (as : List α) : Meets step (fun _ _ => True) s as := by
  induction as generalizing s with
  | nil => trivial
  | cons a as ih =>
    refine ⟨trivial, ?_⟩
    split
    · exact ih _
    · trivial

theorem meets_mono {ok' : σ → α → Prop} (weaker : ∀ s a, ok s a → ok' s a) {s : σ} {as : List α}
    (meets : Meets step ok s as) : Meets step ok' s as := by
  induction as generalizing s with
  | nil => trivial
  | cons a as ih =>
    refine ⟨weaker s a meets.1, ?_⟩
    cases hs : step s a with
    | none => trivial
    | some t => exact ih (meets_cons meets hs).2

theorem meets_prefix {s : σ} {as bs : List α} (h : as <+: bs) (meets : Meets step ok s bs) :
    Meets step ok s as := by
  induction as generalizing s bs with
  | nil => trivial
  | cons a as ih =>
    obtain ⟨rest, rfl⟩ := h
    refine ⟨meets.1, ?_⟩
    cases hs : step s a with
    | none => trivial
    | some t => exact ih (List.prefix_append as rest) (meets_cons meets hs).2

theorem meets_suffix {s t : σ} {as bs : List α} (meets : Meets step ok s (as ++ bs))
    (run : exec step s as = some t) : Meets step ok t bs := by
  induction as generalizing s with
  | nil =>
    cases run
    exact meets
  | cons a as ih =>
    obtain ⟨u, hu, rest⟩ := exec_cons_some run
    exact ih (meets_cons meets hu).2 rest

theorem meets_append {s : σ} {as bs : List α} (first : Meets step ok s as)
    (second : ∀ t, exec step s as = some t → Meets step ok t bs) : Meets step ok s (as ++ bs) := by
  induction as generalizing s with
  | nil => exact second s rfl
  | cons a as ih =>
    refine ⟨first.1, ?_⟩
    cases hs : step s a with
    | none => trivial
    | some u =>
      refine ih (meets_cons first hs).2 fun t run => second t ?_
      rw [exec_cons, hs]
      exact run

/-- A condition on the labels alone joins one on the steps. -/
theorem meets_and_mem {P : α → Prop} {s : σ} {as : List α} (labels : ∀ a ∈ as, P a)
    (meets : Meets step ok s as) : Meets step (fun s a => ok s a ∧ P a) s as := by
  induction as generalizing s with
  | nil => trivial
  | cons a as ih =>
    refine ⟨⟨meets.1, labels a List.mem_cons_self⟩, ?_⟩
    cases hs : step s a with
    | none => trivial
    | some t => exact ih (fun b hb => labels b (List.mem_cons_of_mem _ hb)) (meets_cons meets hs).2

/-- What every permitted step keeps, every permitted run keeps. -/
theorem exec_invariant {I : σ → Prop}
    (keep : ∀ s a t, I s → ok s a → step s a = some t → I t)
    {s t : σ} {as : List α} (hs : I s) (meets : Meets step ok s as)
    (run : exec step s as = some t) : I t := by
  induction as generalizing s with
  | nil => cases run; exact hs
  | cons a as ih =>
    obtain ⟨u, hu, rest⟩ := exec_cons_some run
    obtain ⟨hok, later⟩ := meets_cons meets hu
    exact ih (keep s a u hs hok hu) later rest

/-- What holds of the empty run, and of every run one step longer than one it
holds of, holds of the labels of a run and the state they lead to. -/
theorem exec_history {H : List α → σ → Prop} {s : σ} (init : H [] s)
    (keep : ∀ as t a u, exec step s as = some t → H as t → step t a = some u → H (as ++ [a]) u)
    {as : List α} {t : σ} (run : exec step s as = some t) : H as t := by
  induction as using List.reverseRecOn generalizing t with
  | nil => cases run; exact init
  | append_singleton as a ih =>
    rw [exec_append] at run
    obtain ⟨u, before, last⟩ := Option.bind_eq_some_iff.mp run
    obtain ⟨v, hv, rest⟩ := exec_cons_some last
    cases rest
    exact keep as u a t before (ih before) hv

/-- A reflexive and transitive relation that every permitted step respects
under an invariant holds between the two ends of a permitted run. -/
theorem exec_preorder {I : σ → Prop} {R : σ → σ → Prop} (refl : ∀ s, R s s)
    (trans : ∀ s t u, R s t → R t u → R s u)
    (keep : ∀ s a t, I s → ok s a → step s a = some t → I t)
    (rel : ∀ s a t, I s → ok s a → step s a = some t → R s t)
    {s t : σ} {as : List α} (hs : I s) (meets : Meets step ok s as)
    (run : exec step s as = some t) : R s t := by
  induction as generalizing s with
  | nil => cases run; exact refl _
  | cons a as ih =>
    obtain ⟨u, hu, rest⟩ := exec_cons_some run
    obtain ⟨hok, later⟩ := meets_cons meets hu
    exact trans s u t (rel s a u hs hok hu) (ih (keep s a u hs hok hu) later rest)

/-- If every step that starts in a good state and ends in one was `ok`, a run
all of whose states are good meets `ok` throughout. -/
theorem meets_of_prefixes {G : σ → Prop}
    (necessary : ∀ s a t, G s → step s a = some t → G t → ok s a)
    {s : σ} {as : List α} (run : (exec step s as).isSome)
    (good : ∀ bs t, bs <+: as → exec step s bs = some t → G t) :
    Meets step ok s as := by
  induction as generalizing s with
  | nil => trivial
  | cons a as ih =>
    obtain ⟨t, ht⟩ := Option.isSome_iff_exists.mp run
    obtain ⟨u, hu, rest⟩ := exec_cons_some ht
    have hs : G s := good [] s List.nil_prefix rfl
    have hu' : G u := by
      apply good [a] u
      · exact (List.prefix_append [a] as)
      · simp [exec_cons, hu]
    refine ⟨necessary s a u hs hu hu', ?_⟩
    simp only [hu]
    apply ih (by simp [rest])
    intro bs v hb hv
    apply good (a :: bs) v
    · simpa using hb
    · simpa only [exec_cons, hu, Option.bind_some] using hv

end Transition
