import Mathlib.Logic.Basic

/-!
# Systems that answer, and what they refine

A system answers each request as it moves: `step : σ → α → Option (β × σ)`. A
specification says, in states of its own, which answers a request may have and
where it may lead. `allowed_of_run`: a system each of whose steps the
specification allows, from related states to related states, has no run that the
specification does not allow with the same answers.
-/

namespace Simulation

variable {σ τ α β : Type*}

/-- What the requests are answered, and the state they lead to. -/
def run (step : σ → α → Option (β × σ)) : σ → List α → Option (List β × σ)
  | s, [] => some ([], s)
  | s, a :: as =>
    match step s a with
    | some (b, t) => (run step t as).map fun r => (b :: r.1, r.2)
    | none => none

/-- The runs of a specification. -/
inductive Allowed (spec : τ → α → β → τ → Prop) : τ → List α → List β → τ → Prop
  | nil {x : τ} : Allowed spec x [] [] x
  | cons {x y z : τ} {a : α} {b : β} {as : List α} {bs : List β} (first : spec x a b y)
      (rest : Allowed spec y as bs z) : Allowed spec x (a :: as) (b :: bs) z

variable {step : σ → α → Option (β × σ)} {spec : τ → α → β → τ → Prop}

theorem run_cons_some {s t : σ} {a : α} {as : List α} {bs : List β}
    (h : run step s (a :: as) = some (bs, t)) :
    ∃ b u bs', step s a = some (b, u) ∧ run step u as = some (bs', t) ∧ bs = b :: bs' := by
  rw [run] at h
  split at h
  · rename_i b u hs
    obtain ⟨⟨bs', t'⟩, rest, made⟩ := Option.map_eq_some_iff.mp h
    cases made
    exact ⟨b, u, bs', hs, rest, rfl⟩
  · cases h

/-- A run is allowed when each of its steps is. -/
theorem allowed_of_run {related : σ → τ → Prop}
    (simulates : ∀ s x a b t, related s x → step s a = some (b, t) →
      ∃ y, spec x a b y ∧ related t y)
    {s t : σ} {x : τ} {as : List α} {bs : List β} (start : related s x)
    (h : run step s as = some (bs, t)) : ∃ y, Allowed spec x as bs y ∧ related t y := by
  induction as generalizing s x bs with
  | nil =>
    cases h
    exact ⟨x, .nil, start⟩
  | cons a as ih =>
    obtain ⟨b, u, bs', hs, rest, rfl⟩ := run_cons_some h
    obtain ⟨y, first, related'⟩ := simulates s x a b u start hs
    obtain ⟨z, allowed, last⟩ := ih related' rest
    exact ⟨z, .cons first allowed, last⟩

end Simulation
