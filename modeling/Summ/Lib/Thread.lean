import Mathlib.Control.Basic

/-!
# Threads: work in atomic steps on a shared state

A thread takes atomic steps on a state, each with an answer its further work
depends on (`step`), and ends with a result (`done`). In `Runs others` the state
moves by `others` before each step; the states the steps were taken in are
recorded. `amid moves` is the run in which the moves are the given ones.

* `runs_bind`: a run of one piece of work and then another is a run of each;
* `Keeps`, `Runs.keeps`: what every step and the others keep, a run keeps;
* `runs_amid`: what `amid` computes is one of the runs.
-/

inductive Thread (σ α : Type) : Type 1
  | done (a : α)
  | step {β : Type} (f : σ → β × σ) (next : β → Thread σ α)

namespace Thread

variable {σ α β ε : Type}

def bind : Thread σ α → (α → Thread σ β) → Thread σ β
  | .done a, k => k a
  | .step f next, k => .step f fun b => (next b).bind k

instance : Monad (Thread σ) where
  pure := .done
  bind := bind

/-- One atomic step. -/
def atomic (f : σ → α × σ) : Thread σ α := .step f .done

/-- The work, with the state moved before each step by the next of the moves, while
there are any: the states the steps are taken in, the result, and the state left. -/
def amid : Thread σ α → List (σ → σ) → σ → List σ × α × σ
  | .done a, _, s => ([], a, s)
  | .step f next, moves, s =>
    let u := moves.head?.elim s fun move => move s
    let rest := (next (f u).1).amid moves.tail (f u).2
    (u :: rest.1, rest.2)

/-- The work, with the state moved by `others` before each step. -/
inductive Runs (others : σ → σ → Prop) : Thread σ α → σ → List σ → α → σ → Prop
  | done {a : α} {s : σ} : Runs others (.done a) s [] a s
  | step {β : Type} {f : σ → β × σ} {next : β → Thread σ α} {s u t : σ} {seen : List σ} {a : α}
      (between : others s u) (rest : Runs others (next (f u).1) (f u).2 seen a t) :
      Runs others (.step f next) s (u :: seen) a t

/-- Every step keeps the invariant, whatever it was answered before. -/
def Keeps (I : σ → Prop) : Thread σ α → Prop
  | .done _ => True
  | .step f next => (∀ s, I s → I (f s).2) ∧ ∀ b, (next b).Keeps I

variable {others : σ → σ → Prop} {s t u : σ} {seen : List σ} {I : σ → Prop}

theorem runs_done {a b : α} (h : Runs others (.done a) s seen b t) : a = b ∧ t = s ∧ seen = [] := by
  cases h
  exact ⟨rfl, rfl, rfl⟩

theorem runs_atomic {f : σ → α × σ} {a : α} (h : Runs others (atomic f) s seen a t) :
    ∃ u, others s u ∧ seen = [u] ∧ a = (f u).1 ∧ t = (f u).2 := by
  cases h with
  | step between rest =>
    obtain ⟨rfl, rfl, rfl⟩ := runs_done rest
    exact ⟨_, between, rfl, rfl, rfl⟩

/-- A run of `p` and then of what follows from its result. -/
theorem runs_bind {p : Thread σ α} {k : α → Thread σ β} {b : β}
    (h : Runs others (p.bind k) s seen b t) :
    ∃ first a u rest, Runs others p s first a u ∧ Runs others (k a) u rest b t ∧
      seen = first ++ rest := by
  induction p generalizing s seen with
  | done a => exact ⟨[], a, s, seen, .done, h, rfl⟩
  | step f next ih =>
    cases h with
    | step between rest =>
      obtain ⟨first, a, u, later, run, last, rfl⟩ := ih _ rest
      exact ⟨_ :: first, a, u, later, .step between run, last, rfl⟩

/-- A run whose moves are the others' own, where they may also do nothing. -/
theorem runs_amid (refl : ∀ s, others s s) (p : Thread σ α) {moves : List (σ → σ)}
    (own : ∀ move ∈ moves, ∀ s, others s (move s)) (s : σ) :
    Runs others p s (p.amid moves s).1 (p.amid moves s).2.1 (p.amid moves s).2.2 := by
  induction p generalizing moves s with
  | done a => exact .done
  | step f next ih =>
    refine .step ?_ (ih _ (fun move mem => own move (List.mem_of_mem_tail mem)) _)
    cases moves with
    | nil => exact refl s
    | cons move moves => exact own move List.mem_cons_self s

theorem keeps_atomic {f : σ → α × σ} (h : ∀ s, I s → I (f s).2) : (atomic f).Keeps I :=
  ⟨h, fun _ => trivial⟩

theorem keeps_bind {p : Thread σ α} {k : α → Thread σ β} (first : p.Keeps I)
    (rest : ∀ a, (k a).Keeps I) : (p.bind k).Keeps I := by
  induction p with
  | done a => exact rest a
  | step f next ih => exact ⟨first.1, fun b => ih b (first.2 b)⟩

/-- What the steps and the others keep holds where each step is taken, and at the end. -/
theorem Runs.keeps {p : Thread σ α} {a : α} (between : ∀ s u, I s → others s u → I u)
    (start : I s) (keeps : p.Keeps I) (run : Runs others p s seen a t) :
    I t ∧ ∀ u ∈ seen, I u := by
  induction run with
  | done => exact ⟨start, fun u hu => (by cases hu)⟩
  | @step _ f next s u t seen a moved rest ih =>
    have there := between s u start moved
    obtain ⟨last, all⟩ := ih (keeps.1 u there) (keeps.2 _)
    refine ⟨last, fun v hv => ?_⟩
    cases List.mem_cons.mp hv with
    | inl first => exact first ▸ there
    | inr later => exact all v later

/-! ## Work that may fail -/

section Except
variable {p : ExceptT ε (Thread σ) α} {k : α → ExceptT ε (Thread σ) β}

/-- Work that succeeds and goes on succeeds in each part. -/
theorem runs_bind_ok {b : β} (h : Runs others (p >>= k).run s seen (.ok b) t) :
    ∃ first a u rest, Runs others p.run s first (.ok a) u ∧ Runs others (k a).run u rest (.ok b) t ∧
      seen = first ++ rest := by
  obtain ⟨first, a, u, rest, run, last, rfl⟩ := runs_bind h
  cases a with
  | error e =>
    obtain ⟨refused, -⟩ := runs_done last
    cases refused
  | ok a => exact ⟨first, a, u, rest, run, last, rfl⟩

theorem runs_pure_ok {a b : α} (h : Runs others (pure a : ExceptT ε (Thread σ) α).run s seen (.ok b) t) :
    a = b ∧ t = s ∧ seen = [] := by
  obtain ⟨made, last, none_⟩ := runs_done h
  exact ⟨Except.ok.inj made, last, none_⟩

end Except

end Thread
