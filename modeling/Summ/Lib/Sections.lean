import Summ.Lib.Pool
import Summ.Lib.Transition

/-!
# Sections under locks, of parties that may be dropped

A party waits for its lock and then works through its tasks, a step at a time; a step
changes what is shared and what the party remembers. A party may be dropped anywhere:
its lock is free at once, and only the task it is within runs on.

* `Heeds`: no party is dropped within a task;
* `Rules`: what every step keeps, and what it leaves to the parties under other locks;
* `sections_hold`: along a run that heeds that, no two parties are inside under one
  lock, and what the rules keep is kept.
-/

namespace Sections

/-- What a party has to do under its lock, task by task, and what it remembers. -/
structure Work (ι μ : Type*) where
  lock : Nat
  tasks : List (List ι)
  memory : μ

structure Party (ι μ : Type*) where
  work : Work ι μ
  inside : Bool := false
  dropped : Bool := false

structure Stage (σ ι μ : Type*) where
  shared : σ
  parties : List (Party ι μ) := []

/-- The work of each request, what its steps do, and what happens beside them. -/
structure Program (σ α ω ι μ : Type*) where
  work : ω → Work ι μ
  run : ι → μ → σ → μ × σ
  other : α → σ → Option σ

inductive Act (α ω : Type*)
  | arrive (request : ω)
  | enter (p : Nat)
  | work (p : Nat)
  /-- A task has ended: the party goes on to the next, or leaves. -/
  | proceed (p : Nat)
  | drop (p : Nat)
  | other (a : α)
  /-- All parties are gone at once. -/
  | crash (a : α)

variable {σ α ω ι μ : Type*}

/-- The party is within a task. -/
def Party.busy (q : Party ι μ) : Bool :=
  q.inside && match q.work.tasks with
    | (_ :: _) :: _ => true
    | _ => false

def Party.holds (q : Party ι μ) : Bool := q.inside && !q.dropped

namespace Stage

variable (s : Stage σ ι μ)

def taken (lock : Nat) : Bool := s.parties.any fun q => q.holds && decide (q.work.lock = lock)

def enter (p : Nat) (q : Party ι μ) : Option (Stage σ ι μ) :=
  if q.inside || q.dropped || q.work.tasks.isEmpty || s.taken q.work.lock then none
  else some { s with parties := s.parties.set p { q with inside := true } }

def work (prog : Program σ α ω ι μ) (p : Nat) (q : Party ι μ) : Option (Stage σ ι μ) :=
  match q.inside, q.work.tasks with
  | true, (i :: is) :: rest =>
    let (memory, shared) := prog.run i q.work.memory s.shared
    some {
      shared
      parties := s.parties.set p { q with
        work := { q.work with tasks := is :: rest, memory }
        inside := !(q.dropped && is.isEmpty) } }
  | _, _ => none

def proceed (p : Nat) (q : Party ι μ) : Option (Stage σ ι μ) :=
  match q.holds, q.work.tasks with
  | true, [] :: rest =>
    some { s with parties := s.parties.set p { q with
      work := { q.work with tasks := rest }
      inside := !rest.isEmpty } }
  | _, _ => none

def drop (p : Nat) (q : Party ι μ) : Option (Stage σ ι μ) :=
  if q.dropped then none
  else some { s with parties := s.parties.set p { q with dropped := true, inside := q.busy } }

end Stage

def step (prog : Program σ α ω ι μ) (s : Stage σ ι μ) : Act α ω → Option (Stage σ ι μ)
  | .arrive request => some { s with parties := s.parties ++ [{ work := prog.work request }] }
  | .enter p => s.parties[p]?.bind (s.enter p)
  | .work p => s.parties[p]?.bind (s.work prog p)
  | .proceed p => s.parties[p]?.bind (s.proceed p)
  | .drop p => s.parties[p]?.bind (s.drop p)
  | .other a => (prog.other a s.shared).map fun shared => { s with shared }
  | .crash a => (prog.other a s.shared).map fun shared => { shared }

/-- No party is dropped within a task. -/
def Heeds (s : Stage σ ι μ) : Act α ω → Prop
  | .drop p => ∀ q ∈ s.parties[p]?, q.busy = false
  | _ => True

instance (s : Stage σ ι μ) : (act : Act α ω) → Decidable (Heeds s act)
  | .drop p => inferInstanceAs (Decidable (∀ q ∈ s.parties[p]?, q.busy = false))
  | .arrive _ | .enter _ | .work _ | .proceed _ | .other _ | .crash _ =>
    inferInstanceAs (Decidable True)

/-- What a party has done of its work by one step. -/
def Work.did (w : Work ι μ) (is : List ι) (rest : List (List ι)) (memory : μ) : Work ι μ :=
  { w with tasks := is :: rest, memory }

/-- What holds of all that is shared, what a party inside knows of it, and what keeps
two parties apart. -/
structure Rules (prog : Program σ α ω ι μ) (Inv : σ → Prop) (Knows : Work ι μ → σ → Prop)
    (Apart : Work ι μ → Work ι μ → Prop) : Prop where
  symm : ∀ w w', Apart w w' → Apart w' w
  enter : ∀ s request, Inv s → Knows (prog.work request) s ∧
    ∀ w, w.lock ≠ (prog.work request).lock → Apart (prog.work request) w
  keeps : ∀ s w i is rest, w.tasks = (i :: is) :: rest → Inv s → Knows w s →
    Inv (prog.run i w.memory s).2 ∧
      Knows (w.did is rest (prog.run i w.memory s).1) (prog.run i w.memory s).2
  spares : ∀ s w i is rest w', w.tasks = (i :: is) :: rest → Inv s → Knows w s →
    w'.lock ≠ w.lock → Apart w w' → Knows w' s →
    Knows w' (prog.run i w.memory s).2 ∧ Apart (w.did is rest (prog.run i w.memory s).1) w'
  next : ∀ s w rest, w.tasks = [] :: rest → Knows w s →
    Knows { w with tasks := rest } s ∧ ∀ w', Apart w w' → Apart { w with tasks := rest } w'
  other : ∀ a s s', prog.other a s = some s' → Inv s → Inv s' ∧ ∀ w, Knows w s → Knows w s'

/-- What is kept along a run. -/
structure Holds (prog : Program σ α ω ι μ) (Inv : σ → Prop) (Knows : Work ι μ → σ → Prop)
    (Apart : Work ι μ → Work ι μ → Prop) (s : Stage σ ι μ) : Prop where
  inv : Inv s.shared
  knows : ∀ (p : Nat) (q : Party ι μ), s.parties[p]? = some q → q.inside = true → Knows q.work s.shared
  alone : ∀ (p p' : Nat) (q q' : Party ι μ), p ≠ p' → s.parties[p]? = some q → s.parties[p']? = some q' →
    q.inside = true → q'.inside = true → q.work.lock ≠ q'.work.lock ∧ Apart q.work q'.work
  attached : ∀ (p : Nat) (q : Party ι μ), s.parties[p]? = some q → q.inside = true → q.dropped = false
  fresh : ∀ (p : Nat) (q : Party ι μ), s.parties[p]? = some q → q.inside = false →
    q.work.tasks = [] ∨ q.dropped = true ∨ ∃ request, q.work = prog.work request

section Run
variable {prog : Program σ α ω ι μ} {Inv : σ → Prop} {Knows : Work ι μ → σ → Prop}
  {Apart : Work ι μ → Work ι μ → Prop} {s t : Stage σ ι μ}

theorem not_taken {lock : Nat} (free : s.taken lock = false) {p : Nat} {q : Party ι μ}
    (h : s.parties[p]? = some q) (inside : q.inside = true) (attached : q.dropped = false) :
    q.work.lock ≠ lock := by
  intro same
  have held : s.taken lock = true :=
    List.any_eq_true.mpr ⟨q, List.mem_of_getElem? h, by simp [Party.holds, inside, attached, same]⟩
  rw [free] at held
  cases held

/-- One party moves on, and the shared state with it. -/
theorem Holds.moved (holds : Holds prog Inv Knows Apart s) {p : Nat} {q q' : Party ι μ}
    (moves : s.parties[p]? = some q) {shared : σ} (inv : Inv shared)
    (own : q'.inside = true → Knows q'.work shared ∧ q'.dropped = false)
    (others : ∀ p' x, p' ≠ p → s.parties[p']? = some x → x.inside = true →
      Knows x.work shared ∧
        (q'.inside = true → q'.work.lock ≠ x.work.lock ∧ Apart q'.work x.work))
    (symm : ∀ w w', Apart w w' → Apart w' w)
    (fresh : q'.inside = false →
      q'.work.tasks = [] ∨ q'.dropped = true ∨ ∃ request, q'.work = prog.work request) :
    Holds prog Inv Knows Apart { shared, parties := s.parties.set p q' } where
  inv := inv
  knows r x h inside := by
    rcases Pool.of_set moves h with ⟨rfl, rfl⟩ | ⟨other, h⟩
    · exact (own inside).1
    · exact (others r x other h inside).1
  alone r r' x x' ne h h' inside inside' := by
    rcases Pool.of_set moves h with ⟨rfl, rfl⟩ | ⟨other, before⟩
    · rcases Pool.of_set moves h' with ⟨rfl, rfl⟩ | ⟨other', h'⟩
      · exact absurd rfl ne
      · exact (others r' x' other' h' inside').2 inside
    · rcases Pool.of_set moves h' with ⟨rfl, rfl⟩ | ⟨other', h'⟩
      · obtain ⟨locks, apart⟩ := (others r x other before inside).2 inside'
        exact ⟨Ne.symm locks, symm _ _ apart⟩
      · exact holds.alone r r' x x' ne before h' inside inside'
  attached r x h inside := by
    rcases Pool.of_set moves h with ⟨rfl, rfl⟩ | ⟨other, h⟩
    · exact (own inside).2
    · exact holds.attached r x h inside
  fresh r x h outside := by
    rcases Pool.of_set moves h with ⟨rfl, rfl⟩ | ⟨other, h⟩
    · exact fresh outside
    · exact holds.fresh r x h outside

theorem Holds.enter (rules : Rules prog Inv Knows Apart) (holds : Holds prog Inv Knows Apart s)
    {p : Nat} {q : Party ι μ} (moves : s.parties[p]? = some q) (h : s.enter p q = some t) :
    Holds prog Inv Knows Apart t := by
  unfold Stage.enter at h
  split at h
  · cases h
  · rename_i may
    simp only [Bool.or_eq_true, not_or, Bool.not_eq_true] at may
    obtain ⟨⟨⟨outside, attached⟩, todo⟩, free⟩ := may
    cases h
    obtain ⟨request, made⟩ : ∃ request, q.work = prog.work request := by
      rcases holds.fresh p q moves outside with done | dropped | made
      · simp [done] at todo
      · simp [attached] at dropped
      · exact made
    obtain ⟨knows, apart⟩ := rules.enter s.shared request holds.inv
    rw [← made] at knows apart
    refine holds.moved moves holds.inv (fun _ => ⟨knows, attached⟩) ?_ rules.symm fun h => by cases h
    intro p' x _ hx inside
    have locks := not_taken free hx inside (holds.attached p' x hx inside)
    exact ⟨holds.knows p' x hx inside, fun _ => ⟨Ne.symm locks, apart x.work locks⟩⟩

theorem Holds.work (rules : Rules prog Inv Knows Apart) (holds : Holds prog Inv Knows Apart s)
    {p : Nat} {q : Party ι μ} (moves : s.parties[p]? = some q) (h : s.work prog p q = some t) :
    Holds prog Inv Knows Apart t := by
  unfold Stage.work at h
  split at h
  · rename_i i is rest inside tasks
    cases h
    have knows := holds.knows p q moves inside
    have attached := holds.attached p q moves inside
    obtain ⟨inv, knows'⟩ := rules.keeps s.shared q.work i is rest tasks holds.inv knows
    refine holds.moved moves inv (fun _ => ⟨knows', attached⟩) ?_ rules.symm fun h => by
      simp [attached] at h
    intro p' x ne hx inside'
    obtain ⟨locks, apart⟩ := holds.alone p p' q x (Ne.symm ne) moves hx inside inside'
    obtain ⟨spared, apart'⟩ := rules.spares s.shared q.work i is rest x.work tasks holds.inv knows
      (Ne.symm locks) apart (holds.knows p' x hx inside')
    exact ⟨spared, fun _ => ⟨locks, apart'⟩⟩
  · cases h

theorem Holds.proceed (rules : Rules prog Inv Knows Apart) (holds : Holds prog Inv Knows Apart s)
    {p : Nat} {q : Party ι μ} (moves : s.parties[p]? = some q) (h : s.proceed p q = some t) :
    Holds prog Inv Knows Apart t := by
  unfold Stage.proceed at h
  split at h
  · rename_i rest held tasks
    cases h
    simp only [Party.holds, Bool.and_eq_true, Bool.not_eq_true'] at held
    obtain ⟨inside, attached⟩ := held
    obtain ⟨knows, apart⟩ := rules.next s.shared q.work rest tasks (holds.knows p q moves inside)
    refine holds.moved moves holds.inv (fun _ => ⟨knows, attached⟩) ?_ rules.symm fun h => ?_
    · intro p' x ne hx inside'
      obtain ⟨locks, apart'⟩ := holds.alone p p' q x (Ne.symm ne) moves hx inside inside'
      exact ⟨holds.knows p' x hx inside', fun _ => ⟨locks, apart x.work apart'⟩⟩
    · exact Or.inl (by simpa using h)
  · cases h

theorem Holds.drop (rules : Rules prog Inv Knows Apart) (holds : Holds prog Inv Knows Apart s)
    {p : Nat} {q : Party ι μ} (moves : s.parties[p]? = some q) (idle : q.busy = false)
    (h : s.drop p q = some t) : Holds prog Inv Knows Apart t := by
  unfold Stage.drop at h
  split at h
  · cases h
  · cases h
    refine holds.moved moves holds.inv (fun h => ?_) ?_ rules.symm fun _ => Or.inr (Or.inl rfl)
    · rw [idle] at h
      cases h
    · intro p' x _ hx inside
      refine ⟨holds.knows p' x hx inside, fun h => ?_⟩
      rw [idle] at h
      cases h

theorem Holds.step (rules : Rules prog Inv Knows Apart) (holds : Holds prog Inv Knows Apart s)
    {act : Act α ω} (heeds : Heeds s act) (h : step prog s act = some t) :
    Holds prog Inv Knows Apart t := by
  cases act with
  | arrive request =>
    cases h
    refine ⟨holds.inv, fun p q h inside => ?_, fun p p' q q' ne h h' inside inside' => ?_,
      fun p q h inside => ?_, fun p q h outside => ?_⟩
    · rcases Pool.of_add h with ⟨-, rfl⟩ | h
      · cases inside
      · exact holds.knows p q h inside
    · rcases Pool.of_add h with ⟨-, rfl⟩ | h
      · cases inside
      · rcases Pool.of_add h' with ⟨-, rfl⟩ | h'
        · cases inside'
        · exact holds.alone p p' q q' ne h h' inside inside'
    · rcases Pool.of_add h with ⟨-, rfl⟩ | h
      · cases inside
      · exact holds.attached p q h inside
    · rcases Pool.of_add h with ⟨-, rfl⟩ | h
      · exact Or.inr (Or.inr ⟨request, rfl⟩)
      · exact holds.fresh p q h outside
  | enter p =>
    obtain ⟨q, moves, h⟩ := Option.bind_eq_some_iff.mp h
    exact holds.enter rules moves h
  | work p =>
    obtain ⟨q, moves, h⟩ := Option.bind_eq_some_iff.mp h
    exact holds.work rules moves h
  | proceed p =>
    obtain ⟨q, moves, h⟩ := Option.bind_eq_some_iff.mp h
    exact holds.proceed rules moves h
  | drop p =>
    obtain ⟨q, moves, h⟩ := Option.bind_eq_some_iff.mp h
    exact holds.drop rules moves (heeds q moves) h
  | other a =>
    obtain ⟨shared, moved, rfl⟩ := Option.map_eq_some_iff.mp h
    obtain ⟨inv, knows⟩ := rules.other a s.shared shared moved holds.inv
    exact { holds with inv, knows := fun p q hq inside => knows q.work (holds.knows p q hq inside) }
  | crash a =>
    obtain ⟨shared, moved, rfl⟩ := Option.map_eq_some_iff.mp h
    refine ⟨(rules.other a s.shared shared moved holds.inv).1, ?_, ?_, ?_, ?_⟩
    · intro p q h
      simp at h
    · intro p p' q q' ne h
      simp at h
    · intro p q h
      simp at h
    · intro p q h
      simp at h

/-- Along a run in which no party is dropped within a task, the rules hold. -/
theorem sections_hold (rules : Rules prog Inv Knows Apart) {shared : σ} (start : Inv shared)
    {acts : List (Act α ω)} (meets : Transition.Meets (Sections.step prog) Heeds { shared } acts)
    (run : Transition.exec (Sections.step prog) { shared } acts = some t) :
    Holds prog Inv Knows Apart t := by
  refine Transition.exec_invariant (fun s act t holds heeds h => Holds.step rules holds heeds h) ?_
    meets run
  refine ⟨start, ?_, ?_, ?_, ?_⟩
  · intro p q h
    simp at h
  · intro p p' q q' ne h
    simp at h
  · intro p q h
    simp at h
  · intro p q h
    simp at h

end Run

end Sections
