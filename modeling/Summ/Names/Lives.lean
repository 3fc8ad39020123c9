import Summ.Names.Maps

/-!
# Ids over restarts

A restart drops the caches and the requests and keeps the store. `allocations`
lists the names given an id along a run, and the ids they were given.
-/

namespace Summ

namespace Names

inductive Event
  | act (a : Action)
  /-- The process ends, and another starts on its store with caches of this size. -/
  | restart (entries : Nat)

def State.restart (s : State) (entries : Nat) : State :=
  { s with interner := .withCapacity entries, alloc := none, requests := [] }

def live (s : State) : Event → Option State
  | .act a => step s a
  | .restart entries => some (s.restart entries)

/-- The name and the id of a step that allocates one. -/
def allocation (s : State) : Event → Option (Text × RepoId)
  | .act (.advance r) =>
    match s.requests[r]? with
    | some (q, .allocate) =>
      if MAX_REPO_ID < s.store.nextId then none
      else q.name.map fun name => (name, s.store.nextId)
    | _ => none
  | _ => none

/-- The allocations along a run, in order. -/
def allocations : State → List Event → List (Text × RepoId)
  | _, [] => []
  | s, e :: es =>
    (allocation s e).toList ++
      match live s e with
      | some t => allocations t es
      | none => []

theorem allocations_append {s t : State} {es fs : List Event}
    (run : Transition.exec live s es = some t) :
    allocations s (es ++ fs) = allocations s es ++ allocations t fs := by
  induction es generalizing s with
  | nil =>
    cases run
    rfl
  | cons e es ih =>
    obtain ⟨u, hu, rest⟩ := Transition.exec_cons_some run
    simp only [List.cons_append, allocations, hu, ih rest, List.append_assoc]

theorem allocations_concat {s t : State} {es : List Event} {e : Event}
    (run : Transition.exec live s es = some t) :
    allocations s (es ++ [e]) = allocations s es ++ (allocation t e).toList := by
  rw [allocations_append run, allocations]
  congr 1
  cases live t e <;> simp [allocations]

/-! ## What an allocation does -/

/-- The id handed out is the counter's, and the counter moves past it. -/
theorem of_allocation {s t : State} {e : Event} {x : Text × RepoId}
    (h : allocation s e = some x) (hs : live s e = some t) :
    x.2 = s.store.nextId ∧ ¬ MAX_REPO_ID < x.2 ∧ t.store.nextId = x.2 + 1 := by
  cases e with
  | restart entries => cases h
  | act a =>
    cases a with
    | arrive q => cases h
    | advance r =>
      simp only [allocation] at h
      split at h
      · rename_i q at_
        split at h
        · cases h
        · rename_i room
          obtain ⟨name, named, rfl⟩ := Option.map_eq_some_iff.mp h
          simp only [live, step, at_, Option.bind_some, State.advance, named, Option.map_some,
            State.allocateId, if_neg room, Option.some.injEq] at hs
          subst hs
          exact ⟨rfl, room, Store.internBatch_nextId ..⟩
      · cases h

theorem allocation_of_allocates {s u : State} {r : Nat} {q : Request} {p : Progress} {name : Text}
    (h : Allocates s q p name u) (at_ : s.requests[r]? = some (q, p)) :
    allocation s (.act (.advance r)) = some (name, s.store.nextId) := by
  obtain rfl := h.allocating
  simp [allocation, at_, h.room, h.named]

/-- Once the counter is past the last id, an allocation fails and writes nothing. -/
theorem exhausted_step {s : State} {r : Nat} {q : Request} {name : Text}
    (at_ : s.requests[r]? = some (q, .allocate)) (named : q.name = some name)
    (full : MAX_REPO_ID < s.store.nextId) :
    live s (.act (.advance r)) = some ((s.unlock true).goto r q (.returned none)) := by
  simp [live, step, at_, State.advance, named, State.allocateId, full]

/-- A dead record names an id that a deletion had in hand. -/
theorem Moves.died {s u : State} {r : Nat} {q : Request} {p p' : Progress}
    (moves : Moves s r q p p' u) {id : RepoId} (h : u.store.has (.deadRepo id) = true) :
    s.store.has (.deadRepo id) = true ∨ ∃ name, q.name = some name ∧ p.id = some id := by
  cases moves with
  | allocated _ _ | retired _ => exact Or.inl ((Store.has_apply_of_effect rfl).symm.trans h)
  | @tombstoned name now id' deletes =>
    by_cases hid : id' = id
    · exact Or.inr ⟨name, by rw [deletes]; rfl, by rw [hid]; rfl⟩
    · refine Or.inl ((Store.has_apply_of_effect ?_).symm.trans h)
      simp [Store.tombstoneBatch, MetaOp.effect, hid]
  | @pushed _ _ plan _ =>
    obtain ⟨s₀, ts, hbatch⟩ := plan.planned
    refine Or.inl ((Store.has_apply_of_effect ?_).symm.trans h)
    rw [hbatch, Store.pushBatch_deadRepo]
  | retracted _ =>
    refine Or.inl ((Store.has_apply_of_effect (Store.sweepRefsBatch_other ?_)).symm.trans h)
    intro b r m hk
    cases hk
  | @finished id' sweeps =>
    have left := (Store.has_apply ..).symm.trans h
    rw [Store.sweepFinishBatch_data (Or.inr rfl)] at left
    split at left
    · cases left
    · exact Or.inl left
  | _ => exact Or.inl h

/-! ## What holds along a run -/

theorem Coherent.restart {s : State} (inv : Coherent s) (entries : Nat) :
    Coherent (s.restart entries) where
  holder r q p h := by simp [State.restart] at h
  holds r h := by simp [State.restart] at h
  unmapped r q name h := by simp [State.restart] at h
  known name id h := by
    rcases h with h | h | ⟨r, q, p, h, -⟩
    · exact inv.known name id (Or.inl h)
    · simp [State.restart, RepoInterner.withCapacity] at h
    · simp [State.restart] at h
  issued := inv.issued
  plain r q p h := by simp [State.restart] at h

/-- The state names `id` by `name`: somewhere the name resolves to the id, or
the id to the name. -/
def State.Maps (s : State) (name : Text) (id : RepoId) : Prop :=
  s.Knows name id ∨ s.store.repoById id = some name

/-- Every id the state names was handed out, to that name, in strictly
increasing order and below the counter. -/
structure Issued (given : List (Text × RepoId)) (s : State) : Prop where
  coherent : Coherent s
  increasing : given.Pairwise fun x y => x.2 < y.2
  below : ∀ x ∈ given, x.2 < s.store.nextId
  bounded : ∀ x ∈ given, ¬ MAX_REPO_ID < x.2
  named : ∀ name id, s.Maps name id → (name, id) ∈ given
  dead : ∀ id, s.store.has (.deadRepo id) = true → ∃ name, (name, id) ∈ given

theorem issued_init (options : RegistryOptions) (entries : Nat) :
    Issued [] (State.init options entries) where
  coherent := coherent_init options entries
  increasing := List.Pairwise.nil
  below x h := by cases h
  bounded x h := by cases h
  named name id h := by
    rcases h with (h | h | ⟨r, q, p, h, -⟩) | h
    · simp [State.init, Store.repoByName] at h
    · simp [State.init, RepoInterner.withCapacity] at h
    · simp [State.init] at h
    · simp [State.init, Store.repoById] at h
  dead id h := by
    simp [State.init, Store.has] at h

section
variable {given : List (Text × RepoId)} {s t : State} {e : Event}

/-- What a step maps was mapped before, or is what the step allocates. -/
theorem Issued.maps (inv : Issued given s) (hs : live s e = some t) {name : Text} {id : RepoId}
    (h : t.Maps name id) : (name, id) ∈ given ∨ allocation s e = some (name, id) := by
  cases e with
  | restart entries =>
    cases hs
    left
    rcases h with (h | h | ⟨r, q, p, h, -⟩) | h
    · exact inv.named name id (Or.inl (Or.inl h))
    · simp [State.restart, RepoInterner.withCapacity] at h
    · simp [State.restart] at h
    · exact inv.named name id (Or.inr h)
  | act a =>
    rcases step_cases hs with ⟨q, rfl, -, rfl⟩ | ⟨r, q, p, p', u, rfl, at_, moves, rfl⟩
    · exact Or.inl (inv.named name id (h.imp_left knows_arrive))
    · rcases h with h | h
      · rcases moves.knows at_ h with known | stored | ⟨allocates, rfl⟩
        · exact Or.inl (inv.named name id (Or.inl known))
        · exact Or.inl (inv.named name id (Or.inr stored))
        · exact Or.inr (allocation_of_allocates allocates at_)
      · rcases moves.repoById h with stored | ⟨allocates, rfl⟩
        · exact Or.inl (inv.named name id (Or.inr stored))
        · exact Or.inr (allocation_of_allocates allocates at_)

theorem Issued.died (inv : Issued given s) (hs : live s e = some t) {id : RepoId}
    (h : t.store.has (.deadRepo id) = true) : ∃ name, (name, id) ∈ given := by
  cases e with
  | restart entries =>
    cases hs
    exact inv.dead id h
  | act a =>
    rcases step_cases hs with ⟨q, rfl, -, rfl⟩ | ⟨r, q, p, p', u, rfl, at_, moves, rfl⟩
    · exact inv.dead id h
    · rcases moves.died h with dead | ⟨name, named, hid⟩
      · exact inv.dead id dead
      · exact ⟨name, inv.named name id (Or.inl (Or.inr (Or.inr ⟨r, q, p, at_, Or.inl ⟨named, hid⟩⟩)))⟩

/-- A step leaves the counter above what it was above. -/
theorem Issued.counter (inv : Issued given s) (hs : live s e = some t) {id : RepoId}
    (h : id < s.store.nextId) : id < t.store.nextId := by
  cases e with
  | restart entries =>
    cases hs
    exact h
  | act a =>
    rcases step_cases hs with ⟨q, rfl, -, rfl⟩ | ⟨r, q, p, p', u, rfl, at_, moves, rfl⟩
    · exact h
    · exact inv.coherent.nextId_mono moves at_ h

theorem Issued.step (inv : Issued given s) (hs : live s e = some t) :
    Issued (given ++ (allocation s e).toList) t where
  coherent := by
    cases e with
    | restart entries =>
      cases hs
      exact inv.coherent.restart entries
    | act a => exact coherent_step inv.coherent hs
  increasing := by
    refine List.pairwise_append.mpr ⟨inv.increasing, ?_, ?_⟩
    · cases allocation s e with
      | none => exact List.Pairwise.nil
      | some x => exact List.pairwise_singleton _ x
    · intro x hx y hy
      have alloc : allocation s e = some y := Option.mem_toList.mp hy
      rw [(of_allocation alloc hs).1]
      exact inv.below x hx
  below x hx := by
    rcases List.mem_append.mp hx with hx | hx
    · exact inv.counter hs (inv.below x hx)
    · obtain ⟨-, room, next⟩ := of_allocation (Option.mem_toList.mp hx) hs
      rw [next]
      exact (succ_of_room room).2.1
  bounded x hx := by
    rcases List.mem_append.mp hx with hx | hx
    · exact inv.bounded x hx
    · exact (of_allocation (Option.mem_toList.mp hx) hs).2.1
  named name id h := by
    rcases inv.maps hs h with old | new
    · exact List.mem_append_left _ old
    · exact List.mem_append_right _ (Option.mem_toList.mpr new)
  dead id h := by
    obtain ⟨name, mem⟩ := inv.died hs h
    exact ⟨name, List.mem_append_left _ mem⟩

end

theorem issued_run (options : RegistryOptions) (entries : Nat) {events : List Event} {s : State}
    (run : Transition.exec live (.init options entries) events = some s) :
    Issued (allocations (.init options entries) events) s := by
  refine Transition.exec_history
    (H := fun es t => Issued (allocations (.init options entries) es) t)
    (issued_init options entries) ?_ run
  intro es t e u before inv hs
  rw [allocations_concat before]
  exact inv.step hs

/-- Whatever is deleted, retired, swept and restarted, ids are handed out in
strictly increasing order and never past the last one: a name in use and a dead
repository have an id that was handed out, which the counter's key is not, and
an allocation fails once the counter has reached its own key. -/
theorem ids_never_reused (options : RegistryOptions) (entries : Nat) {events : List Event}
    {s : State} (run : Transition.exec live (.init options entries) events = some s) :
    (allocations (.init options entries) events).Pairwise (fun x y => x.2 < y.2) ∧
      (∀ x ∈ allocations (.init options entries) events, x.2 ≤ MAX_REPO_ID) ∧
      (∀ name id, s.Maps name id → (name, id) ∈ allocations (.init options entries) events ∧
        Key.repoById id ≠ .repoById NEXT_ID_KEY_ID) ∧
      (∀ id, s.store.has (.deadRepo id) = true →
        (∃ name, (name, id) ∈ allocations (.init options entries) events) ∧
          Key.repoById id ≠ .repoById NEXT_ID_KEY_ID) ∧
      ∀ (r : Nat) (q : Request) (name : Text), s.requests[r]? = some (q, .allocate) →
        q.name = some name → MAX_REPO_ID < s.store.nextId →
        live s (.act (.advance r)) = some ((s.unlock true).goto r q (.returned none)) := by
  have inv := issued_run options entries run
  have key : ∀ x ∈ allocations (.init options entries) events,
      Key.repoById x.2 ≠ .repoById NEXT_ID_KEY_ID := by
    intro x hx same
    exact ne_nextId_key (inv.below x hx) (Key.repoById.inj same)
  refine ⟨inv.increasing, ?_, ?_, ?_, ?_⟩
  · intro x hx
    exact UInt32.not_lt.mp (inv.bounded x hx)
  · intro name id h
    have given := inv.named name id h
    exact ⟨given, key _ given⟩
  · intro id h
    obtain ⟨name, given⟩ := inv.dead id h
    exact ⟨⟨name, given⟩, key _ given⟩
  · intro r q name at_ named full
    exact exhausted_step at_ named full

/-- A name interned, deleted, and interned again after a restart. -/
def twoLives : List Event :=
  (internNew 0 ++ resolveDelete 1 ++ [Action.advance 1, Action.advance 1]).map Event.act ++
    .restart 1 :: (internNew 0).map .act

theorem ids_never_reused_restarted :
    ∃ s, Transition.exec live (.init {} 100) twoLives = some s ∧
      (allocations (.init {} 100) twoLives).Pairwise fun x y => x.2 < y.2 := by
  have finished : (Transition.exec live (.init {} 100) twoLives).isSome = true := by
    decide +kernel
  obtain ⟨s, run⟩ := Option.isSome_iff_exists.mp finished
  exact ⟨s, run, (ids_never_reused {} 100 run).1⟩

end Names

end Summ
