import Summ.Names.Steps

/-!
# The name maps, and whose data there is

`Mapped` says that the name and id records are inverse to each other, and that
what is stored under an id belongs to a repository that is live or being swept.
It survives every step whose request still finds what it resolved (`Current`):
a removal unmaps by name, and would unmap a newer life of it.
-/

namespace Summ

/-- The repository a manifest, tag or membership key is under. -/
def Key.dataOf : Key → Option RepoId
  | .manifest repo _ | .tag repo _ | .repoBlob repo _ => some repo
  | _ => none

namespace Store

variable {s : Store}

/-- A manifest, a tag or a membership is stored under the id. -/
def holdsData (s : Store) (id : RepoId) : Bool :=
  s.existsPrefix (.manifestsInRepo id) || s.existsPrefix (.tagsInRepo id) ||
    s.existsPrefix (.blobsInRepo id)

/-- The id is live, or dead and not swept yet. -/
def Owned (s : Store) (id : RepoId) : Prop :=
  (s.repoById id).isSome = true ∨ s.has (.deadRepo id) = true

instance (s : Store) (id : RepoId) : Decidable (s.Owned id) :=
  inferInstanceAs (Decidable (_ ∨ _))

theorem holdsData_iff {id : RepoId} :
    s.holdsData id = true ↔ ∃ k, k.dataOf = some id ∧ s.has k = true := by
  simp only [holdsData, Bool.or_eq_true, existsPrefix_iff, has, Option.isSome_iff_exists]
  constructor
  · rintro ((⟨k, v, hk, hv⟩ | ⟨k, v, hk, hv⟩) | ⟨k, v, hk, hv⟩) <;>
      refine ⟨k, ?_, v, hv⟩ <;> cases k <;> simp_all [Scan.covers, Key.dataOf]
  · rintro ⟨k, hk, v, hv⟩
    cases k <;> cases hk
    · exact Or.inl (Or.inl ⟨_, v, by simp [Scan.covers], hv⟩)
    · exact Or.inl (Or.inr ⟨_, v, by simp [Scan.covers], hv⟩)
    · exact Or.inr ⟨_, v, by simp [Scan.covers], hv⟩

/-- A push writes data under its own repository only. -/
theorem pushBatch_data {repo : RepoId} {c : CheckedPut} {ts : List Tag} {k : Key} {id : RepoId}
    (hk : k.dataOf = some id) (hne : repo ≠ id) :
    WriteBatch.effect (s.pushBatch repo c ts) k = none := by
  cases k <;> cases hk
  · rw [pushBatch_manifest, if_neg fun h => hne h.1]
  · rw [pushBatch_tag, if_neg fun h => hne h.1]
  · rw [pushBatch_blobs rfl]
    apply WriteBatch.effect_flatMap_none
    intro desc _
    unfold blobOps
    simp only [WriteBatch.effect_append]
    split <;> split <;> simp [MetaOp.effect, MetaOp.set, hne]

theorem pushBatch_deadRepo {repo : RepoId} {c : CheckedPut} {ts : List Tag} (id : RepoId) :
    WriteBatch.effect (s.pushBatch repo c ts) (.deadRepo id) = none := by
  have record : WriteBatch.effect (recordOps repo c) (.deadRepo id) = none := by
    unfold recordOps
    cases c.parsed.subject <;> simp [MetaOp.effect]
  rw [pushBatch_records rfl, pushTags_other rfl, record, if_neg (by simp)]
  rfl

theorem sweepFinishBatch_data {repo id : RepoId} {k : Key}
    (hk : k.dataOf = some id ∨ k = .deadRepo id) :
    WriteBatch.effect (sweepFinishBatch repo) k = if repo = id then some none else none := by
  by_cases hr : repo = id
  · subst hr
    rcases hk with hk | rfl
    · cases k <;> cases hk <;> simp [sweepFinishBatch, MetaOp.effect, Scan.covers]
    · simp [sweepFinishBatch, MetaOp.effect]
  · rcases hk with hk | rfl
    · cases k <;> cases hk <;> simp [sweepFinishBatch, MetaOp.effect, Scan.covers, hr]
    · simp [sweepFinishBatch, MetaOp.effect, Scan.covers, hr]

end Store

namespace Names

/-- A removal finds its name unmapped or still mapped to the id it resolved, a
retirement finds the id still without data, and a push still finds its id live
or not swept yet. -/
def Current (s : State) : Action → Prop
  | .arrive _ => True
  | .advance r => ∀ x ∈ s.requests[r]?,
    (∀ e ∈ unmaps x.1 x.2, s.store.repoByName e.1 = none ∨ s.store.repoByName e.1 = some e.2) ∧
    (x.2.checkedId.all fun id => !s.store.holdsData id || s.store.has (.deadRepo id)) = true ∧
    ∀ plan ∈ x.2.plan, s.store.Owned plan.repo

instance (s : State) : (a : Action) → Decidable (Current s a)
  | .arrive _ => isTrue trivial
  | .advance r => inferInstanceAs (Decidable (∀ x ∈ s.requests[r]?, _ ∧ _))

/-- The name maps are inverse, and whatever is stored is some repository's. -/
structure Mapped (s : State) : Prop extends Coherent s where
  inverse : ∀ name id, s.store.repoByName name = some id ↔ s.store.repoById id = some name
  owned : ∀ k id, k.dataOf = some id → s.store.has k = true → s.store.Owned id

theorem mapped_init (options : RegistryOptions) (entries : Nat) :
    Mapped (State.init options entries) where
  toCoherent := coherent_init options entries
  inverse name id := by simp [State.init, Store.repoByName, Store.repoById]
  owned k id hk h := by simp [State.init, Store.has] at h

section Step
variable {s u : State} {r : Nat} {q : Request} {p p' : Progress}

theorem Mapped.inverse_step (inv : Mapped s) (moves : Moves s r q p p' u)
    (at_ : s.requests[r]? = some (q, p)) (current : ∀ e ∈ unmaps q p,
      s.store.repoByName e.1 = none ∨ s.store.repoByName e.1 = some e.2) (n : Text) (k : RepoId) :
    u.store.repoByName n = some k ↔ u.store.repoById k = some n := by
  have old := inv.inverse n k
  rcases moves.names with same | ⟨name, allocates⟩ | ⟨name, id, unmaps, -, unmapped⟩
  · rw [same.repoByName, same.repoById, old]
  · have free := inv.unmapped r q name (allocates.allocating ▸ at_) allocates.named
    have fresh (x : Text) : s.store.repoById s.store.nextId ≠ some x := fun h =>
      UInt32.lt_irrefl _ (inv.issued _ x h)
    have last : s.store.repoByName n ≠ some NEXT_ID_KEY_ID := fun h =>
      ne_nextId_key (inv.known n _ (Or.inl h)).1 rfl
    obtain ⟨room, -⟩ := succ_of_room allocates.room
    rw [allocates.store, Store.internBatch_repoByName, Store.internBatch_repoById _ room]
    by_cases hn : n = name
    · subst hn
      by_cases hk : k = s.store.nextId
      · subst hk
        simp [room]
      · have : s.store.repoById k ≠ some n := fun h => by simp [free] at old; exact old h
        by_cases hlast : k = NEXT_ID_KEY_ID <;> simp [hk, hlast, this, Ne.symm hk, room]
    · by_cases hk : k = s.store.nextId
      · subst hk
        have : s.store.repoByName n ≠ some s.store.nextId := fun h => fresh n (old.mp h)
        simp [hn, room, this, Ne.symm hn]
      · by_cases hlast : k = NEXT_ID_KEY_ID
        · subst hlast
          simp [hn, last]
        · simp [hn, hk, hlast, old]
  · have resolved := of_unmaps unmaps
    have only := (inv.of_holds at_ (name_of_removed resolved.1) resolved.2).2
    rw [unmapped.repoByName, unmapped.repoById]
    by_cases hn : n = name
    · subst hn
      by_cases hk : k = id
      · simp [hk]
      · have : s.store.repoById k ≠ some n := by
          intro h
          rcases current _ unmaps with none | same
          · cases none.symm.trans (old.mpr h)
          · exact hk (Option.some.inj ((old.mpr h).symm.trans same))
        simp [hk, this]
    · by_cases hk : k = id
      · subst hk
        have : s.store.repoByName n ≠ some k := fun h => hn (only n (old.mp h))
        simp [hn, this]
      · simp [hn, hk, old]

/-- Data is written by a push under the repository it resolved, and by nothing
else; the end of a sweep removes it. -/
theorem Moves.data (moves : Moves s r q p p' u) {k : Key} {id : RepoId}
    (hk : k.dataOf = some id) (h : u.store.has k = true) :
    (∃ plan, p = .planned plan ∧ plan.repo = id) ∨
      s.store.has k = true ∧ (p = .swept → q ≠ .sweep id) := by
  cases moves with
  | allocated _ _ | tombstoned _ | retired _ =>
    refine Or.inr ⟨?_, nofun⟩
    rw [← h]
    refine (Store.has_apply_of_effect ?_).symm
    cases k <;> cases hk <;> rfl
  | @pushed _ _ plan _ =>
    by_cases hr : plan.repo = id
    · exact Or.inl ⟨plan, rfl, hr⟩
    · refine Or.inr ⟨?_, nofun⟩
      obtain ⟨s₀, ts, hbatch⟩ := plan.planned
      rw [← h]
      refine (Store.has_apply_of_effect ?_).symm
      rw [hbatch, Store.pushBatch_data hk hr]
  | retracted _ =>
    refine Or.inr ⟨?_, nofun⟩
    rw [← h]
    refine (Store.has_apply_of_effect (Store.sweepRefsBatch_other ?_)).symm
    rintro b r m rfl
    cases hk
  | @finished id' sweeps =>
    have swept : WriteBatch.effect (sweepFinishBatch id') k = if id' = id then some none else none :=
      Store.sweepFinishBatch_data (Or.inl hk)
    have h : (s.store.apply (sweepFinishBatch id')).has k = true := h
    rw [Store.has_apply, swept] at h
    by_cases hid : id' = id
    · rw [if_pos hid] at h
      cases h
    · rw [if_neg hid] at h
      refine Or.inr ⟨h, fun _ hq => hid ?_⟩
      cases sweeps.symm.trans hq
      rfl
  | _ => exact Or.inr ⟨h, nofun⟩

/-- The record of a dead repository stays until its sweep ends. -/
theorem Moves.dead (moves : Moves s r q p p' u) {id : RepoId}
    (h : s.store.has (.deadRepo id) = true) :
    u.store.has (.deadRepo id) = true ∨ p = .swept ∧ q = .sweep id := by
  cases moves with
  | allocated _ _ | retired _ => exact Or.inl ((Store.has_apply_of_effect rfl).trans h)
  | @tombstoned name now id' _ =>
    refine Or.inl ((Store.has_apply ..).trans ?_)
    by_cases hid : id' = id
    · simp [Store.tombstoneBatch, MetaOp.effect, hid]
    · simp [Store.tombstoneBatch, MetaOp.effect, hid, h]
  | @pushed _ _ plan _ =>
    obtain ⟨s₀, ts, hbatch⟩ := plan.planned
    refine Or.inl ((Store.has_apply_of_effect ?_).trans h)
    rw [hbatch, Store.pushBatch_deadRepo]
  | retracted _ =>
    refine Or.inl ((Store.has_apply_of_effect (Store.sweepRefsBatch_other ?_)).trans h)
    rintro b r m ⟨⟩
  | @finished id' sweeps =>
    by_cases hid : id' = id
    · exact Or.inr ⟨rfl, hid ▸ sweeps⟩
    · refine Or.inl ((Store.has_apply_of_effect ?_).trans h)
      rw [Store.sweepFinishBatch_data (Or.inr rfl), if_neg hid]
  | _ => exact Or.inl h

/-- A removal that is no retirement leaves the record of a dead repository. -/
theorem Moves.buried {id : RepoId} (moves : Moves s r q p (.applied id) u) :
    u.store.has (.deadRepo id) = true ∨ p = .checked id := by
  generalize hp : Progress.applied id = p' at moves
  cases moves with
  | tombstoned _ =>
    cases hp
    refine Or.inl ((Store.has_apply ..).trans ?_)
    simp [Store.tombstoneBatch, MetaOp.effect]
  | retired _ =>
    cases hp
    exact Or.inr rfl
  | hit _ _ | absent _ _ | remembered _ => cases q <;> cases hp
  | @retracted _ page _ => cases hn : page.next <;> rw [hn] at hp <;> cases hp
  | _ => cases hp

/-- Who owns an id: a retirement and the end of a sweep give it up. -/
theorem Coherent.owned (inv : Coherent s) (moves : Moves s r q p p' u) {id : RepoId}
    (h : s.store.Owned id) :
    u.store.Owned id ∨ p = .checked id ∧ s.store.has (.deadRepo id) = false ∨
      p = .swept ∧ q = .sweep id := by
  cases dead : s.store.has (.deadRepo id) with
  | true => exact (moves.dead dead).imp Or.inr Or.inr
  | false =>
    obtain ⟨x, live⟩ := Option.isSome_iff_exists.mp (h.resolve_right (by simp [dead]))
    rcases moves.names with same | ⟨name, allocates⟩ | ⟨name, id', -, rfl, unmapped⟩
    · exact Or.inl (Or.inl (by rw [same.repoById, live]; rfl))
    · refine Or.inl (Or.inl ?_)
      obtain ⟨room, -⟩ := succ_of_room allocates.room
      rw [allocates.store, Store.internBatch_repoById _ room,
        if_neg (ne_nextId_key (inv.issued id x live))]
      split
      · rfl
      · rw [live]
        rfl
    · by_cases hid : id = id'
      · subst hid
        rcases moves.buried with dead | hp
        · exact Or.inl (Or.inr dead)
        · exact Or.inr (Or.inl ⟨hp, rfl⟩)
      · exact Or.inl (Or.inl (by rw [unmapped.repoById, if_neg hid, live]; rfl))

theorem Mapped.advance (inv : Mapped s) (moves : Moves s r q p p' u)
    (at_ : s.requests[r]? = some (q, p)) (current : Current s (.advance r)) :
    Mapped (u.goto r q p') where
  toCoherent := inv.toCoherent.advance moves at_
  inverse n k := inv.inverse_step moves at_ (current (q, p) at_).1 n k
  owned k id hk h := by
    obtain ⟨-, checked, planned⟩ := current (q, p) at_
    have owned : s.store.Owned id := by
      rcases moves.data hk h with ⟨plan, rfl, rfl⟩ | ⟨h, -⟩
      · exact planned plan rfl
      · exact inv.owned k id hk h
    rcases inv.toCoherent.owned moves owned with owned | ⟨rfl, undead⟩ | ⟨rfl, sweeps⟩
    · exact owned
    · -- a retirement of an id that holds data would have found it
      rcases moves.data hk h with ⟨plan, hp, -⟩ | ⟨h, -⟩
      · cases hp
      · simp [Progress.checkedId, Store.holdsData_iff.mpr ⟨k, hk, h⟩, undead] at checked
    · rcases moves.data hk h with ⟨plan, hp, -⟩ | ⟨-, kept⟩
      · cases hp
      · exact absurd sweeps (kept rfl)

end Step

theorem mapped_step (s : State) (a : Action) (t : State) (inv : Mapped s) (current : Current s a)
    (h : step s a = some t) : Mapped t := by
  rcases step_cases h with ⟨q, rfl, -, rfl⟩ | ⟨r, q, p, p', u, rfl, at_, moves, rfl⟩
  · exact ⟨inv.toCoherent.arrive q, inv.inverse, inv.owned⟩
  · exact inv.advance moves at_ current

/-! ## Whole runs -/

/-- The name maps are inverse, and every id with data is live in both of them or
has a record to sweep it by. -/
structure MapsConsistent (s : Store) : Prop where
  inverse : ∀ name id, s.repoByName name = some id ↔ s.repoById id = some name
  owned : ∀ k id, k.dataOf = some id → s.has k = true →
    (∃ name, s.repoByName name = some id ∧ s.repoById id = some name) ∨
      s.has (.deadRepo id) = true

/-- As long as removals, retirements and pushes still find what they resolved
when they apply their batches, the maps are consistent in every state. -/
theorem maps_consistent (options : RegistryOptions) (entries : Nat) {actions : List Action}
    {s : State} (current : Transition.Meets step Current (.init options entries) actions)
    (run : Transition.exec step (.init options entries) actions = some s) :
    MapsConsistent s.store := by
  have inv : Mapped s :=
    Transition.exec_invariant mapped_step (mapped_init options entries) current run
  refine ⟨inv.inverse, fun k id hk h => ?_⟩
  rcases inv.owned k id hk h with live | dead
  · obtain ⟨name, live⟩ := Option.isSome_iff_exists.mp live
    exact Or.inl ⟨name, (inv.inverse name id).mpr live, live⟩
  · exact Or.inr dead

/-- The steps of an intern that allocates. -/
def internNew (r : Nat) : List Action :=
  .arrive (.intern "app".toList) :: List.replicate 7 (.advance r)

/-- A deletion that finds the name in the cache, up to its batch. -/
def resolveDelete (r : Nat) : List Action :=
  [.arrive (.deleteRepository "app".toList (.fromSecs 1)), .advance r]

/-- Two deletions of `app` one after another, an intern between them. -/
theorem maps_consistent_deleted_twice :
    ∃ s, Transition.exec step (.init {} 100) (internNew 0 ++ resolveDelete 1 ++
        [Action.advance 1, Action.advance 1] ++ internNew 2 ++ resolveDelete 3 ++
        [Action.advance 3, Action.advance 3]) = some s ∧ MapsConsistent s.store := by
  have current : Transition.Meets step Current (.init {} 100) (internNew 0 ++ resolveDelete 1 ++
      [Action.advance 1, Action.advance 1] ++ internNew 2 ++ resolveDelete 3 ++
      [Action.advance 3, Action.advance 3]) := by
    decide +kernel
  have finished : (Transition.exec step (.init {} 100) (internNew 0 ++ resolveDelete 1 ++
      [Action.advance 1, Action.advance 1] ++ internNew 2 ++ resolveDelete 3 ++
      [Action.advance 3, Action.advance 3])).isSome = true := by decide +kernel
  obtain ⟨s, run⟩ := Option.isSome_iff_exists.mp finished
  exact ⟨s, run, maps_consistent {} 100 current run⟩

/-- Both deletions resolve the first id of `app`; one of them applies after the
name has been interned again, and unmaps the new id's name. -/
theorem late_delete_unmaps_new_life :
    ¬ ∀ (options : RegistryOptions) (entries : Nat) (actions : List Action) (s : State),
      Transition.exec step (.init options entries) actions = some s →
      s.Quiescent → MapsConsistent s.store := by
  intro consistent
  have facts : (Transition.exec step (.init {} 100) (internNew 0 ++ resolveDelete 1 ++
      resolveDelete 2 ++ [Action.advance 1, Action.advance 1] ++ internNew 3 ++
      [Action.advance 2, Action.advance 2])).map (fun s =>
        decide (s.Quiescent ∧ s.store.repoByName "app".toList = none ∧
          s.store.repoById 1 = some "app".toList)) = some true := by
    decide +kernel
  obtain ⟨s, run, facts⟩ := Option.map_eq_some_iff.mp facts
  obtain ⟨quiescent, unmapped, live⟩ := of_decide_eq_true facts
  have mapped := ((consistent {} 100 _ s run quiescent).inverse "app".toList 1).mpr live
  cases unmapped.symm.trans mapped

end Names

end Summ
