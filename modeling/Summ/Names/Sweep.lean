import Summ.Meta.Cursor
import Summ.Names.Maps

/-!
# A swept repository leaves no references

The references a sweep still has to retract are those of the manifests after
its cursor (`Ahead`). That survives every step as long as no push writes a
reference behind the cursor of a sweep of its repository (`Unswept`); at the
end of a sweep there is nothing ahead.
-/

namespace Summ

/-- The operation writes a blob reference. -/
def MetaOp.refers : MetaOp → Bool
  | .put (.blobRef ..) _ _ => true
  | _ => false

theorem WriteBatch.refers_of_effect {batch : WriteBatch} {b m : Digest} {r : RepoId} {v : Value}
    (h : WriteBatch.effect batch (.blobRef b r m) = some (some v)) :
    batch.any MetaOp.refers = true := by
  obtain ⟨op, hop, hv⟩ := WriteBatch.exists_of_effect h
  refine List.any_eq_true.mpr ⟨op, hop, ?_⟩
  cases op with
  | put key value fits =>
    rw [MetaOp.effect] at hv
    split at hv
    · rename_i hk
      subst hk
      rfl
    · cases hv
  | delete key =>
    rw [MetaOp.effect] at hv
    split at hv <;> cases hv
  | deletePrefix pre =>
    rw [MetaOp.effect] at hv
    split at hv <;> cases hv

theorem Store.sweepRefs_has {s : Store} {repo id : RepoId} {entries : List (Key × Value)}
    {b m : Digest} (h : (s.apply (sweepRefsBatch repo entries)).has (.blobRef b id m) = true) :
    s.has (.blobRef b id m) = true ∧ ∀ (k : Key) (record : ManifestRecord), repo = id →
      (k, .manifest record) ∈ entries → record.digest = m → b ∉ record.layers := by
  have deletes : ∀ op ∈ sweepRefsBatch repo entries, op.effect (.blobRef b id m) ≠ none →
      op.effect (.blobRef b id m) = some none := by
    intro op hop touched
    obtain ⟨⟨k, v⟩, -, hop⟩ := List.mem_flatMap.mp hop
    cases v with
    | manifest record =>
      obtain ⟨blob, -, rfl⟩ := List.mem_map.mp hop
      simp only [MetaOp.effect] at touched ⊢
      split at touched
      · rename_i hk
        rw [if_pos hk]
      · exact absurd rfl touched
    | _ => cases hop
  rw [has_apply, WriteBatch.effect_of_deletes deletes] at h
  split at h
  · cases h
  · rename_i untouched
    refine ⟨h, ?_⟩
    rintro k record rfl listed rfl hb
    apply untouched
    refine ⟨.delete (.blobRef b repo record.digest), List.mem_flatMap.mpr ⟨_, listed, ?_⟩, ?_⟩
    · exact List.mem_map.mpr ⟨b, hb, rfl⟩
    · exact if_pos rfl

namespace Names

def Request.swept : Request → Option RepoId
  | sweep id => some id
  | _ => none

/-- The sweep's steps still to come will not read the manifest key. -/
def Progress.passed (k : Key) : Progress → Bool
  | .sweeping cursor => cursor.any fun c => decide (k ≤ c)
  | .scanned page => page.next.all fun n => decide (k ≤ n)
  | .swept | .returned _ => true
  | _ => false

/-- A sweep of the repository has gone past the manifest key, or has ended. -/
def State.Passed (s : State) (id : RepoId) (k : Key) : Prop :=
  ∃ x ∈ s.requests, x.1.swept = some id ∧ x.2.passed k = true

instance (s : State) (id : RepoId) (k : Key) : Decidable (s.Passed id k) :=
  inferInstanceAs (Decidable (∃ x ∈ s.requests, _))

/-- A push that applies writes no reference where a sweep has gone past, and
lists the layers of the manifest stored under its digest, if one is. -/
def Unswept (s : State) : Action → Prop
  | .arrive _ => True
  | .advance r => ∀ x ∈ s.requests[r]?, ∀ plan ∈ x.2.plan,
    (plan.batch.any MetaOp.refers = true →
      ¬ s.Passed plan.repo (.manifest plan.repo plan.put.digest)) ∧
    ∀ record ∈ s.store.manifestRecord plan.repo plan.put.digest, ∀ b ∈ record.layers,
      b ∈ plan.put.parsed.blobs.map BlobDesc.digest

instance (s : State) : (a : Action) → Decidable (Unswept s a)
  | .arrive _ => isTrue trivial
  | .advance r => inferInstanceAs (Decidable (∀ x ∈ s.requests[r]?, ∀ plan ∈ x.2.plan, _ ∧ _))

/-! ## What a step does to manifests and references -/

section Moves
variable {s u : State} {r : Nat} {q : Request} {p p' : Progress}

/-- A reference is written by a push, for a blob its manifest lists. -/
theorem Moves.refs (moves : Moves s r q p p' u) {b m : Digest} {id : RepoId}
    (h : u.store.has (.blobRef b id m) = true) :
    s.store.has (.blobRef b id m) = true ∨
      ∃ plan, p = .planned plan ∧ plan.repo = id ∧ plan.put.digest = m ∧
        b ∈ plan.put.parsed.blobs.map BlobDesc.digest ∧ plan.batch.any MetaOp.refers = true := by
  cases moves with
  | allocated _ _ | tombstoned _ | retired _ | finished _ =>
    exact Or.inl ((Store.has_apply_of_effect rfl).symm.trans h)
  | @pushed _ _ plan _ =>
    obtain ⟨s₀, ts, hbatch⟩ := plan.planned
    have effect : WriteBatch.effect (s₀.pushBatch plan.repo plan.put ts) (.blobRef b id m) = _ :=
      Store.pushBatch_blobRef b id m
    rw [← hbatch] at effect
    split at effect
    · rename_i written
      obtain ⟨hr, hm, desc, hdesc, rfl⟩ := written
      refine Or.inr ⟨plan, rfl, hr, hm, ?_, WriteBatch.refers_of_effect effect⟩
      exact List.mem_map.mpr ⟨desc, (List.mem_filter.mp hdesc).1, rfl⟩
    · exact Or.inl ((Store.has_apply_of_effect effect).symm.trans h)
  | retracted _ => exact Or.inl (Store.sweepRefs_has h).1
  | _ => exact Or.inl h

theorem Moves.record_of_push {plan : PushPlan} (moves : Moves s r q (.planned plan) p' u) :
    u.store.manifestRecord plan.repo plan.put.digest = some (plan.put.record plan.repo) := by
  cases moves with
  | pushed _ =>
    obtain ⟨s₀, ts, hbatch⟩ := plan.planned
    refine Store.manifestRecord_eq_some.mpr ((Store.get_apply ..).trans ?_)
    rw [hbatch, Store.pushBatch_manifest, if_pos ⟨rfl, rfl⟩]
    rfl

/-- What a step may do to a manifest's record: a push replaces it, and the end
of its repository's sweep removes it. -/
theorem Moves.manifests (moves : Moves s r q p p' u) (id : RepoId) (m : Digest) :
    u.store.manifestRecord id m = s.store.manifestRecord id m ∨
      (∃ plan, p = .planned plan ∧ plan.repo = id ∧ plan.put.digest = m ∧
        u.store.manifestRecord id m = some (plan.put.record id)) ∨
      p = .swept ∧ q = .sweep id ∧ u.store.manifestRecord id m = none := by
  cases moves with
  | allocated _ _ | tombstoned _ | retired _ =>
    exact Or.inl (Store.manifestRecord_congr (Store.get_apply_of_effect rfl))
  | @pushed put extraTags plan pushes =>
    obtain ⟨s₀, ts, hbatch⟩ := plan.planned
    have effect : WriteBatch.effect (s₀.pushBatch plan.repo plan.put ts) (.manifest id m) = _ :=
      Store.pushBatch_manifest id m
    rw [← hbatch] at effect
    split at effect
    · rename_i written
      obtain ⟨rfl, rfl⟩ := written
      exact Or.inr (Or.inl ⟨plan, rfl, rfl, rfl, (Moves.pushed (s := s) (r := r) pushes).record_of_push⟩)
    · exact Or.inl (Store.manifestRecord_congr (Store.get_apply_of_effect effect))
  | retracted _ =>
    refine Or.inl (Store.manifestRecord_congr (Store.get_apply_of_effect ?_))
    apply Store.sweepRefsBatch_other
    rintro b r m ⟨⟩
  | @finished id' sweeps =>
    have effect : WriteBatch.effect (sweepFinishBatch id') (.manifest id m) = _ :=
      Store.sweepFinishBatch_data (Or.inl rfl)
    split at effect
    · rename_i hid
      subst hid
      refine Or.inr (Or.inr ⟨rfl, sweeps, ?_⟩)
      change (s.store.apply _).manifestRecord id' m = none
      rw [Store.manifestRecord, Store.get_apply, effect]
      rfl
    · exact Or.inl (Store.manifestRecord_congr (Store.get_apply_of_effect effect))
  | _ => exact Or.inl rfl

end Moves

/-! ## The invariant -/

/-- What a sweep of `id` still has to do about a reference that is there. -/
def Ahead (id : RepoId) (b m : Digest) : Progress → Prop
  | .scanned page => page.next.all (fun n => decide (.manifest id m ≤ n)) = true →
      ∃ record : ManifestRecord, (.manifest id m, .manifest record) ∈ page.entries ∧
        record.digest = m ∧ b ∈ record.layers
  | p => p.passed (.manifest id m) = false

theorem ahead_of_not_passed {id : RepoId} {b m : Digest} {p : Progress}
    (h : p.passed (.manifest id m) = false) : Ahead id b m p := by
  cases p with
  | scanned page =>
    intro all
    rw [Progress.passed, all] at h
    cases h
  | _ => exact h

/-- References are those of stored manifests, and a sweep has those of its
repository ahead of it. -/
structure Sweepable (s : State) : Prop where
  stored : ∀ b id m, s.store.has (.blobRef b id m) = true →
    ∃ record, s.store.manifestRecord id m = some record ∧ b ∈ record.layers
  digest : ∀ id m record, s.store.manifestRecord id m = some record → record.digest = m
  cursor : ∀ (r : Nat) (id : RepoId) (c : Key),
    s.requests[r]? = some (.sweep id, .sweeping (some c)) → (Scan.manifestsInRepo id).covers c = true
  next : ∀ (r : Nat) (id : RepoId) (page : Page Key Value) (n : Key),
    s.requests[r]? = some (.sweep id, .scanned page) → page.next = some n →
    (Scan.manifestsInRepo id).covers n = true
  ahead : ∀ (r : Nat) (id : RepoId) (p : Progress) (b m : Digest),
    s.requests[r]? = some (.sweep id, p) → s.store.has (.blobRef b id m) = true → Ahead id b m p

theorem sweepable_init (options : RegistryOptions) (entries : Nat) :
    Sweepable (State.init options entries) where
  stored b id m h := by simp [State.init, Store.has] at h
  digest id m record h := by simp [State.init, Store.manifestRecord] at h
  cursor r id c h := by simp [State.init] at h
  next r id page n h := by simp [State.init] at h
  ahead r id p b m h := by simp [State.init] at h

theorem Sweepable.arrive {s : State} (inv : Sweepable s) (q : Request) :
    Sweepable { s with requests := s.requests ++ [(q, q.start)] } where
  stored := inv.stored
  digest := inv.digest
  cursor r id c h := by
    rcases Pool.of_add h with ⟨-, hx⟩ | h
    · cases q <;> cases hx
    · exact inv.cursor r id c h
  next r id page n h := by
    rcases Pool.of_add h with ⟨-, hx⟩ | h
    · cases q <;> cases hx
    · exact inv.next r id page n h
  ahead r id p b m h href := by
    rcases Pool.of_add h with ⟨-, hx⟩ | h
    · cases q <;> cases hx
      exact rfl
    · exact inv.ahead r id p b m h href

section Step
variable {s u : State} {r : Nat} {q : Request} {p p' : Progress}

/-- At the end of a sweep no reference of its repository is left. -/
theorem Sweepable.none_left (inv : Sweepable s) {id : RepoId}
    (at_ : s.requests[r]? = some (.sweep id, p)) (ended : p = .swept ∨ p.isReturned = true)
    (b m : Digest) : s.store.has (.blobRef b id m) = false := by
  by_contra h
  have ahead := inv.ahead r id p b m at_ (by simpa using h)
  rcases ended with rfl | ended
  · cases ahead
  · cases p <;> cases ended
    cases ahead

/-- A reference that a step leaves is that of the manifest then stored. -/
theorem Sweepable.stored_step (inv : Sweepable s) (moves : Moves s r q p p' u)
    (at_ : s.requests[r]? = some (q, p)) (unswept : Unswept s (.advance r)) {b m : Digest}
    {id : RepoId} (h : u.store.has (.blobRef b id m) = true) :
    ∃ record, u.store.manifestRecord id m = some record ∧ b ∈ record.layers := by
  rcases moves.refs h with old | ⟨plan, rfl, rfl, rfl, listed, refers⟩
  · obtain ⟨record, stored, hb⟩ := inv.stored b id m old
    rcases moves.manifests id m with same | ⟨plan, rfl, rfl, rfl, pushed⟩ | ⟨rfl, rfl, -⟩
    · exact ⟨record, same.trans stored, hb⟩
    · exact ⟨_, pushed, (unswept _ at_ plan rfl).2 record stored b hb⟩
    · rw [inv.none_left at_ (Or.inl rfl)] at old
      cases old
  · exact ⟨_, moves.record_of_push, listed⟩

/-- The sweep that moves goes past what it retracted. -/
theorem Sweepable.ahead_step (inv : Sweepable s) {id : RepoId}
    (moves : Moves s r (.sweep id) p p' u) (at_ : s.requests[r]? = some (.sweep id, p))
    {b m : Digest} (h : u.store.has (.blobRef b id m) = true) : Ahead id b m p' := by
  generalize hq : Request.sweep id = q at moves
  cases moves with
  | @scanned id' cursor sweeps =>
    cases hq.trans sweeps
    intro reached
    obtain ⟨record, stored, hb⟩ := inv.stored b id m h
    have onward : ∀ c ∈ cursor, c < .manifest id m := by
      have ahead := inv.ahead r id _ b m at_ h
      intro c hc
      simpa [Ahead, Progress.passed, show cursor = some c from hc] using ahead
    refine ⟨record, ?_, inv.digest id m record stored, hb⟩
    apply Store.mem_scan_of_le
    · rintro c rfl
      exact inv.cursor r id c at_
    · decide
    · rintro ⟨k, v⟩ he
      cases cursor with
      | none => rfl
      | some c =>
        have whole : Scan.manifestsInRepo id ≠ .repoBlobs := by simp
        exact sees_of_paged rfl whole (inv.cursor r id c at_) (Store.mem_under.mp he).1
    · simp [Scan.covers]
    · exact onward
    · exact Store.manifestRecord_eq_some.mp stored
    · intro n hn
      rw [show (s.store.scan (.manifestsInRepo id) cursor SWEEP_STEP).next = some n from hn] at reached
      simpa using reached
  | @retracted id' page sweeps =>
    cases hq.trans sweeps
    obtain ⟨old, kept⟩ := Store.sweepRefs_has h
    have ahead := inv.ahead r id _ b m at_ old
    cases hn : page.next with
    | none =>
      obtain ⟨record, listed, hm, hb⟩ := ahead (by rw [hn]; rfl)
      exact absurd hb (kept _ record rfl listed hm)
    | some n =>
      by_cases reached : Key.manifest id m ≤ n
      · obtain ⟨record, listed, hm, hb⟩ := ahead (by rw [hn]; simpa using reached)
        exact absurd hb (kept _ record rfl listed hm)
      · simpa [Progress.afterPage, Ahead, Progress.passed] using reached
  | @finished id' sweeps =>
    cases hq.trans sweeps
    have old : s.store.has (.blobRef b id m) = true :=
      (Store.has_apply_of_effect rfl).symm.trans h
    rw [inv.none_left at_ (Or.inl rfl)] at old
    cases old
  | hit named _ | fetched named _ | absent named _ | remembered named | exhausted named
  | allocated named _ | declined named =>
    rw [← hq] at named
    cases named
  | tombstoned other | checked other _ _ | planned other _ _ | retired other | pushed other =>
    cases hq.trans other
  | forgot removes =>
    rw [← hq] at removes
    cases removes
  | _ => exact rfl

theorem Sweepable.advance (inv : Sweepable s) (moves : Moves s r q p p' u)
    (at_ : s.requests[r]? = some (q, p)) (unswept : Unswept s (.advance r)) :
    Sweepable (u.goto r q p') where
  stored b id m h := inv.stored_step moves at_ unswept h
  digest id m record h := by
    rcases moves.manifests id m with same | ⟨plan, -, -, hm, pushed⟩ | ⟨-, -, gone⟩
    · exact inv.digest id m record (same ▸ h)
    · cases pushed.symm.trans h
      exact hm
    · cases gone.symm.trans h
  cursor r' id c h := by
    rcases requests_goto at_ moves.requests h with ⟨rfl, rfl, hp⟩ | ⟨-, h⟩
    · generalize hq : Request.sweep id = q at moves
      cases moves with
      | @retracted id' page sweeps =>
        cases hq.trans sweeps
        cases hn : page.next with
        | none => rw [hn] at hp; cases hp
        | some n =>
          rw [hn] at hp
          cases hp
          exact inv.next r' id page c at_ hn
      | hit named _ | absent named _ | remembered named =>
        rw [← hq] at named
        cases named
      | _ => cases hp
    · exact inv.cursor r' id c h
  next r' id page n h hn := by
    rcases requests_goto at_ moves.requests h with ⟨rfl, rfl, hp⟩ | ⟨-, h⟩
    · generalize hq : Request.sweep id = q at moves
      cases moves with
      | @scanned id' cursor sweeps =>
        cases hq.trans sweeps
        cases hp
        refine Store.scan_next_covers ?_ (by decide) hn
        rintro c rfl
        exact inv.cursor r' id c at_
      | @retracted id' page' sweeps =>
        cases hn' : page'.next <;> rw [hn'] at hp <;> cases hp
      | hit named _ | absent named _ | remembered named =>
        rw [← hq] at named
        cases named
      | _ => cases hp
    · exact inv.next r' id page n h hn
  ahead r' id p'' b m h href := by
    rcases requests_goto at_ moves.requests h with ⟨rfl, rfl, rfl⟩ | ⟨hne, h⟩
    · exact inv.ahead_step moves at_ href
    · rcases moves.refs href with old | ⟨plan, rfl, rfl, rfl, -, refers⟩
      · exact inv.ahead r' id p'' b m h old
      · apply ahead_of_not_passed
        by_contra passed
        exact (unswept _ at_ plan rfl).1 refers
          ⟨_, List.mem_of_getElem? h, rfl, by simpa using passed⟩

end Step

theorem sweepable_step (s : State) (a : Action) (t : State) (inv : Sweepable s)
    (unswept : Unswept s a) (h : step s a = some t) : Sweepable t := by
  rcases step_cases h with ⟨q, rfl, -, rfl⟩ | ⟨r, q, p, p', u, rfl, at_, moves, rfl⟩
  · exact inv.arrive q
  · exact inv.advance moves at_ unswept

/-! ## Whole runs -/

/-- A repository whose sweep has ended is referred to by no blob, and a blob
that only such repositories referred to has no reference left. -/
structure SweepsFinal (s : State) : Prop where
  gone : ∀ x ∈ s.requests, ∀ id, x.1.swept = some id → x.2.isReturned = true → ∀ b m,
    s.store.has (.blobRef b id m) = false
  reclaimable : ∀ b, (∀ id m, s.store.has (.blobRef b id m) = true →
    ∃ x ∈ s.requests, x.1.swept = some id ∧ x.2.isReturned = true) →
    s.store.existsPrefix (.blobRefs b) = false

theorem Sweepable.final {s : State} (inv : Sweepable s) : SweepsFinal s := by
  have gone : ∀ x ∈ s.requests, ∀ id, x.1.swept = some id → x.2.isReturned = true → ∀ b m,
      s.store.has (.blobRef b id m) = false := by
    rintro ⟨q, p⟩ hx id sweeps returned b m
    obtain ⟨r, at_⟩ := List.mem_iff_getElem?.mp hx
    cases q <;> cases sweeps
    exact inv.none_left at_ (Or.inr returned) b m
  refine ⟨gone, fun b only => ?_⟩
  by_contra h
  obtain ⟨k, v, hk, hv⟩ := Store.existsPrefix_iff.mp (Bool.eq_true_of_not_eq_false h)
  obtain ⟨id, m, rfl⟩ : ∃ id m, k = .blobRef b id m := by
    cases k <;> simp_all [Scan.covers]
  have href : s.store.has (.blobRef b id m) = true := by rw [Store.has, hv]; rfl
  obtain ⟨x, hx, sweeps, returned⟩ := only id m href
  cases (gone x hx id sweeps returned b m).symm.trans href

/-- As long as no push writes references behind a sweep of its repository, no
reference outlives the sweep. -/
theorem sweeps_final (options : RegistryOptions) (entries : Nat) {actions : List Action}
    {s : State} (unswept : Transition.Meets step Unswept (.init options entries) actions)
    (run : Transition.exec step (.init options entries) actions = some s) : SweepsFinal s :=
  Sweepable.final
    (Transition.exec_invariant sweepable_step (sweepable_init options entries) unswept run)

/-- A push whose name is in the cache, up to its batch. -/
def planImage (r : Nat) : List Action :=
  [.arrive (.putManifest checkedImage []), .advance r, .advance r]

/-- The sweep of a repository with at most one page of manifests. -/
def sweepOnePage (r : Nat) : List Action :=
  [.arrive (.sweep 0), .advance r, .advance r, .advance r]

/-- An image pushed, its repository deleted and swept. -/
theorem sweeps_final_after_push :
    ∃ s, Transition.exec step (.init { validateReferences := false } 100) (internNew 0 ++
        planImage 1 ++ [Action.advance 1] ++ resolveDelete 2 ++
        [Action.advance 2, Action.advance 2] ++ sweepOnePage 3) = some s ∧ SweepsFinal s := by
  have unswept : Transition.Meets step Unswept (.init { validateReferences := false } 100)
      (internNew 0 ++ planImage 1 ++ [Action.advance 1] ++ resolveDelete 2 ++
        [Action.advance 2, Action.advance 2] ++ sweepOnePage 3) := by decide +kernel
  have finished : (Transition.exec step (.init { validateReferences := false } 100) (internNew 0 ++
      planImage 1 ++ [Action.advance 1] ++ resolveDelete 2 ++
      [Action.advance 2, Action.advance 2] ++ sweepOnePage 3)).isSome = true := by decide +kernel
  obtain ⟨s, run⟩ := Option.isSome_iff_exists.mp finished
  exact ⟨s, run, sweeps_final _ 100 unswept run⟩

/-- The push is planned before the deletion and applies after the sweep. -/
theorem late_push_leaks_reference :
    ¬ ∀ (options : RegistryOptions) (entries : Nat) (actions : List Action) (s : State),
      Transition.exec step (.init options entries) actions = some s → s.Quiescent →
      SweepsFinal s := by
  intro final
  have facts : (Transition.exec step (.init { validateReferences := false } 100) (internNew 0 ++
      planImage 1 ++ resolveDelete 2 ++ [Action.advance 2, Action.advance 2] ++ sweepOnePage 3 ++
      [Action.advance 1])).map (fun s => decide (s.Quiescent ∧
        (∃ x ∈ s.requests, x.1.swept = some 0 ∧ x.2.isReturned = true) ∧
        s.store.has (.blobRef emptyConfig 0 emptyImage.digest) = true)) = some true := by
    decide +kernel
  obtain ⟨s, run, facts⟩ := Option.map_eq_some_iff.mp facts
  obtain ⟨quiescent, ⟨x, hx, sweeps, returned⟩, leaked⟩ := of_decide_eq_true facts
  have gone := (final _ 100 _ s run quiescent).gone x hx 0 sweeps returned emptyConfig
    emptyImage.digest
  cases gone.symm.trans leaked

end Names

end Summ
