import Summ.Serial.Effects

/-!
# The names along a run of calls

Every call keeps the name maps inverse, the ids below the counter and the caches
right (`coherent_of_call`), so along a run each call has the `Effect` its name's
stored id gives it (`effect_of_call`).
-/

namespace Summ

/-! ## Names stay in order -/

namespace Store

variable {s t : Store}

theorem Interned.live {name : Text} {id : RepoId} (h : s.Interned name id t) :
    t.repoByName name = some id := by
  cases h with
  | known stored => exact stored
  | new absent room next => rw [internBatch_repoByName, if_pos rfl]

/-- An intern touches name and id records only. -/
theorem Interned.kept {name : Text} {id : RepoId} (h : s.Interned name id t) {k : Key}
    (hk : k.aboutNames = false) : t.get k = s.get k := by
  cases h with
  | known stored => rfl
  | new absent room next =>
    apply get_apply_of_effect
    cases k <;> first | rfl | cases hk

theorem Interned.has {name : Text} {id : RepoId} (h : s.Interned name id t) {k : Key}
    (hk : k.aboutNames = false) : t.has k = s.has k := by rw [Store.has, Store.has, h.kept hk]

/-- Nothing is in the way of a store that has the same names, no other dead
repositories, and nothing new but under issued ids. -/
theorem Named.of_same (named : s.Named) (names : s.SameNames t)
    (dead : ∀ id, t.has (.deadRepo id) = true → s.has (.deadRepo id) = true)
    (data : ∀ k id, k.repo = some id → t.has k = true → s.has k = true ∨ id < s.nextId) :
    t.Named where
  inverse name id := by rw [names.repoByName, names.repoById, named.inverse]
  issued name id h := by
    rw [names.repoByName] at h
    rw [names.nextId]
    exact named.issued name id h
  dead id h := by
    rw [names.nextId, names.repoById]
    exact named.dead id (dead id h)
  data k id hk h := by
    rw [names.nextId]
    rcases data k id hk h with old | issued
    · exact named.data k id hk old
    · exact issued

theorem Named.of_issued (named : s.Named) {id : RepoId} (issued : id < s.nextId)
    {batch : WriteBatch} (within : batch.Within id) : (s.apply batch).Named := by
  refine named.of_same (sameNames_within within) ?_ ?_
  · intro i h
    rwa [has_apply_of_effect (WriteBatch.effect_of_within within (by simp [Key.mayTouch, Key.repo]))]
      at h
  · intro k i hk h
    by_cases hi : i = id
    · exact Or.inr (hi ▸ issued)
    · rw [has_apply_of_effect (WriteBatch.effect_of_within within (Key.not_mayTouch hk hi))] at h
      exact Or.inl h

theorem Named.of_within (named : s.Named) {name : Text} {id : RepoId}
    (live : s.repoByName name = some id) {batch : WriteBatch} (within : batch.Within id) :
    (s.apply batch).Named := named.of_issued (named.issued name id live) within

/-- Where a batch only deletes there is nothing new. -/
theorem has_of_deletes {batch : WriteBatch} {k : Key}
    (deletes : ∀ v, WriteBatch.effect batch k ≠ some (some v)) (h : (s.apply batch).has k = true) :
    s.has k = true := by
  rw [has_apply] at h
  cases he : WriteBatch.effect batch k with
  | none => simpa [he] using h
  | some r =>
    cases r with
    | none => simp [he] at h
    | some v => exact absurd he (deletes v)

theorem Interned.named (named : s.Named) {name : Text} {id : RepoId} (h : s.Interned name id t) :
    t.Named := by
  cases h with
  | known stored => exact named
  | new absent room next =>
    subst next
    obtain ⟨ne, succ, later⟩ := Names.succ_of_room room
    have fresh (n : Text) : s.repoById s.nextId ≠ some n := fun h =>
      UInt32.lt_irrefl _ (named.issued n _ ((named.inverse n _).mpr h))
    constructor
    · intro n i
      rw [internBatch_repoByName, internBatch_repoById _ ne]
      by_cases hn : n = name
      · subst hn
        rw [if_pos rfl]
        by_cases hi : i = s.nextId
        · subst hi
          rw [if_neg ne, if_pos rfl]
          exact iff_of_true rfl rfl
        · have other : s.repoById i ≠ some n := fun h => by
            rw [← named.inverse, absent] at h
            cases h
          rw [if_neg hi]
          constructor
          · intro h
            exact absurd (Option.some.inj h).symm hi
          · intro h
            split at h
            · cases h
            · exact absurd h other
      · rw [if_neg hn, named.inverse]
        by_cases hi : i = s.nextId
        · subst hi
          rw [if_neg ne, if_pos rfl]
          constructor
          · intro h
            exact absurd h (fresh n)
          · intro h
            exact absurd (Option.some.inj h).symm hn
        · by_cases hlast : i = NEXT_ID_KEY_ID
          · rw [if_pos hlast]
            have : s.repoById i ≠ some n := fun h =>
              Names.ne_nextId_key (named.issued n i ((named.inverse n i).mpr h)) hlast
            simp [this]
          · rw [if_neg hlast, if_neg hi]
    · intro n i h
      rw [internBatch_repoByName] at h
      rw [internBatch_nextId]
      split at h
      · exact Option.some.inj h ▸ succ
      · exact later i (named.issued n i h)
    · intro i h
      have old : s.has (.deadRepo i) = true := by
        rwa [has_apply_of_effect (by rfl)] at h
      obtain ⟨issued, gone⟩ := named.dead i old
      have ne' : i ≠ s.nextId := fun h => UInt32.lt_irrefl _ (h ▸ issued)
      rw [internBatch_nextId, internBatch_repoById _ ne, if_neg ne', gone]
      exact ⟨later i issued, by simp⟩
    · intro k i hk h
      rw [internBatch_nextId]
      apply later i
      apply named.data k i hk
      rwa [has_apply_of_effect (by cases k <;> first | rfl | cases hk)] at h

theorem Named.unmapped (named : s.Named) {name : Text} {id : RepoId}
    (mapped : s.repoByName name = some id) (un : s.Unmapped name id t)
    (dead : ∀ i, t.has (.deadRepo i) = true → s.has (.deadRepo i) = true ∨ i = id)
    (data : ∀ k i, k.repo = some i → t.has k = s.has k) : t.Named := by
  have next : t.nextId = s.nextId := un.nextId (Names.ne_nextId_key (named.issued name id mapped))
  constructor
  · intro n i
    rw [un.repoByName, un.repoById]
    by_cases hn : n = name
    · subst hn
      rw [if_pos rfl]
      by_cases hi : i = id
      · simp [hi]
      · have : s.repoById i ≠ some n := fun h => by
          rw [← named.inverse, mapped] at h
          exact hi (Option.some.inj h).symm
        simp [hi, this]
    · rw [if_neg hn, named.inverse]
      by_cases hi : i = id
      · subst hi
        have : s.repoById i ≠ some n := fun h => by
          rw [(named.inverse name i).mp mapped] at h
          exact hn (Option.some.inj h).symm
        simp [this]
      · rw [if_neg hi]
  · intro n i h
    rw [un.repoByName] at h
    rw [next]
    split at h
    · cases h
    · exact named.issued n i h
  · intro i h
    rw [next, un.repoById]
    rcases dead i h with old | rfl
    · obtain ⟨issued, gone⟩ := named.dead i old
      exact ⟨issued, by simp [gone]⟩
    · exact ⟨named.issued name i mapped, by simp⟩
  · intro k i hk h
    rw [next]
    exact named.data k i hk (data k i hk ▸ h)

end Store

/-- What a batch leaves at a key, one of its operations put there. -/
theorem WriteBatch.exists_put {batch : WriteBatch} {k : Key} {v : Value}
    (h : WriteBatch.effect batch k = some (some v)) : ∃ fits, MetaOp.put k v fits ∈ batch := by
  obtain ⟨op, hop, hv⟩ := WriteBatch.exists_of_effect h
  cases op with
  | put key value fits =>
    rw [MetaOp.effect] at hv
    split at hv
    · rename_i hk
      subst hk
      cases hv
      exact ⟨fits, hop⟩
    · cases hv
  | delete key =>
    rw [MetaOp.effect] at hv
    split at hv <;> cases hv
  | deletePrefix pre =>
    rw [MetaOp.effect] at hv
    split at hv <;> cases hv

namespace Store

theorem retractBatch_deletes {stale : List (RepoId × Digest)} {k : Key} {v : Value} :
    WriteBatch.effect (retractBatch stale) k ≠ some (some v) := by
  intro h
  obtain ⟨fits, hop⟩ := WriteBatch.exists_put h
  obtain ⟨⟨repo, digest⟩, -, hop⟩ := List.mem_flatMap.mp hop
  simp at hop

theorem sweepRefsBatch_deletes {repo : RepoId} {entries : List (Key × Value)} {k : Key}
    {v : Value} : WriteBatch.effect (sweepRefsBatch repo entries) k ≠ some (some v) := by
  intro h
  obtain ⟨fits, hop⟩ := WriteBatch.exists_put h
  obtain ⟨⟨key, value⟩, -, hop⟩ := List.mem_flatMap.mp hop
  cases value <;> simp at hop

/-- A scan of blobs writes marks only. -/
theorem markBatch_other {now : Timestamp} {verdicts : List (Digest × BlobRecord × BlobVerdict)}
    {k : Key} (hk : ∀ d, k ≠ .blobMark d) : WriteBatch.effect (markBatch now verdicts) k = none := by
  apply WriteBatch.effect_flatMap_none
  rintro ⟨digest, record, verdict⟩ -
  cases verdict with
  | referenced marked => cases marked <;> simp [MetaOp.effect, Ne.symm (hk _)]
  | unmarked | ripe | young => simp [MetaOp.effect, Ne.symm (hk _)]

end Store

section
variable {oci : Oci} {options : RegistryOptions} {s t : Store} {c : Call} {accepted : Bool}

/-- Every call keeps the names in order. -/
theorem Effect.named (h : Effect oci options s c accepted t) (named : s.Named) : t.Named := by
  cases h with
  | putManifest checked interned held tags =>
    exact (interned.named named).of_within interned.live (Store.pushBatch_within _ _)
  | setTag live record => exact named.of_within live (setTagOps_within _ _)
  | deleteTag live points => exact named.of_within live (deleteTagOps_within _ _)
  | deleteManifest live stored =>
    exact named.of_within live (Store.manifestDeleteBatch_within _ _ _)
  | purgeManifest live stored =>
    exact named.of_within live (Store.manifestDeleteBatch_within _ _ _)
  | sweepRepoBlobs =>
    refine named.of_same (Store.sameNames_apply fun k hk => ?_) ?_ ?_
    · apply WriteBatch.effect_flatMap_none
      rintro ⟨repo, digest⟩ -
      cases k <;> cases hk <;> rfl
    · exact fun id => Store.has_of_deletes fun v => Store.retractBatch_deletes
    · exact fun k id _ h => Or.inl (Store.has_of_deletes (fun v => Store.retractBatch_deletes) h)
  | scanBlobs =>
    refine named.of_same (Store.sameNames_apply fun k hk => ?_) ?_ ?_
    · exact Store.markBatch_other (by rintro d rfl; cases hk)
    · intro id h
      rwa [Store.has_apply_of_effect (Store.markBatch_other (by simp))] at h
    · intro k id hk h
      rw [Store.has_apply_of_effect (Store.markBatch_other (by rintro d rfl; cases hk))] at h
      exact Or.inl h
  | collectBlob unreferenced =>
    refine named.of_same (Store.sameNames_apply fun k hk => ?_) ?_ ?_
    · cases k <;> cases hk <;> rfl
    · intro id h
      rwa [Store.has_apply_of_effect rfl] at h
    · intro k id hk h
      rw [Store.has_apply_of_effect (by cases k <;> first | rfl | cases hk)] at h
      exact Or.inl h
  | retireRepo mapped empty =>
    refine named.unmapped mapped (Store.unmapped_retire _ _) ?_ ?_
    · intro i h
      rw [Store.has_apply_of_effect rfl] at h
      exact Or.inl h
    · intro k i hk
      exact Store.has_apply_of_effect (by cases k <;> first | rfl | cases hk)
  | commitBlob interned =>
    exact (interned.named named).of_within interned.live (Store.blobCommitBatch_within _ _ _)
  | deleteBlobReference live =>
    exact named.of_within live (Store.blobReferenceDeleteBatch_within _)
  | mountBlob stored interned =>
    exact (interned.named named).of_within interned.live (Store.blobCommitBatch_within _ _ _)
  | @deleteRepository repo now id mapped =>
    refine named.unmapped mapped (Store.unmapped_tombstone repo id now) ?_ ?_
    · intro i h
      by_cases hi : i = id
      · exact Or.inr hi
      · rw [Store.has_apply_of_effect (by simp [Store.tombstoneBatch, MetaOp.effect, Ne.symm hi])]
          at h
        exact Or.inl h
    · intro k i hk
      exact Store.has_apply_of_effect (by cases k <;> first | rfl | cases hk)
  | @addPullCounts deltas batch puts =>
    have untouched {k : Key} (hk : ∀ (g : CountGroup) id, k ≠ g.key id) :
        WriteBatch.effect batch k = none := by
      rw [WriteBatch.effect_eq_none]
      intro op hop
      obtain ⟨g, id, bucket, -, rfl⟩ := puts op hop
      exact if_neg (Ne.symm (hk g id))
    have counter (g : CountGroup) (id : RepoId) : (g.key id).repo = some id := by
      unfold CountGroup.key
      split <;> rfl
    refine named.of_same (Store.sameNames_apply fun k hk => untouched ?_) ?_ ?_
    · rintro g id rfl
      unfold CountGroup.key at hk
      split at hk <;> cases hk
    · intro i h
      rwa [Store.has_apply_of_effect (untouched fun g id h => by
        have := counter g id
        rw [← h] at this
        cases this)] at h
    · intro k i hk h
      by_cases hput : ∃ (g : CountGroup) (id : RepoId) (bucket : CounterBucket),
          s.repoByName g.repo = some id ∧ MetaOp.put (g.key id) (.counter bucket) (g.fits ..) ∈ batch ∧
            k = g.key id
      · obtain ⟨g, id, bucket, live, -, rfl⟩ := hput
        rw [counter] at hk
        cases hk
        exact Or.inr (named.issued _ _ live)
      · have effect : WriteBatch.effect batch k = none := by
          rw [WriteBatch.effect_eq_none]
          intro op hop
          obtain ⟨g, id, bucket, live, rfl⟩ := puts op hop
          exact if_neg fun h => hput ⟨g, id, bucket, live, hop, h.symm⟩
        rw [Store.has_apply_of_effect effect] at h
        exact Or.inl h
  | sweepPage dead =>
    refine named.of_same (Store.sameNames_within (Store.sweepRefsBatch_within _)) ?_ ?_
    · exact fun id => Store.has_of_deletes fun v => Store.sweepRefsBatch_deletes
    · exact fun k id _ h => Or.inl (Store.has_of_deletes (fun v => Store.sweepRefsBatch_deletes) h)
  | @finishSweep i id dead =>
    have deletes {k : Key} (v : Value) : WriteBatch.effect (sweepFinishBatch id) k ≠ some (some v) := by
      rw [sweepFinishBatch_effect]
      split <;> simp
    refine named.of_same (Store.sameNames_apply (Store.sweepFinishBatch_names)) ?_ ?_
    · exact fun id => Store.has_of_deletes deletes
    · exact fun k id _ h => Or.inl (Store.has_of_deletes deletes h)
  | startSweep => exact named
  | restart => exact named
  | refused kept =>
    rcases kept with rfl | ⟨name, id, -, interned⟩
    · exact named
    · exact interned.named named

/-- The calls that drop a name. -/
def Call.unmaps : Call → Bool
  | .deleteRepository .. | .operation (.retireRepo ..) => true
  | _ => false

/-- What a call does to the names: it interns the one it is addressed to, unmaps
it, or neither. -/
theorem Effect.names (h : Effect oci options s c accepted t) :
    s.SameNames t ∨
      (∃ name id u, c.repo = some name ∧ s.Interned name id u ∧ u.SameNames t) ∨
      ∃ name id, c.repo = some name ∧ s.repoByName name = some id ∧ s.Unmapped name id t ∧
        c.unmaps = true := by
  cases h with
  | putManifest checked interned held tags =>
    exact Or.inr (Or.inl
      ⟨_, _, _, rfl, interned, Store.sameNames_within (Store.pushBatch_within _ _)⟩)
  | setTag live record => exact Or.inl (Store.sameNames_within (setTagOps_within _ _))
  | deleteTag live points => exact Or.inl (Store.sameNames_within (deleteTagOps_within _ _))
  | deleteManifest live stored =>
    exact Or.inl (Store.sameNames_within (Store.manifestDeleteBatch_within _ _ _))
  | purgeManifest live stored =>
    exact Or.inl (Store.sameNames_within (Store.manifestDeleteBatch_within _ _ _))
  | sweepRepoBlobs =>
    refine Or.inl (Store.sameNames_apply fun k hk => ?_)
    apply WriteBatch.effect_flatMap_none
    rintro ⟨repo, digest⟩ -
    cases k <;> cases hk <;> rfl
  | scanBlobs =>
    exact Or.inl (Store.sameNames_apply fun k hk =>
      Store.markBatch_other (by rintro d rfl; cases hk))
  | collectBlob unreferenced =>
    exact Or.inl (Store.sameNames_apply fun k hk => by cases k <;> cases hk <;> rfl)
  | retireRepo mapped empty =>
    exact Or.inr (Or.inr ⟨_, _, rfl, mapped, Store.unmapped_retire _ _, rfl⟩)
  | commitBlob interned =>
    exact Or.inr (Or.inl
      ⟨_, _, _, rfl, interned, Store.sameNames_within (Store.blobCommitBatch_within _ _ _)⟩)
  | deleteBlobReference live =>
    exact Or.inl (Store.sameNames_within (Store.blobReferenceDeleteBatch_within _))
  | mountBlob stored interned =>
    exact Or.inr (Or.inl
      ⟨_, _, _, rfl, interned, Store.sameNames_within (Store.blobCommitBatch_within _ _ _)⟩)
  | deleteRepository mapped =>
    exact Or.inr (Or.inr ⟨_, _, rfl, mapped, Store.unmapped_tombstone _ _ _, rfl⟩)
  | addPullCounts puts =>
    refine Or.inl (Store.sameNames_apply fun k hk => ?_)
    rw [WriteBatch.effect_eq_none]
    intro op hop
    obtain ⟨g, id, bucket, -, rfl⟩ := puts op hop
    refine if_neg fun h => ?_
    subst h
    unfold CountGroup.key at hk
    split at hk <;> cases hk
  | sweepPage dead => exact Or.inl (Store.sameNames_within (Store.sweepRefsBatch_within _))
  | finishSweep dead => exact Or.inl (Store.sameNames_apply Store.sweepFinishBatch_names)
  | startSweep => exact Or.inl fun k _ => rfl
  | restart => exact Or.inl fun k _ => rfl
  | refused kept =>
    rcases kept with rfl | ⟨name, id, named, interned⟩
    · exact Or.inl fun k _ => rfl
    · exact Or.inr (Or.inl ⟨name, id, t, named, interned, fun k _ => rfl⟩)

/-- An id that was issued and is not live stays so. -/
theorem Effect.gone (h : Effect oci options s c accepted t) (named : s.Named) {id : RepoId}
    (issued : id < s.nextId) (gone : s.repoById id = none) :
    id < t.nextId ∧ t.repoById id = none := by
  have same {u : Store} (names : s.SameNames u) : id < u.nextId ∧ u.repoById id = none := by
    rw [names.nextId, names.repoById]
    exact ⟨issued, gone⟩
  rcases h.names with names | ⟨name, i, u, -, interned, names⟩ | ⟨name, i, -, mapped, un, -⟩
  · exact same names
  · rw [names.nextId, names.repoById]
    cases interned with
    | known stored => exact ⟨issued, gone⟩
    | new absent room next =>
      subst next
      obtain ⟨ne, -, later⟩ := Names.succ_of_room room
      have other : id ≠ s.nextId := fun h => UInt32.lt_irrefl _ (h ▸ issued)
      rw [Store.internBatch_nextId, Store.internBatch_repoById _ ne, if_neg other, gone]
      exact ⟨later id issued, by simp⟩
  · rw [un.nextId (Names.ne_nextId_key (named.issued name i mapped)), un.repoById, gone]
    exact ⟨issued, by simp⟩

end

namespace System

variable {oci : Oci} {sys sys' : System} {c : Call} {accepted : Bool}

/-- What a call leaves, the caches being right. -/
theorem effect_of_call (coherent : sys.Coherent) (h : sys.call oci c = some (accepted, sys')) :
    Served oci sys.registry c accepted sys'.registry := by
  have cached := coherent.cached
  cases c with
  | operation op =>
    cases h
    exact operation_served cached op
  | deleteBlobReference repo digest =>
    cases h
    exact deleteBlobReference_served cached repo digest
  | mountBlob repo digest from_ now =>
    cases h
    exact mountBlob_served cached repo digest from_ now
  | deleteRepository repo now =>
    cases h
    exact deleteRepository_served cached repo now
  | addPullCounts deltas =>
    cases h
    exact addPullCounts_served cached deltas
  | startSweep id =>
    simp only [call] at h
    split at h
    · cases h
      exact ⟨.startSweep, rfl, cached⟩
    · cases h
  | sweepPage i =>
    obtain ⟨w, hw, h⟩ := Option.bind_eq_some_iff.mp h
    split at h
    · cases h
    · cases h
      obtain ⟨-, gone⟩ := coherent.sweeping w (List.mem_of_getElem? hw)
      exact served_store cached (Store.sameNames_within (Store.sweepRefsBatch_within _))
        (.sweepPage gone)
  | finishSweep i =>
    obtain ⟨w, hw, h⟩ := Option.bind_eq_some_iff.mp h
    split at h
    · cases h
      obtain ⟨-, gone⟩ := coherent.sweeping w (List.mem_of_getElem? hw)
      exact served_store cached (Store.sameNames_apply Store.sweepFinishBatch_names)
        (.finishSweep gone)
    · cases h
  | restart entries =>
    cases h
    exact ⟨.restart, rfl, fun name id h => by cases h⟩

/-- A sweep there is after a call was there before, or its repository is dead. -/
theorem sweep_of_call (h : sys.call oci c = some (accepted, sys')) {w : Sweep}
    (hw : w ∈ sys'.sweeps) :
    (∃ w' ∈ sys.sweeps, w'.repo = w.repo) ∨ sys.store.has (.deadRepo w.repo) = true := by
  have old (hw : w ∈ sys.sweeps) :
      (∃ w' ∈ sys.sweeps, w'.repo = w.repo) ∨ sys.store.has (.deadRepo w.repo) = true :=
    Or.inl ⟨w, hw, rfl⟩
  cases c with
  | startSweep id =>
    simp only [call] at h
    split at h
    · rename_i dead
      cases h
      rcases List.mem_append.mp hw with hw | hw
      · exact old hw
      · rw [List.mem_singleton.mp hw]
        exact Or.inr dead
    · cases h
  | sweepPage i =>
    obtain ⟨w', hw', h⟩ := Option.bind_eq_some_iff.mp h
    split at h
    · cases h
    · cases h
      rcases List.mem_or_eq_of_mem_set hw with hw | rfl
      · exact old hw
      · exact Or.inl ⟨w', List.mem_of_getElem? hw', rfl⟩
  | finishSweep i =>
    obtain ⟨w', hw', h⟩ := Option.bind_eq_some_iff.mp h
    split at h
    · cases h
      exact old (List.mem_of_mem_eraseIdx hw)
    · cases h
  | restart entries =>
    cases h
    cases hw
  | operation op | deleteBlobReference repo digest | mountBlob repo digest from_ now
  | deleteRepository repo now | addPullCounts deltas =>
    cases h
    exact old hw

/-- Every call keeps the system coherent. -/
theorem coherent_of_call (coherent : sys.Coherent) (h : sys.call oci c = some (accepted, sys')) :
    sys'.Coherent := by
  have served := effect_of_call coherent h
  refine ⟨served.effect.named coherent.named, served.cached, fun w hw => ?_⟩
  rcases sweep_of_call h hw with ⟨w', hw', same⟩ | dead
  · obtain ⟨issued, gone⟩ := coherent.sweeping w' hw'
    rw [same] at issued gone
    exact served.effect.gone coherent.named issued gone
  · obtain ⟨issued, gone⟩ := coherent.named.dead w.repo dead
    exact served.effect.gone coherent.named issued gone

/-- A step is a call, whether it was accepted or not. -/
theorem call_of_step (h : step oci sys c = some sys') :
    ∃ accepted, sys.call oci c = some (accepted, sys') := by
  obtain ⟨⟨accepted, sys''⟩, hcall, rfl⟩ := Option.map_eq_some_iff.mp h
  exact ⟨accepted, hcall⟩

theorem coherent_step (coherent : sys.Coherent) (h : step oci sys c = some sys') :
    sys'.Coherent := by
  obtain ⟨accepted, h⟩ := call_of_step h
  exact coherent_of_call coherent h

theorem options_step (coherent : sys.Coherent) (h : step oci sys c = some sys') :
    sys'.registry.options = sys.registry.options := by
  obtain ⟨accepted, h⟩ := call_of_step h
  exact (effect_of_call coherent h).options

/-- An invariant of coherent systems with given options, along a run of calls
of one kind. -/
theorem run_invariant_of {options : RegistryOptions} {entries : Nat} {I : System → Prop}
    {P : Call → Prop} (init : I (start options entries))
    (keep : ∀ sys c sys', sys.Coherent → sys.registry.options = options → P c → I sys →
      step oci sys c = some sys' → I sys')
    {calls : List Call} (kind : ∀ c ∈ calls, P c)
    (run : Transition.exec (step oci) (start options entries) calls = some sys) :
    sys.Coherent ∧ sys.registry.options = options ∧ I sys := by
  refine Transition.exec_invariant
    (I := fun sys => sys.Coherent ∧ sys.registry.options = options ∧ I sys) ?_ ?_
    (Transition.meets_and_mem kind (Transition.meets_true _ calls)) run
  · rintro sys c sys' ⟨coherent, opts, inv⟩ ⟨-, hc⟩ hstep
    exact ⟨coherent_step coherent hstep, (options_step coherent hstep).trans opts,
      keep sys c sys' coherent opts hc inv hstep⟩
  · exact ⟨coherent_start options entries, rfl, init⟩

/-- An invariant of coherent systems with given options, along a run. -/
theorem run_invariant {options : RegistryOptions} {entries : Nat} {I : System → Prop}
    (init : I (start options entries))
    (keep : ∀ sys c sys', sys.Coherent → sys.registry.options = options → I sys →
      step oci sys c = some sys' → I sys')
    {calls : List Call} (run : Transition.exec (step oci) (start options entries) calls = some sys) :
    sys.Coherent ∧ sys.registry.options = options ∧ I sys :=
  run_invariant_of (P := fun _ => True) init
    (fun sys c sys' coherent opts _ => keep sys c sys' coherent opts) (fun _ _ => trivial) run

end System

end Summ
