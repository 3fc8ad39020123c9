import Summ.Names.Sweep
import Summ.Serial.Edges

/-!
# Every edge is justified along a run

A call that ends no sweep keeps every edge justified (`Effect.justified`). A
sweep takes the references away page by page and the records at its end, so it
keeps ahead of itself exactly the references it has not reached (`Ahead`).
-/

namespace Summ

namespace Store

variable {s t : Store}

/-- A change that adds no edge and changes no record, tag or other edge. -/
theorem Justified.of_same (hs : s.Justified) (same : s.SameContents t)
    (refs : s.FewerRefs t) : t.Justified where
  blobs b r m h := by
    rw [same.manifestRecord]
    exact hs.blobs b r m (refs b r m h)
  children r c p h := by
    rw [same.has rfl] at h
    rw [same.manifestRecord]
    exact hs.children r c p h
  referrers r subject d h := by
    rw [same.has rfl] at h
    obtain ⟨record, stored, refers⟩ := hs.referrers r subject d h
    refine ⟨record, (same.manifestRecord r d).trans stored, refers.imp_right ?_⟩
    rintro ⟨u, hu, hsub⟩
    exact ⟨u, (tagDigest_congr (same _ rfl)).trans hu, hsub⟩

/-- A write of tags that leaves every edge to a subject justified. -/
theorem Justified.of_tags (hs : s.Justified) {batch : WriteBatch}
    (plain : ∀ k, k.aboutTags = false → WriteBatch.effect batch k = none)
    (referrers : (s.apply batch).ReferrersJustified) : (s.apply batch).Justified where
  blobs b r m h := by
    rw [has_apply_of_effect (plain _ rfl)] at h
    rw [manifestRecord_congr (get_apply_of_effect (plain _ rfl))]
    exact hs.blobs b r m h
  children r c p h := by
    rw [has_apply_of_effect (plain _ rfl)] at h
    rw [manifestRecord_congr (get_apply_of_effect (plain _ rfl))]
    exact hs.children r c p h
  referrers := referrers

theorem Pushed.of_same {oci : Oci} {options : RegistryOptions} {puts : List ManifestPut}
    (pushed : s.Pushed oci options puts) (same : s.SameContents t) :
    t.Pushed oci options puts := by
  intro r d record h
  rw [same.manifestRecord] at h
  exact pushed r d record h

theorem sweepFinish_manifestRecord (id r : RepoId) (d : Digest) :
    (s.apply (sweepFinishBatch id)).manifestRecord r d =
      if r = id then none else s.manifestRecord r d := by
  unfold manifestRecord
  rw [get_apply, sweepFinishBatch_effect]
  by_cases hr : r = id <;> simp [Key.dropped, Key.repo, hr]

theorem justified_finish (hs : s.Justified) {id : RepoId}
    (swept : ∀ b m, s.has (.blobRef b id m) = false) :
    (s.apply (sweepFinishBatch id)).Justified where
  blobs b r m h := by
    have old : s.has (.blobRef b r m) = true := by
      rwa [has_apply_of_effect (by rw [sweepFinishBatch_effect]; rfl)] at h
    rw [sweepFinish_manifestRecord, if_neg]
    · exact hs.blobs b r m old
    · rintro rfl
      rw [swept] at old
      cases old
  children r c p h := by
    rw [has_apply, sweepFinishBatch_effect] at h
    by_cases hr : r = id
    · simp [Key.dropped, Key.repo, hr] at h
    · rw [sweepFinish_manifestRecord, if_neg hr]
      exact hs.children r c p (by simpa [Key.dropped, Key.repo, hr] using h)
  referrers r subject d h := by
    rw [has_apply, sweepFinishBatch_effect] at h
    by_cases hr : r = id
    · simp [Key.dropped, Key.repo, hr] at h
    · obtain ⟨record, stored, refers⟩ :=
        hs.referrers r subject d (by simpa [Key.dropped, Key.repo, hr] using h)
      refine ⟨record, by rw [sweepFinish_manifestRecord, if_neg hr, stored], refers.imp_right ?_⟩
      rintro ⟨u, hu, hsub⟩
      refine ⟨u, ?_, hsub⟩
      rw [tagDigest_congr (get_apply_of_effect ?_), hu]
      rw [sweepFinishBatch_effect]
      simp [Key.dropped, Key.repo, hr]

end Store

/-! ## One call -/

section
variable {oci : Oci} {options : RegistryOptions} {puts : List ManifestPut} {s t : Store} {c : Call}
  {accepted : Bool}

theorem Edit.pushed (h : Edit oci options s c t) (pushed : s.Pushed oci options puts)
    (listed : ∀ put ∈ c.put, put ∈ puts) : t.Pushed oci options puts := by
  cases h with
  | @push put extraTags checked id s₀ ts pushes hchecked interned tags =>
    subst pushes
    intro r d record h
    rw [Store.push_manifestRecord] at h
    split at h
    · rename_i hkey
      cases h
      obtain ⟨rfl, rfl⟩ := hkey
      exact ⟨put, listed _ rfl, checked, hchecked, rfl, rfl⟩
    · exact pushed.of_same interned.sameContents r d record h
  | setTag record =>
    intro r d record' h
    rw [Store.manifestRecord_congr (Store.get_apply_of_effect (setTagOps_other rfl))] at h
    exact pushed r d record' h
  | deleteTag points =>
    intro r d record' h
    rw [Store.manifestRecord_congr (Store.get_apply_of_effect (deleteTagOps_other rfl))] at h
    exact pushed r d record' h
  | deleteManifest stored =>
    intro r d record' h
    rw [Store.manifestDelete_manifestRecord] at h
    split at h
    · cases h
    · exact pushed r d record' h
  | finishSweep finishes =>
    intro r d record' h
    rw [Store.sweepFinish_manifestRecord] at h
    split at h
    · cases h
    · exact pushed r d record' h
  | none same refs => exact pushed.of_same same

/-- A call that ends no sweep keeps every edge justified. -/
theorem Edit.justified (h : Edit oci options s c t) (running : ∀ i, c ≠ .finishSweep i)
    (hs : s.Justified) (tags : s.TagsIndexed) (pushed : s.Pushed oci options puts)
    (free : oci.CollisionFree puts) (listed : ∀ put ∈ c.put, put ∈ puts) : t.Justified := by
  cases h with
  | @push put extraTags checked id s₀ ts pushes hchecked interned htags =>
    subst pushes
    have hs₀ := hs.of_same interned.sameContents interned.fewerRefs
    have again : ∀ record, s₀.manifestRecord id checked.digest = some record → _ :=
      fun record stored => (pushed.of_same interned.sameContents).record_again free
        (listed _ rfl) hchecked stored
    exact ⟨Store.blobsJustified_push hs₀.blobs fun record stored => (again record stored).1,
      Store.childrenJustified_push hs₀.children fun record stored => (again record stored).2.1,
      Store.referrersJustified_push hs₀.referrers fun record stored => (again record stored).2.2⟩
  | setTag record =>
    exact hs.of_tags (fun _ => setTagOps_other) (Store.referrersJustified_setTag hs.referrers record)
  | deleteTag points =>
    exact hs.of_tags (fun _ => deleteTagOps_other)
      (Store.referrersJustified_deleteTag hs.referrers points)
  | deleteManifest stored => exact Store.justified_manifestDelete hs tags stored
  | @finishSweep i id finishes => exact absurd finishes (running i)
  | none same refs => exact hs.of_same same refs

end

/-! ## Sweeps -/

/-- The references of the repository that are left are those of manifests the
sweep has still to read. -/
structure Sweep.Ahead (s : Store) (w : Sweep) : Prop where
  covered : ∀ k ∈ w.cursor, (Scan.manifestsInRepo w.repo).covers k = true
  ahead : ∀ b m, s.has (.blobRef b w.repo m) = true →
    w.drained = false ∧ ∀ k ∈ w.cursor, k < .manifest w.repo m

namespace Store

variable {s t : Store} {w : Sweep}

/-- A page takes away the references of the manifests on it. -/
theorem ahead_page (hs : s.BlobsJustified)
    (digests : ∀ r d record, s.manifestRecord r d = some record → record.digest = d)
    (ahead : w.Ahead s) :
    Sweep.Ahead (s.sweepRepoRefs w.repo w.cursor SWEEP_STEP).2
      { w with
        cursor := (s.sweepRepoRefs w.repo w.cursor SWEEP_STEP).1.next
        drained := (s.sweepRepoRefs w.repo w.cursor SWEEP_STEP).1.next.isNone } where
  covered k hk := scan_next_covers ahead.covered (by decide) hk
  ahead b m h := by
    obtain ⟨old, kept⟩ := sweepRefs_has h
    obtain ⟨record, stored, hb⟩ := hs b w.repo m old
    have unread : (Key.manifest w.repo m, Value.manifest record) ∉
        (s.scan (.manifestsInRepo w.repo) w.cursor SWEEP_STEP).entries := fun listed =>
      kept _ record rfl listed (digests w.repo m record stored) hb
    have onPage : (∀ n ∈ (s.scan (.manifestsInRepo w.repo) w.cursor SWEEP_STEP).next,
        Key.manifest w.repo m ≤ n) → (Key.manifest w.repo m, Value.manifest record) ∈
        (s.scan (.manifestsInRepo w.repo) w.cursor SWEEP_STEP).entries := by
      refine mem_scan_of_le ahead.covered (by decide) ?_ (by simp [Scan.covers])
        (ahead.ahead b m old).2 (manifestRecord_eq_some.mp stored)
      rintro ⟨k, v⟩ he
      cases hcursor : w.cursor with
      | none => rfl
      | some c =>
        have whole : Scan.manifestsInRepo w.repo ≠ .repoBlobs := by simp
        exact sees_of_paged rfl whole (ahead.covered c hcursor) (mem_under.mp he).1
    change (s.scan (.manifestsInRepo w.repo) w.cursor SWEEP_STEP).next.isNone = false ∧
      ∀ k ∈ (s.scan (.manifestsInRepo w.repo) w.cursor SWEEP_STEP).next, k < .manifest w.repo m
    cases hnext : (s.scan (.manifestsInRepo w.repo) w.cursor SWEEP_STEP).next with
    | none => exact absurd (onPage (by simp [hnext])) unread
    | some n =>
      refine ⟨rfl, fun k hk => ?_⟩
      obtain rfl := Option.some.inj hk
      by_contra reached
      refine unread (onPage fun k hk => ?_)
      obtain rfl := Option.some.inj (hnext.symm.trans hk)
      exact not_lt.mp reached

end Store

theorem Sweep.Ahead.of_fewer {s t : Store} {w : Sweep} (ahead : w.Ahead s)
    (refs : ∀ b m, t.has (.blobRef b w.repo m) = true → s.has (.blobRef b w.repo m) = true) :
    w.Ahead t where
  covered := ahead.covered
  ahead b m h := ahead.ahead b m (refs b m h)

/-! ## Whole runs -/

/-- What a run keeps: justified edges, and every sweep ahead of what it left. -/
structure System.EdgesKept (oci : Oci) (options : RegistryOptions) (puts : List ManifestPut)
    (sys : System) : Prop where
  justified : sys.store.Justified
  tags : sys.store.TagsIndexed
  pushed : sys.store.Pushed oci options puts
  sweeps : ∀ w ∈ sys.sweeps, w.Ahead sys.store

namespace System

variable {oci : Oci} {options : RegistryOptions} {puts : List ManifestPut} {sys sys' : System}
  {c : Call} {accepted : Bool}

theorem edgesKept_start (entries : Nat) : (start options entries).EdgesKept oci options puts where
  justified := ⟨fun b r m h => (by cases h), fun r c p h => (by cases h),
    fun r subject d h => (by cases h)⟩
  tags := Store.tagsIndexed_empty
  pushed r d record h := by cases h
  sweeps w h := by cases h

theorem EdgesKept.digests (kept : sys.EdgesKept oci options puts) (r : RepoId) (d : Digest)
    (record : ManifestRecord) (h : sys.store.manifestRecord r d = some record) :
    record.digest = d := by
  obtain ⟨put, -, c, -, hd, rfl⟩ := kept.pushed r d record h
  exact hd

/-- No call writes under the id of a repository that is being swept. -/
theorem refs_of_sweeping (coherent : sys.Coherent) (h : sys.call oci c = some (accepted, sys'))
    {w : Sweep} (hw : w ∈ sys.sweeps) (b m : Digest)
    (href : sys'.store.has (.blobRef b w.repo m) = true) :
    sys.store.has (.blobRef b w.repo m) = true := by
  obtain ⟨issued, gone⟩ := coherent.sweeping w hw
  have served := effect_of_call coherent h
  have named := coherent.named
  obtain ⟨-, stillGone⟩ := served.effect.gone named issued gone
  have none_has {s : Store} {k : Key} (hn : s.get k = none) : s.has k ≠ true := by
    simp [Store.has, hn]
  cases served.effect.frame (k := .blobRef b w.repo m) rfl with
  | same kept =>
    rw [Store.has] at href ⊢
    exact kept ▸ href
  | addressed names live =>
    have := ((coherent_of_call coherent h).named.inverse _ _).mp live
    cases stillGone.symm.trans this
  | counted counts live => cases gone.symm.trans ((named.inverse _ _).mp live)
  | swept _ removed => exact absurd href (none_has removed)
  | retracted _ removed => exact absurd href (none_has removed)

/-- Where a repository is dropped no sweep of it has begun, or one that has is
still ahead. -/
theorem ahead_start (sys : System) (id : RepoId) :
    Sweep.Ahead sys.store { repo := id, cursor := none, drained := false } where
  covered k h := by cases h
  ahead b m _ := ⟨rfl, fun k h => by cases h⟩

/-- Every call keeps the sweeps ahead. -/
theorem sweeps_kept (coherent : sys.Coherent) (kept : sys.EdgesKept oci options puts)
    (h : sys.call oci c = some (accepted, sys')) : ∀ w ∈ sys'.sweeps, w.Ahead sys'.store := by
  have old {w : Sweep} (hw : w ∈ sys.sweeps) : w.Ahead sys'.store :=
    (kept.sweeps w hw).of_fewer (refs_of_sweeping coherent h hw)
  intro w hw
  cases c with
  | startSweep id =>
    simp only [call] at h
    split at h
    · cases h
      rcases List.mem_append.mp hw with hw | hw
      · exact old hw
      · rw [List.mem_singleton.mp hw]
        exact ahead_start sys id
    · cases h
  | sweepPage i =>
    obtain ⟨w', hw', hcall⟩ := Option.bind_eq_some_iff.mp h
    split at hcall
    · cases hcall
    · cases hcall
      rcases List.mem_or_eq_of_mem_set hw with hw | rfl
      · exact old hw
      · exact Store.ahead_page kept.justified.blobs kept.digests
          (kept.sweeps w' (List.mem_of_getElem? hw'))
  | finishSweep i =>
    obtain ⟨w', hw', hcall⟩ := Option.bind_eq_some_iff.mp h
    split at hcall
    · cases hcall
      exact old (List.mem_of_mem_eraseIdx hw)
    · cases hcall
  | restart entries =>
    cases h
    cases hw
  | operation op | deleteBlobReference repo digest | mountBlob repo digest from_ now
  | deleteRepository repo now | addPullCounts deltas =>
    cases h
    exact old hw

/-- A sweep that has seen its last page has left no reference. -/
theorem EdgesKept.swept (kept : sys.EdgesKept oci options puts) {i : Nat} {w : Sweep}
    (at_ : sys.sweeps[i]? = some w) (drained : w.drained = true) (b m : Digest) :
    sys.store.has (.blobRef b w.repo m) = false := by
  by_contra h
  have := ((kept.sweeps w (List.mem_of_getElem? at_)).ahead b m (by simpa using h)).1
  rw [drained] at this
  cases this

theorem edgesKept_step (coherent : sys.Coherent) (opts : sys.registry.options = options)
    (free : oci.CollisionFree puts) (listed : ∀ put ∈ c.put, put ∈ puts)
    (kept : sys.EdgesKept oci options puts) (h : sys.call oci c = some (accepted, sys')) :
    sys'.EdgesKept oci options puts := by
  have edit := (effect_of_call coherent h).effect.edit
  rw [opts] at edit
  refine ⟨?_, edit.tagsIndexed kept.tags, edit.pushed kept.pushed listed, sweeps_kept coherent kept h⟩
  by_cases finishes : ∃ i, c = .finishSweep i
  · obtain ⟨i, rfl⟩ := finishes
    obtain ⟨w, hw, hcall⟩ := Option.bind_eq_some_iff.mp h
    split at hcall
    · rename_i drained
      cases hcall
      exact Store.justified_finish kept.justified (kept.swept hw drained)
    · cases hcall
  · exact edit.justified (fun i hi => finishes ⟨i, hi⟩) kept.justified kept.tags kept.pushed free
      listed

end System

/-- The repository has no edge at all. -/
structure Store.NoEdgesIn (s : Store) (repo : RepoId) : Prop where
  blobs : ∀ b m, s.has (.blobRef b repo m) = false
  children : ∀ c p, s.has (.childParent repo c p) = false
  referrers : ∀ subject d, s.has (.referrer repo subject d) = false

/-- A call that deletes one manifest, and which. -/
def Call.deletes : Call → Option (Text × Digest)
  | operation (.deleteManifest repo digest _) => some (repo, digest)
  | operation (.purgeManifest repo digest _ _) => some (repo, digest)
  | _ => none

namespace System

variable {oci : Oci} {options : RegistryOptions} {puts : List ManifestPut} {sys sys' : System}

/-- A manifest that a call deletes leaves no edge. -/
theorem EdgesKept.noEdgesOf (kept : sys.EdgesKept oci options puts) (coherent : sys.Coherent)
    {c : Call} {repo : Text} {d : Digest} (deletes : c.deletes = some (repo, d))
    (h : sys.call oci c = some (true, sys')) :
    ∃ id, sys.store.repoByName repo = some id ∧ sys'.store.NoEdgesOf id d := by
  have effect := (effect_of_call coherent h).effect
  generalize hs : sys.registry.store = s at effect
  generalize ht : sys'.registry.store = t at effect
  generalize hb : true = accepted at effect
  cases effect with
  | deleteManifest live stored =>
    cases deletes
    subst hs
    refine ⟨_, live, ?_⟩
    rw [System.store, ht]
    exact Store.noEdgesOf_manifestDelete kept.justified kept.tags stored
  | purgeManifest live stored =>
    cases deletes
    subst hs
    refine ⟨_, live, ?_⟩
    rw [System.store, ht]
    exact Store.noEdgesOf_manifestDelete kept.justified kept.tags stored
  | refused _ => cases hb
  | _ => cases deletes

/-- A sweep that ends leaves no edge of its repository. -/
theorem EdgesKept.noEdgesIn (kept : sys.EdgesKept oci options puts) {i : Nat} {w : Sweep}
    (at_ : sys.sweeps[i]? = some w) (h : step oci sys (.finishSweep i) = some sys') :
    sys'.store.NoEdgesIn w.repo := by
  simp only [step, call, at_, Option.bind_some] at h
  split at h
  · rename_i drained
    simp only [Option.map_some, Option.some.injEq] at h
    subst h
    have gone {k : Key} (hk : k.dropped w.repo = true) :
        (sys.store.apply (sweepFinishBatch w.repo)).has k = false := by
      rw [Store.has_apply, sweepFinishBatch_effect, if_pos hk]
      rfl
    refine ⟨fun b m => ?_, fun c p => gone ?_, fun subject d => gone ?_⟩
    · change (sys.store.apply (sweepFinishBatch w.repo)).has (.blobRef b w.repo m) = false
      rw [Store.has_apply_of_effect (by rw [sweepFinishBatch_effect]; rfl)]
      exact kept.swept at_ drained b m
    · simp [Key.dropped, Key.repo]
    · simp [Key.dropped, Key.repo]
  · cases h

/-- What a run whose bodies do not collide has kept. -/
theorem edgesKept_run {entries : Nat} {calls : List Call}
    (free : oci.CollisionFree (calls.filterMap Call.put))
    (run : Transition.exec (step oci) (start options entries) calls = some sys) :
    sys.Coherent ∧ sys.EdgesKept oci options (calls.filterMap Call.put) := by
  obtain ⟨coherent, -, kept⟩ := run_invariant_of
    (I := fun sys => sys.EdgesKept oci options (calls.filterMap Call.put))
    (P := fun c => ∀ put ∈ c.put, put ∈ calls.filterMap Call.put)
    (edgesKept_start entries) (fun sys c sys' coherent opts listed kept hstep => by
      obtain ⟨accepted, hcall⟩ := call_of_step hstep
      exact edgesKept_step coherent opts free listed kept hcall)
    (fun c hc put hput => List.mem_filterMap.mpr ⟨c, hc, hput⟩) run
  exact ⟨coherent, kept⟩

end System

/-- As long as no two bodies that are pushed share a digest, every edge in a
store that a run of calls reaches comes from a stored manifest; a manifest that
is then deleted leaves no edge, and neither does a repository whose sweep ends. -/
theorem edges_justified (oci : Oci) (options : RegistryOptions) (entries : Nat)
    (calls : List Call) (sys : System) (free : oci.CollisionFree (calls.filterMap Call.put))
    (run : Transition.exec (System.step oci) (.start options entries) calls = some sys) :
    ((∀ b r m, sys.store.has (.blobRef b r m) = true →
        ∃ record, sys.store.manifestRecord r m = some record ∧ b ∈ record.layers) ∧
      (∀ r c p, sys.store.has (.childParent r c p) = true →
        ∃ record, sys.store.manifestRecord r p = some record ∧
          c ∈ record.children.map ChildRef.digest) ∧
      ∀ r subject d, sys.store.has (.referrer r subject d) = true →
        ∃ record, sys.store.manifestRecord r d = some record ∧
          (record.subject = some subject ∨
            ∃ t, sys.store.tagDigest r t = some d ∧ subjectOfArtifactTag t.text = some subject)) ∧
    (∀ c repo d sys', c.deletes = some (repo, d) → sys.call oci c = some (true, sys') →
      ∃ id, sys.store.repoByName repo = some id ∧ sys'.store.NoEdgesOf id d) ∧
    ∀ i w sys', sys.sweeps[i]? = some w → System.step oci sys (.finishSweep i) = some sys' →
      sys'.store.NoEdgesIn w.repo := by
  obtain ⟨coherent, kept⟩ := System.edgesKept_run free run
  refine ⟨⟨kept.justified.blobs, fun r c p h => ?_, kept.justified.referrers⟩, ?_, ?_⟩
  · obtain ⟨record, stored, hc⟩ := kept.justified.children r c p h
    exact ⟨record, stored, of_decide_eq_true hc⟩
  · exact fun c repo d sys' deletes h => kept.noEdgesOf coherent deletes h
  · exact fun i w sys' at_ h => kept.noEdgesIn at_ h

/-- An index, one that lists it and one that refers to it. -/
def pushedIndexes : List Call :=
  [.operation (pushIndex emptyIndex (.tag latestTag) 1),
    .operation (pushIndex listingIndex (.digest listingIndex.digest) 2),
    .operation (pushIndex referringIndex (.digest referringIndex.digest) 3)]

theorem edges_justified_indexes : ∃ sys,
    Transition.exec (System.step indexOci) (.start {} 1) pushedIndexes = some sys ∧
      ∃ record, sys.store.manifestRecord 0 listingIndex.digest = some record ∧
        emptyIndex.digest ∈ record.children.map ChildRef.digest := by
  have facts : (Transition.exec (System.step indexOci) (.start {} 1) pushedIndexes).map (fun sys =>
      sys.store.has (.childParent 0 emptyIndex.digest listingIndex.digest)) = some true := by
    decide +kernel
  obtain ⟨sys, run, edge⟩ := Option.map_eq_some_iff.mp facts
  have free : indexOci.CollisionFree (pushedIndexes.filterMap Call.put) := by decide +kernel
  exact ⟨sys, run, (edges_justified indexOci {} 1 pushedIndexes sys free run).1.2.1 0 _ _ edge⟩

end Summ
