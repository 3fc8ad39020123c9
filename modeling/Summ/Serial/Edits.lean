import Summ.Serial.Coherence

/-!
# What a call does to manifests, tags and their histories

`Edit` keeps of the effects of a call those on a repository's contents: the
records and bodies of manifests, tags, the edges between them, and the two
histories. Calls about blobs, names and counts edit nothing (`Effect.edit`).
-/

namespace Summ

/-- The kinds of key a push writes of a manifest and its tags. -/
def Key.aboutContents : Key → Bool
  | .manifest .. | .manifestBody .. | .tag .. | .manifestTag .. | .childParent .. | .referrer ..
  | .tagHistory .. | .manifestTagHistory .. => true
  | _ => false

/-- Two stores with the same contents of repositories. -/
def Store.SameContents (s t : Store) : Prop := ∀ k, k.aboutContents = true → t.get k = s.get k

/-- `t` has no blob reference that `s` has not. -/
def Store.FewerRefs (s t : Store) : Prop :=
  ∀ b r m, t.has (.blobRef b r m) = true → s.has (.blobRef b r m) = true

/-- The operations that may change a tag. -/
def Call.retags : Call → Bool
  | operation (.putManifest ..) | operation (.setTag ..) | operation (.deleteTag ..)
  | operation (.deleteManifest ..) | operation (.purgeManifest ..) => true
  | _ => false

inductive Edit (oci : Oci) (options : RegistryOptions) (s : Store) (call : Call) : Store → Prop
  | push {put : ManifestPut} {extraTags : List Text} {c : CheckedPut} {id : RepoId} {s₀ : Store}
      {ts : List Tag} (pushes : call = .operation (.putManifest put extraTags))
      (checked : checkPut oci options put = .ok c) (interned : s.Interned put.repo id s₀)
      (tags : ∀ t, t ∈ ts ↔ t ∈ c.validTags extraTags) :
      Edit oci options s call (s₀.apply (s₀.pushBatch id c ts))
  | setTag {id : RepoId} {tag : Tag} {target : TagTarget} {now : Timestamp}
      (record : (s.manifestRecord id target.digest).isSome = true) (retags : call.retags = true) :
      Edit oci options s call (s.apply (setTagOps id tag (s.tagDigest id tag) target now))
  | deleteTag {id : RepoId} {tag : Tag} {digest : Digest} {now : Timestamp}
      (points : s.tagDigest id tag = some digest) (retags : call.retags = true) :
      Edit oci options s call
        (s.apply (deleteTagOps id tag digest (s.manifestRecord id digest) now))
  | deleteManifest {id : RepoId} {digest : Digest} {record : ManifestRecord} {now : Timestamp}
      (stored : s.manifestRecord id digest = some record) (retags : call.retags = true) :
      Edit oci options s call (s.apply (s.manifestDeleteBatch id digest record now))
  | finishSweep {i : Nat} {id : RepoId} (finishes : call = .finishSweep i) :
      Edit oci options s call (s.apply (sweepFinishBatch id))
  | none {t : Store} (same : s.SameContents t) (refs : s.FewerRefs t) : Edit oci options s call t

namespace Store

variable {s t : Store}

theorem SameContents.refl (s : Store) : s.SameContents s := fun _ _ => rfl

theorem SameContents.trans {u : Store} (first : s.SameContents t) (second : t.SameContents u) :
    s.SameContents u := fun k hk => (second k hk).trans (first k hk)

theorem SameContents.has (same : s.SameContents t) {k : Key} (hk : k.aboutContents = true) :
    t.has k = s.has k := by rw [Store.has, Store.has, same k hk]

theorem SameContents.records (same : s.SameContents t) : s.SameRecords t := by
  intro k hk
  apply same
  cases k <;> first | rfl | cases hk

theorem sameContents_apply {batch : WriteBatch}
    (h : ∀ k, k.aboutContents = true → WriteBatch.effect batch k = none) :
    s.SameContents (s.apply batch) := fun k hk => get_apply_of_effect (h k hk)

theorem fewerRefs_apply {batch : WriteBatch}
    (h : ∀ b r m v, WriteBatch.effect batch (.blobRef b r m) ≠ some (some v)) :
    s.FewerRefs (s.apply batch) := fun b r m => has_of_deletes (h b r m)

theorem Interned.fewerRefs {name : Text} {id : RepoId} (h : s.Interned name id t) :
    s.FewerRefs t := by
  intro b r m href
  rwa [h.has rfl] at href

theorem FewerRefs.trans {u : Store} (first : s.FewerRefs t) (second : t.FewerRefs u) :
    s.FewerRefs u := fun b r m h => first b r m (second b r m h)

theorem Interned.sameContents {name : Text} {id : RepoId} (h : s.Interned name id t) :
    s.SameContents t := fun k hk => h.kept (by cases k <;> first | rfl | cases hk)

theorem blobCommitBatch_blobRef {repo : RepoId} {digest : Digest} {size : Nat} {now : Timestamp}
    (b : Digest) (r : RepoId) (m : Digest) (v : Value) :
    WriteBatch.effect (s.blobCommitBatch repo digest size now) (.blobRef b r m) ≠
      some (some v) := by
  unfold blobCommitBatch
  split <;> simp [MetaOp.effect]

theorem blobCommitBatch_contents {repo : RepoId} {digest : Digest} {size : Nat} {now : Timestamp}
    (k : Key) (hk : k.aboutContents = true) :
    WriteBatch.effect (s.blobCommitBatch repo digest size now) k = none := by
  unfold blobCommitBatch
  split <;> cases k <;> cases hk <;> rfl

theorem blobCommitBatch_repoBlob {repo : RepoId} {digest : Digest} {size : Nat} {now : Timestamp}
    (r : RepoId) (d : Digest) :
    WriteBatch.effect (s.blobCommitBatch repo digest size now) (.repoBlob r d) =
      if s.existsPrefix (.repoBlob repo digest) = false ∧ repo = r ∧ digest = d then
        some (some (.repoBlob { size, addedAt := now.secs })) else none := by
  unfold blobCommitBatch
  split
  · rename_i known
    simp [MetaOp.effect, known]
  · rename_i new
    simp [MetaOp.effect, new]

/-- What the deletion of a blob's references does at a key. -/
theorem blobReferenceDeleteBatch_effect (repo : RepoId) (digest : Digest) (k : Key) :
    WriteBatch.effect (s.blobReferenceDeleteBatch repo digest) k =
      if k = .blobMark digest ∨ k ∈ s.drain (.blobRefsInRepo digest repo) ∨
          s.existsPrefix (.repoBlob repo digest) = true ∧ k = .repoBlob repo digest then some none
      else none := by
  have drained : WriteBatch.effect ((s.drain (.blobRefsInRepo digest repo)).map MetaOp.delete) k =
      if k ∈ s.drain (.blobRefsInRepo digest repo) then some none else none := by
    simpa using WriteBatch.effect_map_delete id (s.drain (.blobRefsInRepo digest repo)) k
  simp only [blobReferenceDeleteBatch, WriteBatch.effect_append, drained, WriteBatch.effect_cons,
    WriteBatch.effect_nil, Option.none_or, MetaOp.effect]
  by_cases hm : k = .blobMark digest
  · simp [hm]
  · rw [if_neg (Ne.symm hm)]
    by_cases hp : s.existsPrefix (.repoBlob repo digest) = true
    · by_cases hk : k = .repoBlob repo digest
      · simp [hp, hk, MetaOp.effect]
      · by_cases hd : k ∈ s.drain (.blobRefsInRepo digest repo) <;>
          simp [hp, hm, hk, hd, Ne.symm hk, MetaOp.effect]
    · by_cases hd : k ∈ s.drain (.blobRefsInRepo digest repo) <;> simp [hp, hm, hd]

theorem blobReferenceDeleteBatch_contents {repo : RepoId} {digest : Digest} (k : Key)
    (hk : k.aboutContents = true) :
    WriteBatch.effect (s.blobReferenceDeleteBatch repo digest) k = none := by
  rw [blobReferenceDeleteBatch_effect, if_neg]
  rintro (rfl | hdrain | ⟨-, rfl⟩)
  · cases hk
  · obtain ⟨m, rfl⟩ := Scan.covers_blobRefsInRepo.mp ((mem_drain rfl (by simp)).mp hdrain).1
    cases hk
  · cases hk

end Store

variable {oci : Oci} {options : RegistryOptions} {s t : Store} {c : Call} {accepted : Bool}

/-- What a call does to the contents of repositories. -/
theorem Effect.edit (h : Effect oci options s c accepted t) : Edit oci options s c t := by
  cases h with
  | putManifest checked interned held tags => exact .push rfl checked interned tags
  | setTag live record => exact .setTag record rfl
  | deleteTag live points => exact .deleteTag points rfl
  | deleteManifest live stored => exact .deleteManifest stored rfl
  | purgeManifest live stored => exact .deleteManifest stored rfl
  | sweepRepoBlobs =>
    refine .none (Store.sameContents_apply fun k hk => ?_)
      (Store.fewerRefs_apply fun b r m v => Store.retractBatch_deletes)
    apply WriteBatch.effect_flatMap_none
    rintro ⟨repo, digest⟩ -
    cases k <;> cases hk <;> rfl
  | scanBlobs =>
    refine .none (Store.sameContents_apply fun k hk => ?_)
      (Store.fewerRefs_apply fun b r m v => ?_)
    · exact Store.markBatch_other (by rintro d rfl; cases hk)
    · rw [Store.markBatch_other (by simp)]
      simp
  | collectBlob unreferenced =>
    exact .none (Store.sameContents_apply fun k hk => by cases k <;> cases hk <;> rfl)
      (Store.fewerRefs_apply fun b r m v h => by cases h)
  | retireRepo mapped empty =>
    exact .none (Store.sameContents_apply fun k hk => by cases k <;> cases hk <;> rfl)
      (Store.fewerRefs_apply fun b r m v h => by cases h)
  | commitBlob interned =>
    exact .none (interned.sameContents.trans
      (Store.sameContents_apply Store.blobCommitBatch_contents))
      (interned.fewerRefs.trans (Store.fewerRefs_apply Store.blobCommitBatch_blobRef))
  | deleteBlobReference live =>
    refine .none (Store.sameContents_apply Store.blobReferenceDeleteBatch_contents)
      (Store.fewerRefs_apply fun b r m v => ?_)
    rw [Store.blobReferenceDeleteBatch_effect]
    split <;> simp
  | mountBlob stored interned =>
    exact .none (interned.sameContents.trans
      (Store.sameContents_apply Store.blobCommitBatch_contents))
      (interned.fewerRefs.trans (Store.fewerRefs_apply Store.blobCommitBatch_blobRef))
  | deleteRepository mapped =>
    exact .none (Store.sameContents_apply fun k hk => by cases k <;> cases hk <;> rfl)
      (Store.fewerRefs_apply fun b r m v h => by cases h)
  | @addPullCounts deltas batch puts =>
    have untouched {k : Key} (hk : ∀ (g : CountGroup) id, k ≠ g.key id) :
        WriteBatch.effect batch k = none := by
      rw [WriteBatch.effect_eq_none]
      intro op hop
      obtain ⟨g, id, bucket, -, rfl⟩ := puts op hop
      exact if_neg (Ne.symm (hk g id))
    refine .none (Store.sameContents_apply fun k hk => untouched ?_)
      (Store.fewerRefs_apply fun b r m v => ?_)
    · rintro g id rfl
      unfold CountGroup.key at hk
      split at hk <;> cases hk
    · rw [untouched]
      · simp
      · intro g id
        unfold CountGroup.key
        split <;> simp
  | sweepPage dead =>
    exact .none (Store.sameContents_apply fun k hk =>
      Store.sweepRefsBatch_other (by rintro b r m rfl; cases hk))
      (Store.fewerRefs_apply fun b r m v => Store.sweepRefsBatch_deletes)
  | finishSweep dead => exact .finishSweep rfl
  | startSweep => exact .none (Store.SameContents.refl _) fun _ _ _ => id
  | restart => exact .none (Store.SameContents.refl _) fun _ _ _ => id
  | refused kept =>
    rcases kept with rfl | ⟨name, id, -, interned⟩
    · exact .none (Store.SameContents.refl _) fun _ _ _ h => h
    · exact .none interned.sameContents interned.fewerRefs

end Summ
