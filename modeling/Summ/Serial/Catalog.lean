import Summ.Lib.Labelled
import Summ.Serial.TagKeys

/-!
# What a registry is for

A `Catalog` is what clients are told of: the known names, each with its manifests
and the tags that point at them. `Store.catalog` reads it off a store, through
the id each name is interned under. `catalog_of_effect`: an accepted call does to
the catalog what `Catalog.after` says, and a refused one at most enters a name.
-/

namespace Summ

/-- The bytes of a manifest, and the media type they are served as. -/
structure Content where
  mediaType : Text
  body : Bytes
  deriving DecidableEq

abbrev Repository := Labelled Digest Content Tag

abbrev Catalog := Directory Text Repository

def CheckedPut.content (c : CheckedPut) : Content where
  mediaType := c.parsed.mediaType
  body := c.put.body

namespace Catalog

variable (oci : Oci) (options : RegistryOptions) (cat : Catalog)

/-- What an accepted call does. -/
def after : Call → Catalog
  | .operation (.putManifest put extraTags) =>
    match checkPut oci options put with
    | .ok c => (cat.enter put.repo .empty).update put.repo fun r =>
        r.put c.digest c.content (c.validTags extraTags)
    | .error _ => cat
  | .operation (.setTag repo tag digest _) =>
    match validateTag tag with
    | .ok t => cat.update repo fun r => r.label t digest
    | .error _ => cat
  | .operation (.deleteTag repo tag _) => cat.update repo fun r => r.unlabel tag
  | .operation (.deleteManifest repo digest _) | .operation (.purgeManifest repo digest ..) =>
    cat.update repo fun r => r.remove digest
  | .operation (.retireRepo repo ..) | .deleteRepository repo _ => cat.drop repo
  | .operation (.commitBlob repo ..) | .mountBlob repo .. => cat.enter repo .empty
  | _ => cat

/-- The name a refused call may have entered: a push interns its repository
before it checks what it refers to. -/
def entered : Call → Option Text
  | .operation (.putManifest put _) => if (checkPut oci options put).isOk then some put.repo else none
  | _ => none

/-- What the catalog alone decides: whether the call is accepted. -/
def decides : Call → Option Bool
  | .operation (.putManifest put _) => if (checkPut oci options put).isOk then none else some false
  | .operation (.setTag repo tag digest _) =>
    some ((validateTag tag).isOk && (cat repo).any fun r => r.holds digest)
  | .operation (.deleteTag repo tag _) => some ((cat repo).any fun r => (r.labels tag).isSome)
  | .operation (.deleteManifest repo digest _) => some ((cat repo).any fun r => r.holds digest)
  | .deleteRepository repo _ => some (cat repo).isSome
  | _ => none

/-- What a call must find to be accepted, where it must find more than that. -/
def Permits : Call → Prop
  | .operation (.purgeManifest repo digest ..) =>
    ∃ r, cat repo = some r ∧ r.holds digest = true ∧ ∀ t, r.labels t ≠ some digest
  | .operation (.retireRepo repo ..) => ∃ r, cat repo = some r ∧ ∀ d, r.contents d = none
  | .deleteBlobReference repo _ => (cat repo).isSome = true
  | _ => True

end Catalog

namespace Store

/-! ## The catalog of a store -/

section Reads
variable (s : Store) (agree : s.TagKeysAgree)

def content (repo : RepoId) (d : Digest) : Option Content :=
  match s.manifestRecord repo d, s.manifestBody repo d with
  | some record, some body => some { mediaType := record.mediaType, body }
  | _, _ => none

include agree in
theorem content_isSome (repo : RepoId) (d : Digest) :
    (s.content repo d).isSome = (s.manifestRecord repo d).isSome := by
  have both := agree.bodies repo d
  rw [has_manifest, has_manifestBody] at both
  unfold content
  cases hr : s.manifestRecord repo d <;> cases hb : s.manifestBody repo d <;>
    simp_all

/-- What is filed under an id. -/
def repository (repo : RepoId) : Repository where
  contents := s.content repo
  labels := s.tagDigest repo
  points t d h := by
    rw [s.content_isSome agree]
    exact agree.tags.stored repo t d h

def catalog : Catalog := fun name => (s.repoByName name).map (s.repository agree)

end Reads


theorem repository_eq {s : Store} {agree : s.TagKeysAgree}
    {repo : RepoId} {r : Repository} (contents : ∀ d, s.content repo d = r.contents d)
    (labels : ∀ tag, s.tagDigest repo tag = r.labels tag) : s.repository agree repo = r :=
  Labelled.ext (funext contents) (funext labels)

theorem content_congr {s t : Store} {repo : RepoId} {d : Digest}
    (record : t.get (.manifest repo d) = s.get (.manifest repo d))
    (body : t.get (.manifestBody repo d) = s.get (.manifestBody repo d)) :
    t.content repo d = s.content repo d := by
  simp only [content, manifestBody, manifestRecord_congr record, body]

section
variable {s t : Store} {agree : s.TagKeysAgree}
  {agree' : t.TagKeysAgree}

theorem repository_same {repo : RepoId} (same : ∀ k, k.aboutContents = true → k.repo = some repo →
    t.get k = s.get k) : t.repository agree' repo = s.repository agree repo :=
  Labelled.ext (funext fun _ => content_congr (same _ rfl rfl) (same _ rfl rfl))
    (funext fun _ => tagDigest_congr (same _ rfl rfl))

/-- A catalog is of the names, and of what is filed under the ids they have. -/
theorem catalog_same (names : ∀ n, t.repoByName n = s.repoByName n)
    (same : ∀ n id k, s.repoByName n = some id → k.aboutContents = true → k.repo = some id →
      t.get k = s.get k) : t.catalog agree' = s.catalog agree := by
  funext n
  rw [catalog, catalog, names]
  cases live : s.repoByName n with
  | none => rfl
  | some id => exact congrArg some (repository_same fun k => same n id k live)

/-- A batch within a repository changes nothing of the others. -/
theorem catalog_within {batch : WriteBatch} {agree' : (s.apply batch).TagKeysAgree} (named : s.Named) {name : Text} {id : RepoId}
    (live : s.repoByName name = some id) (within : batch.Within id) {f : Repository → Repository}
    (own : (s.apply batch).repository agree' id = f (s.repository agree id)) :
    (s.apply batch).catalog agree' = (s.catalog agree).update name f := by
  have names := sameNames_within (s := s) within
  funext n
  rw [catalog, names.repoByName, Directory.update]
  by_cases hn : n = name
  · subst hn
    rw [if_pos rfl, catalog, live, Option.map_some, Option.map_some, Option.map_some, own]
  · rw [if_neg hn, catalog]
    cases other : s.repoByName n with
    | none => rfl
    | some i =>
      have apart : i ≠ id := by
        rintro rfl
        have this := (named.inverse n i).mp other
        rw [(named.inverse name i).mp live] at this
        exact hn (Option.some.inj this).symm
      exact congrArg some (repository_same fun k _ hk =>
        get_apply_of_effect (WriteBatch.effect_of_within within (Key.not_mayTouch hk apart)))

theorem Interned.tagKeysAgree {s t : Store} {name : Text} {id : RepoId} (h : s.Interned name id t)
    (agree : s.TagKeysAgree) : t.TagKeysAgree where
  tags := agree.tags.of_same h.sameContents.records
  bodies repo d := by
    rw [h.sameContents.has rfl, h.sameContents.has rfl]
    exact agree.bodies repo d

/-- A new name is entered with nothing under it. -/
theorem catalog_interned (named : s.Named) {name : Text} {id : RepoId} (h : s.Interned name id t) :
    t.catalog agree' = (s.catalog agree).enter name .empty := by
  funext n
  rw [Directory.enter]
  cases h with
  | known stored =>
    split
    · rename_i hn
      subst hn
      change (s.repoByName n).map _ = some (((s.repoByName n).map _).getD _)
      rw [stored]
      rfl
    · rfl
  | new absent room next =>
    have kept {k : Key} (hk : k.aboutContents = true) :
        (s.apply (RepoInterner.internBatch name id)).get k = s.get k :=
      (Interned.new absent room next).sameContents k hk
    rw [catalog, internBatch_repoByName]
    by_cases hn : n = name
    · subst hn
      rw [if_pos rfl, if_pos rfl, catalog, absent]
      refine congrArg some (repository_eq ?_ ?_)
      · intro d
        have nothing : s.manifestRecord id d = none := by
          cases stored : s.manifestRecord id d with
          | none => rfl
          | some record =>
            have issued := named.data (.manifest id d) id rfl (by rw [has_manifest, stored]; rfl)
            exact absurd issued (next ▸ UInt32.lt_irrefl _)
        rw [content_congr (kept rfl) (kept rfl), content, nothing]
        rfl
      · intro tag
        have nothing : s.tagDigest id tag = none := by
          cases points : s.tagDigest id tag with
          | none => rfl
          | some d =>
            have stored := (agree.tags.reverse id tag d).mp points
            have issued := named.data _ id rfl stored
            exact absurd issued (next ▸ UInt32.lt_irrefl _)
        rw [tagDigest_congr (kept rfl), nothing]
        rfl
    · rw [if_neg hn, if_neg hn, catalog]
      cases s.repoByName n with
      | none => rfl
      | some i => exact congrArg some (repository_same fun k hk _ => kept hk)

/-- A name that is unmapped takes what was under it out of the catalog. -/
theorem catalog_unmapped {name : Text} {id : RepoId} (un : s.Unmapped name id t)
    (same : s.SameContents t) :
    t.catalog agree' = (s.catalog agree).drop name := by
  funext n
  rw [catalog, un.repoByName, Directory.drop]
  split
  · rfl
  · rw [catalog]
    cases s.repoByName n with
    | none => rfl
    | some i => exact congrArg some (repository_same fun k hk _ => same k hk)

end

/-! ## What the writes do under an id -/

section Writes
variable {s : Store} {agree : s.TagKeysAgree} {id : RepoId}

theorem repository_push {c : CheckedPut} {ts ts' : List Tag} (same : ∀ t, t ∈ ts ↔ t ∈ ts')
    {agree' : (s.apply (s.pushBatch id c ts)).TagKeysAgree} :
    (s.apply (s.pushBatch id c ts)).repository agree' id =
      (s.repository agree id).put c.digest c.content ts' := by
  refine repository_eq (fun d => ?_) fun t => ?_
  · change _ = if d = c.digest then some c.content else s.content id d
    have body : (s.apply (s.pushBatch id c ts)).manifestBody id d =
        if d = c.digest then some c.put.body else s.manifestBody id d := by
      unfold manifestBody
      rw [get_apply, pushBatch_manifestBody]
      by_cases hd : d = c.digest
      · simp [hd]
      · simp [hd, Ne.symm hd]
    rw [content, push_manifestRecord, body]
    by_cases hd : d = c.digest
    · subst hd
      simp only [and_self, if_true]
      rfl
    · rw [if_neg fun h => hd h.2.symm, if_neg hd, if_neg hd]
      rfl
  · change _ = if t ∈ ts' then some c.digest else s.tagDigest id t
    simp only [push_tagDigest, true_and, same]

theorem repository_setTag {t : Tag} {target : TagTarget} {now : Timestamp}
    (record : (s.manifestRecord id target.digest).isSome = true)
    {agree' : (s.apply (setTagOps id t (s.tagDigest id t) target now)).TagKeysAgree} :
    (s.apply (setTagOps id t (s.tagDigest id t) target now)).repository agree' id =
      (s.repository agree id).label t target.digest := by
  have held : (s.repository agree id).holds target.digest = true := by
    rw [← record, ← s.content_isSome agree]
    rfl
  refine repository_eq (fun d => ?_) fun u => ?_
  · exact content_congr (get_apply_of_effect (setTagOps_other rfl))
      (get_apply_of_effect (setTagOps_other rfl))
  · change _ = if u = t ∧ _ then some target.digest else s.tagDigest id u
    simp only [setTag_tagDigest, true_and, held, and_true, eq_comm]

theorem repository_deleteTag {t : Tag} {digest : Digest} {manifest : Option ManifestRecord}
    {now : Timestamp} {agree' : (s.apply (deleteTagOps id t digest manifest now)).TagKeysAgree} :
    (s.apply (deleteTagOps id t digest manifest now)).repository agree' id =
      (s.repository agree id).unlabel t := by
  refine repository_eq (fun d => ?_) fun u => ?_
  · exact content_congr (get_apply_of_effect (deleteTagOps_other rfl))
      (get_apply_of_effect (deleteTagOps_other rfl))
  · change _ = if u = t then none else s.tagDigest id u
    simp only [deleteTag_tagDigest, true_and, eq_comm]

theorem repository_delete {digest : Digest} {record : ManifestRecord} {now : Timestamp}
    {agree' : (s.apply (s.manifestDeleteBatch id digest record now)).TagKeysAgree} :
    (s.apply (s.manifestDeleteBatch id digest record now)).repository agree' id =
      (s.repository agree id).remove digest := by
  refine repository_eq (fun d => ?_) fun u => ?_
  · change _ = if d = digest then none else s.content id d
    by_cases hd : d = digest
    · rw [content, manifestDelete_manifestRecord, if_pos ⟨rfl, hd.symm⟩, if_pos hd]
    · rw [if_neg hd]
      refine content_congr (get_apply_of_effect ?_) (get_apply_of_effect ?_)
      · rw [manifestDelete_manifest, if_neg fun h => hd h.2.symm]
      · rw [manifestDelete_manifestBody, if_neg fun h => hd h.2.symm]
  · change _ = if s.tagDigest id u = some digest then none else s.tagDigest id u
    simp only [manifestDelete_tagDigest, true_and, agree.tags.reverse]

end Writes

end Store

/-! ## What a call does to the catalog -/

section
variable {oci : Oci} {options : RegistryOptions} {s t : Store} {c : Call} {accepted : Bool}
  {agree : s.TagKeysAgree}
  {agree' : t.TagKeysAgree}

theorem catalog_after (h : Effect oci options s c true t) (named : s.Named) :
    t.catalog agree' = (s.catalog agree).after oci options c := by
  have quiet {u : Store} (names : s.SameNames u) (same : s.SameContents u) {a : u.TagKeysAgree} :
      u.catalog a = s.catalog agree :=
    Store.catalog_same names.repoByName fun _ _ k _ hk _ => same k hk
  cases h with
  | @putManifest put extraTags checked id s₀ ts hcheck interned held tags =>
    have entered : s₀.catalog (interned.tagKeysAgree agree) =
        (s.catalog agree).enter put.repo .empty := Store.catalog_interned named interned
    simp only [Catalog.after, hcheck]
    rw [← entered]
    exact Store.catalog_within (interned.named named) interned.live (Store.pushBatch_within _ _)
      (Store.repository_push tags)
  | setTag live record =>
    simp only [Catalog.after, validateTag_eq_ok.mpr rfl]
    exact Store.catalog_within named live (setTagOps_within _ _) (Store.repository_setTag record)
  | deleteTag live points =>
    exact Store.catalog_within named live (deleteTagOps_within _ _) Store.repository_deleteTag
  | deleteManifest live stored =>
    exact Store.catalog_within named live (Store.manifestDeleteBatch_within _ _ _)
      Store.repository_delete
  | purgeManifest live stored =>
    exact Store.catalog_within named live (Store.manifestDeleteBatch_within _ _ _)
      Store.repository_delete
  | sweepRepoBlobs =>
    refine quiet (Store.sameNames_apply fun k hk => ?_) (Store.sameContents_apply fun k hk => ?_)
    all_goals
      apply WriteBatch.effect_flatMap_none
      rintro ⟨repo, digest⟩ -
      cases k <;> cases hk <;> rfl
  | scanBlobs =>
    exact quiet
      (Store.sameNames_apply fun k hk => Store.markBatch_other (by rintro d rfl; cases hk))
      (Store.sameContents_apply fun k hk => Store.markBatch_other (by rintro d rfl; cases hk))
  | collectBlob unreferenced =>
    exact quiet (Store.sameNames_apply fun k hk => by cases k <;> cases hk <;> rfl)
      (Store.sameContents_apply fun k hk => by cases k <;> cases hk <;> rfl)
  | retireRepo mapped empty =>
    exact Store.catalog_unmapped (Store.unmapped_retire _ _)
      (Store.sameContents_apply fun k hk => by cases k <;> cases hk <;> rfl)
  | @commitBlob repo digest size now id s₀ interned =>
    have entered : s₀.catalog (interned.tagKeysAgree agree) =
        (s.catalog agree).enter repo .empty := Store.catalog_interned named interned
    simp only [Catalog.after]
    rw [← entered]
    exact Store.catalog_same
      (Store.sameNames_within (Store.blobCommitBatch_within _ _ _)).repoByName
      fun _ _ k _ hk _ => Store.get_apply_of_effect (Store.blobCommitBatch_contents k hk)
  | deleteBlobReference live =>
    exact quiet (Store.sameNames_within (Store.blobReferenceDeleteBatch_within _))
      (Store.sameContents_apply Store.blobReferenceDeleteBatch_contents)
  | @mountBlob repo digest from_ now id s₀ record stored interned =>
    have entered : s₀.catalog (interned.tagKeysAgree agree) =
        (s.catalog agree).enter repo .empty := Store.catalog_interned named interned
    simp only [Catalog.after]
    rw [← entered]
    exact Store.catalog_same
      (Store.sameNames_within (Store.blobCommitBatch_within _ _ _)).repoByName
      fun _ _ k _ hk _ => Store.get_apply_of_effect (Store.blobCommitBatch_contents k hk)
  | deleteRepository mapped =>
    exact Store.catalog_unmapped (Store.unmapped_tombstone _ _ _)
      (Store.sameContents_apply fun k hk => by cases k <;> cases hk <;> rfl)
  | @addPullCounts deltas batch puts =>
    have untouched (k : Key) (hk : k.aboutNames = true ∨ k.aboutContents = true) :
        WriteBatch.effect batch k = none := by
      rw [WriteBatch.effect_eq_none]
      intro op hop
      obtain ⟨g, id, bucket, -, rfl⟩ := puts op hop
      refine if_neg fun h => ?_
      subst h
      unfold CountGroup.key at hk
      split at hk <;> rcases hk with hk | hk <;> cases hk
    exact quiet (Store.sameNames_apply fun k hk => untouched k (Or.inl hk))
      (Store.sameContents_apply fun k hk => untouched k (Or.inr hk))
  | sweepPage dead =>
    exact quiet (Store.sameNames_within (Store.sweepRefsBatch_within _))
      (Store.sameContents_apply fun k hk => Store.sweepRefsBatch_other
        (by rintro b r m rfl; cases hk))
  | @finishSweep i id dead =>
    refine Store.catalog_same
      (Store.sameNames_apply Store.sweepFinishBatch_names).repoByName fun n live k hn hk hr => ?_
    have apart : live ≠ id := by
      rintro rfl
      rw [(named.inverse n live).mp hn] at dead
      cases dead
    rw [Store.get_apply, sweepFinishBatch_effect]
    cases k <;> cases hk <;> simp_all [Key.dropped, Key.repo]
  | startSweep => rfl
  | restart => rfl

end

end Summ
