import Summ.Lib.Transition
import Summ.Registry.Purge
import Summ.Registry.Push

/-!
# The registry's operations one after another

`Operation` is a request or a purge step, run alone; a failed one leaves the
records as they were. `Outcome` says once what an operation can do to the
records of manifests and tags, so that an invariant over a run is proved by its
cases (`run_outcome`).
-/

namespace Summ

inductive Operation
  | putManifest (put : ManifestPut) (extraTags : List Text)
  | setTag (repo tag : Text) (digest : Digest) (now : Timestamp)
  | deleteTag (repo : Text) (tag : Tag) (now : Timestamp)
  | deleteManifest (repo : Text) (digest : Digest) (now : Timestamp)
  | purgeManifest (repo : Text) (digest : Digest) (pushedBefore now : Timestamp)
  | sweepRepoBlobs (cursor : Option Key) (limit : Nat) (addedBefore : Timestamp)
  | scanBlobs (cursor : Option Key) (limit : Nat) (seenBefore now : Timestamp)
  | collectBlob (digest : Digest) (seenBefore : Timestamp)
  | retireRepo (repo : Text) (live : List RepoId) (internedBefore : RepoId)
  | commitBlob (repo : Text) (digest : Digest) (size : Nat) (now : Timestamp)

namespace Operation

variable (oci : Oci) (r : Registry)

/-- The registry after the operation, whatever it answered. -/
def run : Operation → Registry
  | putManifest put extraTags => (r.putManifest oci put extraTags).2
  | setTag repo tag digest now => (r.setTag oci repo tag digest now).2
  | deleteTag repo tag now => (r.deleteTag repo tag now).2
  | deleteManifest repo digest now => (r.deleteManifest repo digest now).2
  | purgeManifest repo digest pushedBefore now =>
    (r.purgeManifest repo digest pushedBefore now).2
  | sweepRepoBlobs cursor limit addedBefore =>
    { r with store := (r.store.sweepRepoBlobs cursor limit addedBefore false).2 }
  | scanBlobs cursor limit seenBefore now =>
    { r with store := (r.store.scanBlobs cursor limit seenBefore now false).2 }
  | collectBlob digest seenBefore => { r with store := (r.store.collectBlob digest seenBefore).2 }
  | retireRepo repo live internedBefore => (r.retireRepo repo live internedBefore).2
  | commitBlob repo digest size now => (r.commitBlob repo digest size now).2

def step (r : Registry) (op : Operation) : Option Registry := some (op.run oci r)

/-- Every operation can be attempted in every state. -/
theorem exec_eq (ops : List Operation) :
    Transition.exec (step oci) r ops = some (ops.foldl (fun r op => op.run oci r) r) := by
  induction ops generalizing r with
  | nil => rfl
  | cons op ops ih => exact ih _

/-- The tags an operation that succeeds sets or deletes, with the repository
and what it points them at. -/
def retags : Operation → Option (RepoId × List Tag × Option Digest)
  | putManifest put extraTags =>
    match checkPut oci r.options put, r.internRepo put.repo,
        (r.planManifestPutTagged oci put extraTags).1 with
    | .ok c, (.ok repo, _), .ok _ => some (repo, c.validTags extraTags, some c.digest)
    | _, _, _ => none
  | setTag repo tag digest now =>
    match validateTag tag, (r.requireRepo repo).1, (r.planSetTag oci repo tag digest now).1 with
    | .ok t, .ok repo, .ok _ => some (repo, [t], some digest)
    | _, _, _ => none
  | deleteTag repo tag now =>
    match (r.requireRepo repo).1, (r.planDeleteTag repo tag now).1 with
    | .ok repo, .ok _ => some (repo, [tag], none)
    | _, _ => none
  | _ => none

/-- The manifest a push that succeeds stores. -/
def stores : Operation → Option (RepoId × CheckedPut)
  | putManifest put extraTags =>
    match checkPut oci r.options put, r.internRepo put.repo,
        (r.planManifestPutTagged oci put extraTags).1 with
    | .ok c, (.ok repo, _), .ok _ => some (repo, c)
    | _, _, _ => none
  | _ => none

end Operation

/-- The kinds of key that describe manifests and tags. -/
def Key.aboutManifests : Key → Bool
  | .manifest .. | .tag .. | .manifestTag .. | .childParent .. | .referrer .. => true
  | _ => false

/-- Two stores that hold the same manifests, tags, and edges between them. -/
def Store.SameRecords (s t : Store) : Prop := ∀ k, k.aboutManifests = true → t.get k = s.get k

/-- What an operation does to the records of manifests and tags. -/
inductive Outcome (s : Store) (stores : Option (RepoId × CheckedPut))
    (retags : Option (RepoId × List Tag × Option Digest)) : Store → Prop
  | push {s₀ : Store} {repo : RepoId} {c : CheckedPut} {ts : List Tag} (same : s.SameRecords s₀)
      (stored : stores = some (repo, c))
      (tagged : ∃ us, retags = some (repo, us, some c.digest) ∧ ∀ t, t ∈ us ↔ t ∈ ts) :
      Outcome s stores retags (s₀.apply (s₀.pushBatch repo c ts))
  | setTag {repo : RepoId} {t : Tag} {target : TagTarget} {now : Timestamp}
      (record : (s.manifestRecord repo target.digest).isSome = true)
      (tagged : retags = some (repo, [t], some target.digest)) :
      Outcome s stores retags (s.apply (setTagOps repo t (s.tagDigest repo t) target now))
  | deleteTag {repo : RepoId} {t : Tag} {digest : Digest} {manifest : Option ManifestRecord}
      {now : Timestamp} (points : s.tagDigest repo t = some digest)
      (tagged : retags = some (repo, [t], none)) :
      Outcome s stores retags (s.apply (deleteTagOps repo t digest manifest now))
  | deleteManifest {repo : RepoId} {digest : Digest} {record : ManifestRecord} {now : Timestamp}
      (stored : s.manifestRecord repo digest = some record) (untagged : retags = none) :
      Outcome s stores retags (s.apply (s.manifestDeleteBatch repo digest record now))
  | other {t : Store} (same : s.SameRecords t) (untagged : retags = none) :
      Outcome s stores retags t

namespace Store

theorem SameRecords.refl (s : Store) : s.SameRecords s := fun _ _ => rfl

theorem sameRecords_apply {s : Store} {batch : WriteBatch}
    (h : ∀ k, k.aboutManifests = true → WriteBatch.effect batch k = none) :
    s.SameRecords (s.apply batch) := fun k hk => get_apply_of_effect (h k hk)

theorem retractBatch_records (stale : List (RepoId × Digest)) (k : Key)
    (hk : k.aboutManifests = true) : WriteBatch.effect (retractBatch stale) k = none := by
  apply WriteBatch.effect_flatMap_none
  rintro ⟨repo, digest⟩ -
  cases k <;> cases hk <;> rfl

theorem markBatch_records (now : Timestamp) (verdicts : List (Digest × BlobRecord × BlobVerdict))
    (k : Key) (hk : k.aboutManifests = true) :
    WriteBatch.effect (markBatch now verdicts) k = none := by
  apply WriteBatch.effect_flatMap_none
  rintro ⟨digest, record, verdict⟩ -
  cases verdict with
  | referenced marked => cases marked <;> cases k <;> cases hk <;> rfl
  | unmarked | ripe | young => cases k <;> cases hk <;> rfl

theorem blobCommitBatch_records (s : Store) (repo : RepoId) (digest : Digest) (size : Nat)
    (now : Timestamp) (k : Key) (hk : k.aboutManifests = true) :
    WriteBatch.effect (s.blobCommitBatch repo digest size now) k = none := by
  unfold blobCommitBatch
  split <;> cases k <;> cases hk <;> rfl

end Store

namespace Operation

variable {oci : Oci} {r : Registry}

/-- Interning touches no record of a manifest or a tag. -/
theorem intern_sameRecords {name : Text} {r' : Registry} {x : Except RegistryError RepoId}
    (h : r.internRepo name = (x, r')) : r.store.SameRecords r'.store := by
  intro k hk
  have kept : (r.internRepo name).2.store.get k = r.store.get k :=
    r.internRepo_get (by rintro n rfl; cases hk) (by rintro i rfl; cases hk)
  rwa [h] at kept

theorem putManifest_outcome (put : ManifestPut) (extraTags : List Text) :
    Outcome r.store (stores oci r (.putManifest put extraTags))
      (retags oci r (.putManifest put extraTags)) (run oci r (.putManifest put extraTags)).store := by
  simp only [run, Registry.putManifest]
  cases hcheck : checkPut oci r.options put with
  | error e =>
    have : r.planManifestPutTagged oci put extraTags = (.error e, r) := by
      simp [Registry.planManifestPutTagged, hcheck]
    rw [this]
    exact .other (Store.SameRecords.refl _) (by simp [retags, hcheck])
  | ok c =>
    have planned : r.planManifestPutTagged oci put extraTags =
        r.planInterned put.repo fun s repo => s.planPush r.options repo c extraTags := by
      simp [Registry.planManifestPutTagged, hcheck]
    rcases hplan : r.planManifestPutTagged oci put extraTags with ⟨e | p, r'⟩
    · rw [Registry.commit_error]
      have := Registry.planInterned_error (planned.symm.trans hplan)
      exact .other (this ▸ intern_sameRecords rfl) (by simp [retags, hcheck, hplan])
    · obtain ⟨repo, hintern, hpush⟩ := Registry.planInterned_ok (planned.symm.trans hplan)
      obtain ⟨-, ts, hts, hbatch⟩ := Store.planPush_ok hpush
      rw [Registry.commit_ok_store, hbatch]
      refine .push (intern_sameRecords hintern) ?_ ⟨c.validTags extraTags, ?_, ?_⟩
      · simp only [stores, hcheck, hintern, hplan]
      · simp only [retags, hcheck, hintern, hplan]
      · intro t
        rw [CheckedPut.mem_validTags, hts]

theorem setTag_outcome (repo tag : Text) (digest : Digest) (now : Timestamp) :
    Outcome r.store (stores oci r (.setTag repo tag digest now))
      (retags oci r (.setTag repo tag digest now)) (run oci r (.setTag repo tag digest now)).store := by
  simp only [run, Registry.setTag]
  cases htag : validateTag tag with
  | error e =>
    have : r.planSetTag oci repo tag digest now = (.error e, r) := by
      simp [Registry.planSetTag, htag]
    rw [this]
    exact .other (Store.SameRecords.refl _) (by simp [retags, htag])
  | ok t =>
    have planned : r.planSetTag oci repo tag digest now =
        r.planIn repo fun s id => s.planSetTag oci repo id t digest now := by
      simp [Registry.planSetTag, htag]
    rcases hplan : r.planSetTag oci repo tag digest now with ⟨e | p, r'⟩
    · rw [Registry.commit_error, Registry.planIn_error (planned.symm.trans hplan)]
      exact .other (Store.SameRecords.refl _) (by simp [retags, htag, hplan])
    · obtain ⟨store, id, hreq, hset⟩ := Registry.planIn_ok (planned.symm.trans hplan)
      obtain ⟨target, record, hrecord, hdigest, hbatch⟩ := Store.planSetTag_ok hset
      rw [Registry.commit_ok_store, store, hbatch]
      subst hdigest
      refine .setTag (by rw [hrecord]; rfl) ?_
      simp only [retags, htag, hreq, hplan]

theorem deleteTag_outcome (repo : Text) (tag : Tag) (now : Timestamp) :
    Outcome r.store (stores oci r (.deleteTag repo tag now))
      (retags oci r (.deleteTag repo tag now)) (run oci r (.deleteTag repo tag now)).store := by
  simp only [run, Registry.deleteTag]
  rcases hplan : r.planDeleteTag repo tag now with ⟨e | p, r'⟩
  · rw [Registry.commit_error, Registry.planIn_error hplan]
    exact .other (Store.SameRecords.refl _) (by simp [retags, hplan])
  · obtain ⟨store, id, hreq, hdelete⟩ := Registry.planIn_ok hplan
    obtain ⟨record, hrecord, hbatch⟩ := Store.planDeleteTag_ok hdelete
    rw [Registry.commit_ok_store, store, hbatch]
    refine .deleteTag (by simp [Store.tagDigest, hrecord]) ?_
    simp only [retags, hreq, hplan]

theorem deleteManifest_outcome (repo : Text) (digest : Digest) (now : Timestamp) :
    Outcome r.store (stores oci r (.deleteManifest repo digest now))
      (retags oci r (.deleteManifest repo digest now))
      (run oci r (.deleteManifest repo digest now)).store := by
  simp only [run, Registry.deleteManifest]
  rcases hplan : r.planManifestDelete repo digest now with ⟨e | p, r'⟩
  · rw [Registry.commit_error, Registry.planIn_error hplan]
    exact .other (Store.SameRecords.refl _) rfl
  · obtain ⟨store, id, -, hdelete⟩ := Registry.planIn_ok hplan
    obtain ⟨record, hrecord, hbatch⟩ := Store.planManifestDelete_ok hdelete
    rw [Registry.commit_ok_store, store, hbatch]
    exact .deleteManifest hrecord rfl

theorem purgeManifest_outcome (repo : Text) (digest : Digest) (pushedBefore now : Timestamp) :
    Outcome r.store (stores oci r (.purgeManifest repo digest pushedBefore now))
      (retags oci r (.purgeManifest repo digest pushedBefore now))
      (run oci r (.purgeManifest repo digest pushedBefore now)).store := by
  simp only [run, Registry.purgeManifest]
  rcases hplan : r.planIn repo (fun s id => s.planPurgeManifest repo id digest pushedBefore now)
    with ⟨e | p, r'⟩
  · rw [Registry.commit_error, Registry.planIn_error hplan]
    exact .other (Store.SameRecords.refl _) rfl
  · obtain ⟨store, id, -, hpurge⟩ := Registry.planIn_ok hplan
    rw [Registry.commit_ok_store, store]
    rcases Store.planPurgeManifest_ok hpurge with hbatch | ⟨record, hrecord, -, hbatch⟩
    · rw [hbatch]
      exact .other (Store.SameRecords.refl _) rfl
    · rw [hbatch]
      exact .deleteManifest hrecord rfl

/-- What an operation can do to the records of manifests and tags. -/
theorem run_outcome (op : Operation) :
    Outcome r.store (stores oci r op) (retags oci r op) (run oci r op).store := by
  cases op with
  | putManifest put extraTags => exact putManifest_outcome put extraTags
  | setTag repo tag digest now => exact setTag_outcome repo tag digest now
  | deleteTag repo tag now => exact deleteTag_outcome repo tag now
  | deleteManifest repo digest now => exact deleteManifest_outcome repo digest now
  | purgeManifest repo digest pushedBefore now =>
    exact purgeManifest_outcome repo digest pushedBefore now
  | sweepRepoBlobs cursor limit addedBefore =>
    exact .other (Store.sameRecords_apply (Store.retractBatch_records _)) rfl
  | scanBlobs cursor limit seenBefore now =>
    exact .other (Store.sameRecords_apply (Store.markBatch_records now _)) rfl
  | collectBlob digest seenBefore =>
    refine Outcome.other ?_ rfl
    simp only [run, Store.collectBlob]
    split
    · split
      · exact Store.SameRecords.refl _
      · split
        · exact Store.SameRecords.refl _
        · apply Store.sameRecords_apply
          intro k hk
          cases k <;> cases hk <;> rfl
    · exact Store.SameRecords.refl _
  | retireRepo repo live internedBefore =>
    refine Outcome.other ?_ rfl
    simp only [run, Registry.retireRepo, Registry.lookupRepo]
    cases (r.interner.lookup r.store repo).1 with
    | none => exact Store.SameRecords.refl _
    | some id =>
      dsimp only
      split
      · exact Store.SameRecords.refl _
      · apply Store.sameRecords_apply
        intro k hk
        cases k <;> cases hk <;> rfl
  | commitBlob repo digest size now =>
    refine Outcome.other ?_ rfl
    simp only [run, Registry.commitBlob]
    rcases hplan : r.planBlobCommit repo digest size now with ⟨e | p, r'⟩
    · rw [Registry.commit_error, Registry.planInterned_error hplan]
      exact intern_sameRecords rfl
    · obtain ⟨id, hintern, hcommit⟩ := Registry.planInterned_ok hplan
      cases hcommit
      intro k hk
      rw [Registry.commit_ok_store,
        Store.get_apply_of_effect (Store.blobCommitBatch_records _ _ _ _ _ k hk)]
      exact intern_sameRecords hintern k hk

end Operation

/-! ## An index of nothing, an index that lists it, and one that refers to it -/

def EMPTY_INDEX_DIGEST : Text :=
  "sha256:bc5857ac9458293d5111ab85c952172cd7f56bceb4e3014ddc4cafac8927b313".toList

def emptyIndexDescriptor : Descriptor where
  mediaType := OCI_INDEX
  digest := EMPTY_INDEX_DIGEST
  ascii := by decide +kernel
  size := 34
  urls := none
  platform := none

def indexOf (manifests : List Descriptor) (subject : Option Descriptor) : ImageIndex where
  schemaVersion := 2
  artifactType := none
  manifests
  subject
  annotations := none

def EMPTY_INDEX_DESCRIPTOR : Text :=
  "\x7b\"mediaType\":\"application/vnd.oci.image.index.v1+json\",\"digest\":\"".toList ++
    EMPTY_INDEX_DIGEST ++ "\",\"size\":34\x7d".toList

def emptyIndex : Document where
  body := Bytes.utf8 "\x7b\"schemaVersion\":2,\"manifests\":[]\x7d".toList
  sha256 := ⟨[188, 88, 87, 172, 148, 88, 41, 61, 81, 17, 171, 133, 201, 82, 23, 44, 215, 245, 107,
    206, 180, 227, 1, 77, 220, 76, 175, 172, 137, 39, 179, 19], rfl⟩
  index := some (indexOf [] none)

def listingIndex : Document where
  body := Bytes.utf8 ("\x7b\"schemaVersion\":2,\"manifests\":[".toList ++ EMPTY_INDEX_DESCRIPTOR ++
    "]\x7d".toList)
  sha256 := ⟨[209, 134, 236, 100, 93, 50, 187, 150, 202, 189, 5, 131, 96, 190, 150, 145, 245, 144,
    133, 38, 145, 91, 208, 49, 84, 75, 136, 71, 99, 97, 211, 236], rfl⟩
  index := some (indexOf [emptyIndexDescriptor] none)

def referringIndex : Document where
  body := Bytes.utf8 ("\x7b\"schemaVersion\":2,\"manifests\":[],\"subject\":".toList ++
    EMPTY_INDEX_DESCRIPTOR ++ "\x7d".toList)
  sha256 := ⟨[126, 201, 203, 216, 112, 217, 232, 120, 68, 43, 213, 112, 166, 38, 47, 99, 171, 45,
    182, 142, 184, 85, 140, 55, 4, 112, 5, 57, 217, 20, 133, 91], rfl⟩
  index := some (indexOf [] (some emptyIndexDescriptor))

/-- The packages as they answer for the three indexes. -/
def indexOci : Oci := .ofDocuments [emptyIndex, listingIndex, referringIndex]

/-- The push of an index to `app` by a tag or by its digest. -/
def pushIndex (doc : Document) (reference : Reference) (secs : Nat) : Operation :=
  .putManifest {
    repo := "app".toList
    reference
    body := doc.body
    contentType := some OCI_INDEX
    now := .fromSecs secs } []

/-! ## An image with an empty config and no layers -/

def EMPTY_CONFIG : Text := "application/vnd.oci.empty.v1+json".toList

def EMPTY_CONFIG_DIGEST : Text :=
  "sha256:44136fa355b3678a1146ad16f7e8649e94fb4fc21fe77e8310c060f61caaff8a".toList

/-- The digest of the empty JSON object. -/
def emptyConfig : Digest :=
  .sha256 ⟨[68, 19, 111, 163, 85, 179, 103, 138, 17, 70, 173, 22, 247, 232, 100, 158, 148, 251, 79,
    194, 31, 231, 126, 131, 16, 192, 96, 246, 28, 170, 255, 138], rfl⟩

def emptyImage : Document where
  body := Bytes.utf8 ("\x7b\"schemaVersion\":2,\"config\":\x7b\"mediaType\":\"".toList ++
    EMPTY_CONFIG ++ "\",\"digest\":\"".toList ++ EMPTY_CONFIG_DIGEST ++
    "\",\"size\":2\x7d,\"layers\":[]\x7d".toList)
  sha256 := ⟨[145, 248, 98, 252, 207, 111, 132, 157, 238, 195, 73, 188, 102, 205, 157, 175, 255, 239,
    181, 23, 150, 41, 193, 229, 60, 88, 178, 1, 15, 218, 14, 2], rfl⟩
  image := some {
    schemaVersion := 2
    artifactType := none
    config := {
      mediaType := EMPTY_CONFIG
      digest := EMPTY_CONFIG_DIGEST
      ascii := by decide +kernel
      size := 2
      urls := none
      platform := none }
    layers := []
    subject := none
    annotations := none }

def imageOci : Oci := .ofDocuments [emptyImage]

/-- The push of the image to `app` by its digest. -/
def imagePut : ManifestPut where
  repo := "app".toList
  reference := .digest emptyImage.digest
  body := emptyImage.body
  contentType := some OCI_MANIFEST
  now := .fromSecs 1

def checkedImage : CheckedPut where
  put := imagePut
  digest := emptyImage.digest
  parsed := {
    kind := .image
    mediaType := OCI_MANIFEST
    artifactType := none
    referrerArtifactType := some EMPTY_CONFIG
    annotations := []
    subject := none
    blobs := [{ digest := emptyConfig, size := 2, foreign := false }]
    children := [] }

example : (checkPut imageOci {} imagePut).toOption = some checkedImage := by decide +kernel

end Summ
