import Summ.Registry.Manifest
import Summ.Registry.Reference
import Summ.Registry.State

/-!
# Tags

`setTagOps` and `deleteTagOps` are the writes `stage_set_tag` and
`stage_delete_tag` put into a batch, given what the tag pointed at. The lemmas
after them say what those writes leave at each kind of key.
-/

namespace Summ

structure TagSet where
  displaced : Option Digest

/-- Everything a tag write needs to know about its target. -/
structure TagTarget where
  digest : Digest
  mediaType : Text
  size : Nat
  referrer : ReferrerRecord

/-- A write for an artifact tag's subject, nothing for an ordinary tag. -/
def forSubject (tag : Tag) (op : Digest → MetaOp) : WriteBatch :=
  ((subjectOfArtifactTag tag.text).map op).toList

/-- Repointing retracts the old reverse edge, and the old edge to the subject. -/
def retractOps (repo : RepoId) (tag : Tag) (previous : Option Digest) (digest : Digest) :
    WriteBatch :=
  match previous with
  | none => []
  | some old =>
    if old = digest then []
    else MetaOp.delete (.manifestTag repo old tag) ::
      forSubject tag fun subject => .delete (.referrer repo subject old)

def setTagOps (repo : RepoId) (tag : Tag) (previous : Option Digest) (target : TagTarget)
    (now : Timestamp) : WriteBatch :=
  let event : TagEvent := { event := .created, mediaType := target.mediaType, size := target.size }
  retractOps repo tag previous target.digest ++
  [MetaOp.put (.tag repo tag) (.tag { digest := target.digest, taggedAt := now.secs }) rfl,
    MetaOp.set (.manifestTag repo target.digest tag) rfl,
    MetaOp.put (.tagHistory repo tag now target.digest) (.event event) rfl,
    MetaOp.put (.manifestTagHistory repo target.digest now tag) (.event event) rfl] ++
  forSubject tag fun subject =>
    MetaOp.put (.referrer repo subject target.digest) (.referrer target.referrer) rfl

def deleteTagOps (repo : RepoId) (tag : Tag) (digest : Digest) (manifest : Option ManifestRecord)
    (now : Timestamp) : WriteBatch :=
  let event : TagEvent := {
    event := .deleted
    mediaType := (manifest.map ManifestRecord.mediaType).getD DEFAULT_MEDIA_TYPE
    size := (manifest.map ManifestRecord.size).getD 0 }
  [MetaOp.delete (.tag repo tag), MetaOp.delete (.manifestTag repo digest tag)] ++
  (forSubject tag fun subject => MetaOp.delete (.referrer repo subject digest)) ++
  [MetaOp.put (.tagHistory repo tag now digest) (.event event) rfl,
    MetaOp.put (.manifestTagHistory repo digest now tag) (.event event) rfl]

namespace Store

variable (s : Store)

/-- What a tag points at. -/
def tagDigest (repo : RepoId) (tag : Tag) : Option Digest :=
  (s.tagRecord repo tag).map TagRecord.digest

/-- `stage_set_tag`: the writes, and what the tag pointed at before. -/
def stageSetTag (repo : RepoId) (tag : Text) (target : TagTarget) (now : Timestamp) :
    Except RegistryError (WriteBatch × Option Digest) := do
  let tag ← validateTag tag
  let previous := s.tagDigest repo tag
  return (setTagOps repo tag previous target now, previous)

/-- The `artifactType` a referrers response reports. Only a tag that names an
artifact subject costs a read of the stored body. -/
def tagArtifactType (oci : Oci) (repo : RepoId) (digest : Digest) (tag : Tag)
    (record : ManifestRecord) : Except RegistryError (Option Text) :=
  match subjectOfArtifactTag tag.text, s.manifestBody repo digest with
  | some _, some body =>
    (Manifest.parse oci body (some record.mediaType)).map ParsedManifest.referrerArtifactType
  | _, _ => .ok record.artifactType

/-- `tag_target`: from what is already stored. -/
def tagTarget (oci : Oci) (repo : RepoId) (digest : Digest) (tag : Tag) (record : ManifestRecord) :
    Except RegistryError TagTarget :=
  (s.tagArtifactType oci repo digest tag record).map fun artifactType => {
    digest
    mediaType := record.mediaType
    size := record.size
    referrer := {
      mediaType := record.mediaType
      artifactType
      size := record.size
      annotations := record.annotations } }

/-- `plan_set_tag`, once the repository is resolved. -/
def planSetTag (oci : Oci) (name : Text) (repo : RepoId) (tag : Tag) (digest : Digest)
    (now : Timestamp) : Except RegistryError (Planned TagSet) := do
  let some record := s.manifestRecord repo digest
    | throw (.manifestUnknown name digest.display)
  let target ← s.tagTarget oci repo digest tag record
  let (batch, displaced) ← s.stageSetTag repo tag.text target now
  return { outcome := { displaced }, batch }

/-- `plan_delete_tag`, once the repository is resolved. -/
def planDeleteTag (name : Text) (repo : RepoId) (tag : Tag) (now : Timestamp) :
    Except RegistryError (Planned Digest) :=
  match s.tagRecord repo tag with
  | none => .error (.manifestUnknown name tag.text)
  | some record => .ok {
      outcome := record.digest
      batch := deleteTagOps repo tag record.digest (s.manifestRecord repo record.digest) now }

variable {s} {name : Text} {repo : RepoId} {tag : Tag} {now : Timestamp}

theorem planSetTag_ok {oci : Oci} {digest : Digest} {p : Planned TagSet}
    (h : s.planSetTag oci name repo tag digest now = .ok p) :
    ∃ target record, s.manifestRecord repo digest = some record ∧ target.digest = digest ∧
      p.batch = setTagOps repo tag (s.tagDigest repo tag) target now := by
  unfold planSetTag at h
  cases hrecord : s.manifestRecord repo digest with
  | none => simp [hrecord, throw, throwThe, MonadExceptOf.throw] at h
  | some record =>
    cases hartifact : s.tagArtifactType oci repo digest tag record with
    | error e => simp [hrecord, tagTarget, hartifact, Except.map, bind, Except.bind] at h
    | ok artifactType =>
      have valid : validateTag tag.text = .ok tag := validateTag_eq_ok.mpr rfl
      simp only [hrecord, tagTarget, hartifact, Except.map, stageSetTag, valid, bind, Except.bind,
        pure, Except.pure, Except.ok.injEq] at h
      refine ⟨_, record, rfl, ?_, by rw [← h]⟩
      rfl

theorem planDeleteTag_ok {p : Planned Digest} (h : s.planDeleteTag name repo tag now = .ok p) :
    ∃ record, s.tagRecord repo tag = some record ∧
      p.batch = deleteTagOps repo tag record.digest (s.manifestRecord repo record.digest) now := by
  unfold planDeleteTag at h
  split at h
  · cases h
  · rename_i record hrecord
    cases h
    exact ⟨record, hrecord, rfl⟩

end Store

namespace Registry

variable (r : Registry)

def planSetTag (oci : Oci) (name tag : Text) (digest : Digest) (now : Timestamp) :
    Except RegistryError (Planned TagSet) × Registry :=
  match validateTag tag with
  | .error e => (.error e, r)
  | .ok tag => r.planIn name fun s repo => s.planSetTag oci name repo tag digest now

def setTag (oci : Oci) (name tag : Text) (digest : Digest) (now : Timestamp) :
    Except RegistryError TagSet × Registry :=
  commit (r.planSetTag oci name tag digest now)

def planDeleteTag (name : Text) (tag : Tag) (now : Timestamp) :
    Except RegistryError (Planned Digest) × Registry :=
  r.planIn name fun s repo => s.planDeleteTag name repo tag now

def deleteTag (name : Text) (tag : Tag) (now : Timestamp) :
    Except RegistryError Digest × Registry :=
  commit (r.planDeleteTag name tag now)

end Registry

/-! ## What a tag write leaves -/

/-- The kinds of key a tag write may touch. -/
def Key.aboutTags : Key → Bool
  | .tag .. | .manifestTag .. | .referrer .. | .tagHistory .. | .manifestTagHistory .. => true
  | _ => false

theorem effect_forSubject (tag : Tag) (op : Digest → MetaOp) (k : Key) :
    WriteBatch.effect (forSubject tag op) k =
      (subjectOfArtifactTag tag.text).bind fun subject => (op subject).effect k := by
  unfold forSubject
  cases subjectOfArtifactTag tag.text <;> simp

section SetTag
variable {repo : RepoId} {tag : Tag} {previous : Option Digest} {target : TagTarget}
  {now : Timestamp}

theorem retractOps_manifestTag (digest : Digest) (r : RepoId) (d : Digest) (t : Tag) :
    WriteBatch.effect (retractOps repo tag previous digest) (.manifestTag r d t) =
      if (repo = r ∧ tag = t) ∧ previous = some d ∧ digest ≠ d then some none else none := by
  cases previous with
  | none => simp [retractOps]
  | some old =>
    by_cases hold : old = digest
    · simp_all [retractOps]
    · by_cases hd : old = d
      · subst hd
        simp [retractOps, hold, effect_forSubject, MetaOp.effect, Ne.symm hold]
      · simp [retractOps, hold, effect_forSubject, MetaOp.effect, hd]

theorem retractOps_referrer (digest : Digest) (r : RepoId) (subject d : Digest) :
    WriteBatch.effect (retractOps repo tag previous digest) (.referrer r subject d) =
      if (repo = r ∧ subjectOfArtifactTag tag.text = some subject) ∧
          previous = some d ∧ digest ≠ d then some none
      else none := by
  cases previous with
  | none => simp [retractOps]
  | some old =>
    by_cases hold : old = digest
    · simp_all [retractOps]
    · cases hs : subjectOfArtifactTag tag.text with
      | none => simp [retractOps, hold, effect_forSubject, MetaOp.effect, hs]
      | some subject' =>
        by_cases hd : old = d
        · subst hd
          simp [retractOps, hold, effect_forSubject, MetaOp.effect, hs, Ne.symm hold]
        · simp [retractOps, hold, effect_forSubject, MetaOp.effect, hs, hd]

theorem retractOps_other {digest : Digest} {k : Key} (ht : ∀ r d t, k ≠ .manifestTag r d t)
    (hr : ∀ r s d, k ≠ .referrer r s d) :
    WriteBatch.effect (retractOps repo tag previous digest) k = none := by
  unfold retractOps
  split
  · rfl
  · split
    · rfl
    · simp [effect_forSubject, MetaOp.effect, Ne.symm (ht _ _ _), Ne.symm (hr _ _ _)]

theorem setTagOps_tag (r : RepoId) (t : Tag) :
    WriteBatch.effect (setTagOps repo tag previous target now) (.tag r t) =
      if repo = r ∧ tag = t then
        some (some (.tag { digest := target.digest, taggedAt := now.secs }))
      else none := by
  simp [setTagOps, effect_forSubject, MetaOp.effect, MetaOp.set, retractOps_other]

theorem setTagOps_manifestTag (r : RepoId) (d : Digest) (t : Tag) :
    WriteBatch.effect (setTagOps repo tag previous target now) (.manifestTag r d t) =
      if repo = r ∧ tag = t then
        if target.digest = d then some (some .edge)
        else if previous = some d then some none else none
      else none := by
  by_cases hkey : repo = r ∧ tag = t
  · obtain ⟨rfl, rfl⟩ := hkey
    by_cases hd : target.digest = d <;>
      simp [setTagOps, effect_forSubject, MetaOp.effect, MetaOp.set, retractOps_manifestTag, hd]
  · have hne : ¬ (repo = r ∧ target.digest = d ∧ tag = t) := fun h => hkey ⟨h.1, h.2.2⟩
    simp [setTagOps, effect_forSubject, MetaOp.effect, MetaOp.set, retractOps_manifestTag, hkey,
      hne]

theorem setTagOps_referrer (r : RepoId) (subject d : Digest) :
    WriteBatch.effect (setTagOps repo tag previous target now) (.referrer r subject d) =
      if repo = r ∧ subjectOfArtifactTag tag.text = some subject then
        if target.digest = d then some (some (.referrer target.referrer))
        else if previous = some d then some none else none
      else none := by
  have puts : WriteBatch.effect (forSubject tag fun subject' =>
        .put (.referrer repo subject' target.digest) (.referrer target.referrer) rfl)
        (.referrer r subject d) =
      if (repo = r ∧ subjectOfArtifactTag tag.text = some subject) ∧ target.digest = d then
        some (some (.referrer target.referrer))
      else none := by
    rw [effect_forSubject]
    cases subjectOfArtifactTag tag.text <;> simp [MetaOp.effect, and_assoc]
  simp only [setTagOps, WriteBatch.effect_append, puts, retractOps_referrer]
  by_cases hkey : repo = r ∧ subjectOfArtifactTag tag.text = some subject
  · by_cases hd : target.digest = d <;> simp [MetaOp.effect, MetaOp.set, hkey, hd]
  · simp [MetaOp.effect, MetaOp.set, hkey]

theorem setTagOps_other {k : Key} (h : k.aboutTags = false) :
    WriteBatch.effect (setTagOps repo tag previous target now) k = none := by
  have kept : WriteBatch.effect (retractOps repo tag previous target.digest) k = none := by
    apply retractOps_other
    · rintro r d t rfl
      cases h
    · rintro r s d rfl
      cases h
  cases k <;>
    simp_all [setTagOps, effect_forSubject, MetaOp.effect, MetaOp.set, Key.aboutTags]

end SetTag

section DeleteTag
variable {repo : RepoId} {tag : Tag} {digest : Digest} {manifest : Option ManifestRecord}
  {now : Timestamp}

theorem deleteTagOps_tag (r : RepoId) (t : Tag) :
    WriteBatch.effect (deleteTagOps repo tag digest manifest now) (.tag r t) =
      if repo = r ∧ tag = t then some none else none := by
  simp [deleteTagOps, effect_forSubject, MetaOp.effect]

theorem deleteTagOps_manifestTag (r : RepoId) (d : Digest) (t : Tag) :
    WriteBatch.effect (deleteTagOps repo tag digest manifest now) (.manifestTag r d t) =
      if repo = r ∧ digest = d ∧ tag = t then some none else none := by
  simp [deleteTagOps, effect_forSubject, MetaOp.effect]

theorem deleteTagOps_referrer (r : RepoId) (subject d : Digest) :
    WriteBatch.effect (deleteTagOps repo tag digest manifest now) (.referrer r subject d) =
      if repo = r ∧ digest = d ∧ subjectOfArtifactTag tag.text = some subject then some none
      else none := by
  cases hs : subjectOfArtifactTag tag.text with
  | none => simp [deleteTagOps, effect_forSubject, MetaOp.effect, hs]
  | some subject' =>
    by_cases hsub : subject' = subject <;>
      simp [deleteTagOps, effect_forSubject, MetaOp.effect, hs, hsub]

theorem deleteTagOps_other {k : Key} (h : k.aboutTags = false) :
    WriteBatch.effect (deleteTagOps repo tag digest manifest now) k = none := by
  cases k <;> simp_all [deleteTagOps, effect_forSubject, MetaOp.effect, Key.aboutTags]

end DeleteTag

/-! ## What a tag points at after a write -/

namespace Store

variable {s : Store} {repo : RepoId} {tag : Tag} {now : Timestamp}

theorem tagDigest_eq (r : RepoId) (t : Tag) :
    s.tagDigest r t = (s.get (.tag r t)).bind fun
      | .tag record => some record.digest
      | _ => none := by
  unfold tagDigest tagRecord
  cases s.get (.tag r t) with
  | none => rfl
  | some v => cases v <;> rfl

theorem tagDigest_congr {t : Store} {r : RepoId} {u : Tag}
    (h : t.get (.tag r u) = s.get (.tag r u)) : t.tagDigest r u = s.tagDigest r u := by
  simp only [tagDigest_eq, h]

theorem setTag_tagDigest {previous : Option Digest} {target : TagTarget} (r : RepoId) (t : Tag) :
    (s.apply (setTagOps repo tag previous target now)).tagDigest r t =
      if repo = r ∧ tag = t then some target.digest else s.tagDigest r t := by
  simp only [tagDigest_eq, get_apply, setTagOps_tag]
  split <;> rfl

theorem deleteTag_tagDigest {digest : Digest} {manifest : Option ManifestRecord} (r : RepoId)
    (t : Tag) :
    (s.apply (deleteTagOps repo tag digest manifest now)).tagDigest r t =
      if repo = r ∧ tag = t then none else s.tagDigest r t := by
  simp only [tagDigest_eq, get_apply, deleteTagOps_tag]
  split <;> rfl

end Store

end Summ
