import Summ.Core.Types
import Summ.Lib.OrderedMap

/-!
# The binary key schema

Every builder of the key module under its own name, as bytes; `Key` is one of
their calls and `Scan` one of the scan prefixes. `Key.bytes_injective` says the
builders never collide, so keys are ordered by their bytes, and `Scan.bytes_prefix_iff`
says which keys each scan prefix selects.
-/

namespace Summ

namespace keys

def PREFIX_MANIFEST : Byte := 77
def PREFIX_MANIFEST_BODY : Byte := 90
def PREFIX_TAG : Byte := 84
def PREFIX_MANIFEST_TAG : Byte := 71
def PREFIX_BLOB : Byte := 66
def PREFIX_BLOB_MARK : Byte := 67
def PREFIX_BLOB_REF : Byte := 82
def PREFIX_REPO_BLOB : Byte := 80
def PREFIX_CHILD_PARENT : Byte := 83
def PREFIX_REFERRER : Byte := 70
def PREFIX_UPLOAD : Byte := 85
def PREFIX_TAG_HISTORY : Byte := 72
def PREFIX_MANIFEST_TAG_HISTORY : Byte := 74
def PREFIX_COUNTER : Byte := 65
def PREFIX_DEAD_REPO : Byte := 68
def PREFIX_REPO_BY_NAME : Byte := 110
def PREFIX_REPO_BY_ID : Byte := 105
def PREFIX_DB_VERSION : Byte := 118

def SCOPE_MANIFEST : Byte := 109
def SCOPE_TAG : Byte := 116
def SCOPE_REPO : Byte := 114

def TAG_END : Byte := 0

/-- `u32::to_be_bytes`. -/
def repoBytes (repo : RepoId) : Bytes := Bytes.be 4 repo.toNat

def startRepo (pre : Byte) (repo : RepoId) : Bytes := pre :: repoBytes repo

def tagBytes (tag : Tag) : Bytes := Bytes.utf8 tag.text

/-- `push_desc_time`: the complemented milliseconds. -/
def descTime (at_ : Timestamp) : Bytes := Bytes.be 8 (2 ^ 64 - 1 - at_.millis)

/-- `push_bucket`. -/
def bucket (day shard : UInt16) : Bytes := Bytes.be 2 day.toNat ++ Bytes.be 2 shard.toNat

def startCounter (scope : Byte) (repo : RepoId) : Bytes :=
  PREFIX_COUNTER :: scope :: repoBytes repo

end keys

/-! ## The builders that take a tag, over strings -/

namespace Schema

open keys

def tag (repo : RepoId) (tag : Text) : Bytes := startRepo PREFIX_TAG repo ++ Bytes.utf8 tag

def manifestTag (repo : RepoId) (digest : Digest) (tag : Text) : Bytes :=
  startRepo PREFIX_MANIFEST_TAG repo ++ digest.encode ++ Bytes.utf8 tag

def tagHistory (repo : RepoId) (tag : Text) (at_ : Timestamp) (digest : Digest) : Bytes :=
  startRepo PREFIX_TAG_HISTORY repo ++ Bytes.utf8 tag ++ TAG_END :: (descTime at_ ++ digest.encode)

def manifestTagHistory (repo : RepoId) (digest : Digest) (at_ : Timestamp) (tag : Text) : Bytes :=
  startRepo PREFIX_MANIFEST_TAG_HISTORY repo ++ digest.encode ++ descTime at_ ++ Bytes.utf8 tag

def counterTag (repo : RepoId) (tag : Text) (day shard : UInt16) : Bytes :=
  startCounter SCOPE_TAG repo ++ Bytes.utf8 tag ++ TAG_END :: bucket day shard

def tagHistoryOf (repo : RepoId) (tag : Text) : Bytes :=
  startRepo PREFIX_TAG_HISTORY repo ++ Bytes.utf8 tag ++ [TAG_END]

def countersOfTag (repo : RepoId) (tag : Text) : Bytes :=
  startCounter SCOPE_TAG repo ++ Bytes.utf8 tag ++ [TAG_END]

/-- `tag_history_before`: strictly before the instant. -/
def tagHistoryBefore (repo : RepoId) (tag : Text) (at_ : Timestamp) : Bytes :=
  tagHistoryOf repo tag ++ Bytes.be 8 (2 ^ 64 - 1 - (at_.millis - 1))

end Schema

namespace keys

/-! ## Records -/

def manifest (repo : RepoId) (digest : Digest) : Bytes :=
  startRepo PREFIX_MANIFEST repo ++ digest.encode

def manifestBody (repo : RepoId) (digest : Digest) : Bytes :=
  startRepo PREFIX_MANIFEST_BODY repo ++ digest.encode

def tag (repo : RepoId) (tag : Tag) : Bytes := Schema.tag repo tag.text

def manifestTag (repo : RepoId) (digest : Digest) (tag : Tag) : Bytes :=
  Schema.manifestTag repo digest tag.text

def blob (digest : Digest) : Bytes := PREFIX_BLOB :: digest.encode

def blobMark (digest : Digest) : Bytes := PREFIX_BLOB_MARK :: digest.encode

def blobRef (digest : Digest) (repo : RepoId) (manifest : Digest) : Bytes :=
  PREFIX_BLOB_REF :: (digest.encode ++ repoBytes repo ++ manifest.encode)

def repoBlob (repo : RepoId) (digest : Digest) : Bytes :=
  startRepo PREFIX_REPO_BLOB repo ++ digest.encode

def childParent (repo : RepoId) (child parent : Digest) : Bytes :=
  startRepo PREFIX_CHILD_PARENT repo ++ child.encode ++ parent.encode

def referrer (repo : RepoId) (subject referrer : Digest) : Bytes :=
  startRepo PREFIX_REFERRER repo ++ subject.encode ++ referrer.encode

def upload (id : List.Vector Byte 16) : Bytes := PREFIX_UPLOAD :: id.toList

def tagHistory (repo : RepoId) (tag : Tag) (at_ : Timestamp) (digest : Digest) : Bytes :=
  Schema.tagHistory repo tag.text at_ digest

def manifestTagHistory (repo : RepoId) (digest : Digest) (at_ : Timestamp) (tag : Tag) : Bytes :=
  Schema.manifestTagHistory repo digest at_ tag.text

def counterManifest (repo : RepoId) (digest : Digest) (day shard : UInt16) : Bytes :=
  startCounter SCOPE_MANIFEST repo ++ digest.encode ++ bucket day shard

def counterTag (repo : RepoId) (tag : Tag) (day shard : UInt16) : Bytes :=
  Schema.counterTag repo tag.text day shard

def counterRepo (repo : RepoId) (day shard : UInt16) : Bytes :=
  startCounter SCOPE_REPO repo ++ bucket day shard

def deadRepo (id : RepoId) : Bytes := PREFIX_DEAD_REPO :: repoBytes id

def repoByName (name : Text) : Bytes := PREFIX_REPO_BY_NAME :: Bytes.utf8 name

def repoById (id : RepoId) : Bytes := PREFIX_REPO_BY_ID :: repoBytes id

def dbVersion : Bytes := [PREFIX_DB_VERSION]

/-! ## Scan prefixes -/

def manifestsInRepo (repo : RepoId) : Bytes := startRepo PREFIX_MANIFEST repo

def manifestBodiesInRepo (repo : RepoId) : Bytes := startRepo PREFIX_MANIFEST_BODY repo

def tagsInRepo (repo : RepoId) : Bytes := startRepo PREFIX_TAG repo

def tagsOfManifest (repo : RepoId) (digest : Digest) : Bytes :=
  startRepo PREFIX_MANIFEST_TAG repo ++ digest.encode

def manifestTagsInRepo (repo : RepoId) : Bytes := startRepo PREFIX_MANIFEST_TAG repo

def blobs : Bytes := [PREFIX_BLOB]

def blobMarks : Bytes := [PREFIX_BLOB_MARK]

def blobRefs (digest : Digest) : Bytes := PREFIX_BLOB_REF :: digest.encode

def blobRefsInRepo (digest : Digest) (repo : RepoId) : Bytes := blobRefs digest ++ repoBytes repo

def blobsInRepo (repo : RepoId) : Bytes := startRepo PREFIX_REPO_BLOB repo

def repoBlobs : Bytes := [PREFIX_REPO_BLOB]

def parentsOf (repo : RepoId) (child : Digest) : Bytes :=
  startRepo PREFIX_CHILD_PARENT repo ++ child.encode

def childrenInRepo (repo : RepoId) : Bytes := startRepo PREFIX_CHILD_PARENT repo

def referrersOf (repo : RepoId) (subject : Digest) : Bytes :=
  startRepo PREFIX_REFERRER repo ++ subject.encode

def referrersInRepo (repo : RepoId) : Bytes := startRepo PREFIX_REFERRER repo

def uploads : Bytes := [PREFIX_UPLOAD]

def tagHistoryOf (repo : RepoId) (tag : Tag) : Bytes := Schema.tagHistoryOf repo tag.text

def tagHistoryInRepo (repo : RepoId) : Bytes := startRepo PREFIX_TAG_HISTORY repo

def manifestTagHistoryOf (repo : RepoId) (digest : Digest) : Bytes :=
  startRepo PREFIX_MANIFEST_TAG_HISTORY repo ++ digest.encode

def manifestTagHistoryInRepo (repo : RepoId) : Bytes := startRepo PREFIX_MANIFEST_TAG_HISTORY repo

def countersOfManifest (repo : RepoId) (digest : Digest) : Bytes :=
  startCounter SCOPE_MANIFEST repo ++ digest.encode

def countersOfTag (repo : RepoId) (tag : Tag) : Bytes := Schema.countersOfTag repo tag.text

def countersOfRepo (repo : RepoId) : Bytes := startCounter SCOPE_REPO repo

def countersInRepoScope (scope : Byte) (repo : RepoId) : Bytes := startCounter scope repo

def deadRepos : Bytes := [PREFIX_DEAD_REPO]

def reposByName : Bytes := [PREFIX_REPO_BY_NAME]

/-! ## Where a scan resumes -/

def tagHistoryBefore (repo : RepoId) (t : Tag) (at_ : Timestamp) : Bytes :=
  Schema.tagHistoryBefore repo t.text at_

def manifestTagHistoryBefore (repo : RepoId) (digest : Digest) (at_ : Timestamp) : Bytes :=
  manifestTagHistoryOf repo digest ++ Bytes.be 8 (2 ^ 64 - 1 - (at_.millis - 1))

/-- `counters_from_day`: a proper prefix of every key of that day. -/
def countersFromDay (scan : Bytes) (day : UInt16) : Bytes := scan ++ Bytes.be 2 day.toNat

end keys

/-- One call of a record-key builder. -/
inductive Key
  | manifest (repo : RepoId) (digest : Digest)
  | manifestBody (repo : RepoId) (digest : Digest)
  | tag (repo : RepoId) (tag : Tag)
  | manifestTag (repo : RepoId) (digest : Digest) (tag : Tag)
  | blob (digest : Digest)
  | blobMark (digest : Digest)
  | blobRef (digest : Digest) (repo : RepoId) (manifest : Digest)
  | repoBlob (repo : RepoId) (digest : Digest)
  | childParent (repo : RepoId) (child parent : Digest)
  | referrer (repo : RepoId) (subject referrer : Digest)
  | upload (id : List.Vector Byte 16)
  | tagHistory (repo : RepoId) (tag : Tag) (at_ : Timestamp) (digest : Digest)
  | manifestTagHistory (repo : RepoId) (digest : Digest) (at_ : Timestamp) (tag : Tag)
  | counterManifest (repo : RepoId) (digest : Digest) (day shard : UInt16)
  | counterTag (repo : RepoId) (tag : Tag) (day shard : UInt16)
  | counterRepo (repo : RepoId) (day shard : UInt16)
  | deadRepo (id : RepoId)
  | repoByName (name : Text)
  | repoById (id : RepoId)
  | dbVersion
  deriving DecidableEq

namespace Key

def bytes : Key → Bytes
  | manifest repo digest => keys.manifest repo digest
  | manifestBody repo digest => keys.manifestBody repo digest
  | tag repo t => keys.tag repo t
  | manifestTag repo digest t => keys.manifestTag repo digest t
  | blob digest => keys.blob digest
  | blobMark digest => keys.blobMark digest
  | blobRef digest repo m => keys.blobRef digest repo m
  | repoBlob repo digest => keys.repoBlob repo digest
  | childParent repo child parent => keys.childParent repo child parent
  | referrer repo subject r => keys.referrer repo subject r
  | upload id => keys.upload id
  | tagHistory repo t at_ digest => keys.tagHistory repo t at_ digest
  | manifestTagHistory repo digest at_ t => keys.manifestTagHistory repo digest at_ t
  | counterManifest repo digest day shard => keys.counterManifest repo digest day shard
  | counterTag repo t day shard => keys.counterTag repo t day shard
  | counterRepo repo day shard => keys.counterRepo repo day shard
  | deadRepo id => keys.deadRepo id
  | repoByName name => keys.repoByName name
  | repoById id => keys.repoById id
  | dbVersion => keys.dbVersion

end Key

/-! ## The builders never collide -/

namespace keys

@[simp] theorem repoBytes_length (repo : RepoId) : (repoBytes repo).length = 4 := by
  simp [repoBytes]

theorem repoBytes_eq {r s : RepoId} : repoBytes r = repoBytes s ↔ r = s := by
  constructor
  · intro h
    exact UInt32.toNat_inj.mp (Bytes.be_inj r.toNat_lt s.toNat_lt h)
  · rintro rfl; rfl

theorem repoBytes_append_eq {r s : RepoId} {u v : Bytes} :
    repoBytes r ++ u = repoBytes s ++ v ↔ r = s ∧ u = v := by
  constructor
  · intro h
    obtain ⟨hr, hu⟩ := List.append_inj h (by simp)
    exact ⟨repoBytes_eq.mp hr, hu⟩
  · rintro ⟨rfl, rfl⟩; rfl

theorem encode_append_eq {d e : Digest} {u v : Bytes} :
    d.encode ++ u = e.encode ++ v ↔ d = e ∧ u = v := by
  constructor
  · exact Digest.encode_append_inj
  · rintro ⟨rfl, rfl⟩; rfl

theorem encode_eq {d e : Digest} : d.encode = e.encode ↔ d = e := by
  constructor
  · exact Digest.encode_injective
  · rintro rfl; rfl

theorem tagBytes_eq {s t : Tag} : tagBytes s = tagBytes t ↔ s = t := by
  constructor
  · intro h
    exact Tag.ext (Bytes.utf8_injective h)
  · rintro rfl; rfl

theorem tagBytes_end_eq {s t : Tag} {u v : Bytes} :
    tagBytes s ++ TAG_END :: u = tagBytes t ++ TAG_END :: v ↔ s = t ∧ u = v := by
  constructor
  · intro h
    obtain ⟨hs, hu⟩ := Bytes.append_inj_of_delimited (Bytes.zero_not_mem_utf8 s.noNul)
      (Bytes.zero_not_mem_utf8 t.noNul) h
    exact ⟨tagBytes_eq.mp hs, hu⟩
  · rintro ⟨rfl, rfl⟩; rfl

theorem tag_eq (repo : RepoId) (t : Tag) : tag repo t = startRepo PREFIX_TAG repo ++ tagBytes t :=
  rfl

theorem manifestTag_eq (repo : RepoId) (digest : Digest) (t : Tag) : manifestTag repo digest t =
    startRepo PREFIX_MANIFEST_TAG repo ++ digest.encode ++ tagBytes t := rfl

theorem tagHistory_eq (repo : RepoId) (t : Tag) (at_ : Timestamp) (digest : Digest) :
    tagHistory repo t at_ digest = startRepo PREFIX_TAG_HISTORY repo ++ tagBytes t ++
      TAG_END :: (descTime at_ ++ digest.encode) := rfl

theorem manifestTagHistory_eq (repo : RepoId) (digest : Digest) (at_ : Timestamp) (t : Tag) :
    manifestTagHistory repo digest at_ t =
      startRepo PREFIX_MANIFEST_TAG_HISTORY repo ++ digest.encode ++ descTime at_ ++ tagBytes t := rfl

theorem counterTag_eq (repo : RepoId) (t : Tag) (day shard : UInt16) : counterTag repo t day shard =
    startCounter SCOPE_TAG repo ++ tagBytes t ++ TAG_END :: bucket day shard := rfl

theorem tagHistoryOf_eq (repo : RepoId) (t : Tag) :
    tagHistoryOf repo t = startRepo PREFIX_TAG_HISTORY repo ++ tagBytes t ++ [TAG_END] := rfl

theorem countersOfTag_eq (repo : RepoId) (t : Tag) :
    countersOfTag repo t = startCounter SCOPE_TAG repo ++ tagBytes t ++ [TAG_END] := rfl

theorem descTime_eq {a b : Timestamp} : descTime a = descTime b ↔ a = b := by
  constructor
  · intro h
    have := Bytes.be_inj (by omega) (by omega) h
    have := a.fits
    have := b.fits
    exact Timestamp.ext (by omega)
  · rintro rfl; rfl

theorem descTime_append_eq {a b : Timestamp} {u v : Bytes} :
    descTime a ++ u = descTime b ++ v ↔ a = b ∧ u = v := by
  constructor
  · intro h
    obtain ⟨ha, hu⟩ := List.append_inj h (by simp [descTime])
    exact ⟨descTime_eq.mp ha, hu⟩
  · rintro ⟨rfl, rfl⟩; rfl

theorem bucket_eq {d e s t : UInt16} : bucket d s = bucket e t ↔ d = e ∧ s = t := by
  constructor
  · intro h
    obtain ⟨hd, hs⟩ := List.append_inj h (by simp)
    exact ⟨UInt16.toNat_inj.mp (Bytes.be_inj d.toNat_lt e.toNat_lt hd),
      UInt16.toNat_inj.mp (Bytes.be_inj s.toNat_lt t.toNat_lt hs)⟩
  · rintro ⟨rfl, rfl⟩; rfl

theorem utf8_eq {s t : Text} : Bytes.utf8 s = Bytes.utf8 t ↔ s = t := by
  constructor
  · exact Bytes.utf8_injective
  · rintro rfl; rfl

end keys

namespace Key

open keys in
/-- Two calls of the builders give equal bytes only if they are the same call. -/
theorem bytes_injective : Function.Injective bytes := by
  intro a b h
  cases a <;> cases b <;>
    first
    | exact absurd (List.cons.inj h).1 (by decide)
    | skip
  all_goals
    simp only [bytes, keys.manifest, keys.manifestBody, tag_eq, manifestTag_eq, keys.blob,
      keys.blobMark, keys.blobRef, keys.repoBlob, keys.childParent, keys.referrer, keys.upload,
      tagHistory_eq, manifestTagHistory_eq, keys.counterManifest, counterTag_eq,
      keys.counterRepo, keys.deadRepo, keys.repoByName, keys.repoById, keys.dbVersion,
      startRepo, startCounter, List.cons_append, List.append_assoc, List.cons.injEq,
      repoBytes_append_eq, repoBytes_eq, encode_append_eq, encode_eq, tagBytes_end_eq,
      tagBytes_eq, descTime_append_eq, bucket_eq, utf8_eq,
      PREFIX_MANIFEST, PREFIX_MANIFEST_BODY, PREFIX_TAG, PREFIX_MANIFEST_TAG, PREFIX_BLOB,
      PREFIX_BLOB_MARK, PREFIX_BLOB_REF, PREFIX_REPO_BLOB, PREFIX_CHILD_PARENT, PREFIX_REFERRER,
      PREFIX_UPLOAD, PREFIX_TAG_HISTORY, PREFIX_MANIFEST_TAG_HISTORY, PREFIX_COUNTER,
      PREFIX_DEAD_REPO, PREFIX_REPO_BY_NAME, PREFIX_REPO_BY_ID, PREFIX_DB_VERSION,
      SCOPE_MANIFEST, SCOPE_TAG, SCOPE_REPO, Fin.reduceEq, false_and, true_and, and_false] at h ⊢ <;>
    first | simpa using h | exact congrArg upload (List.Vector.toList_injective h)

end Key

/-- Keys in the order of their bytes. -/
instance : LinearOrder Key := LinearOrder.lift' Key.bytes Key.bytes_injective

theorem Key.lt_iff {a b : Key} : a < b ↔ a.bytes < b.bytes := Iff.rfl

/-- A scan prefix: a call of a prefix builder, a whole key that is probed with
`exists_prefix`, or the start of a repository name. -/
inductive Scan
  | manifestsInRepo (repo : RepoId)
  | manifestBodiesInRepo (repo : RepoId)
  | tagsInRepo (repo : RepoId)
  | tagsOfManifest (repo : RepoId) (digest : Digest)
  | manifestTagsInRepo (repo : RepoId)
  | blobs
  | blobMarks
  | blobRefs (digest : Digest)
  | blobRefsInRepo (digest : Digest) (repo : RepoId)
  | blobsInRepo (repo : RepoId)
  | repoBlobs
  | parentsOf (repo : RepoId) (child : Digest)
  | childrenInRepo (repo : RepoId)
  | referrersOf (repo : RepoId) (subject : Digest)
  | referrersInRepo (repo : RepoId)
  | uploads
  | tagHistoryOf (repo : RepoId) (tag : Tag)
  | tagHistoryInRepo (repo : RepoId)
  | manifestTagHistoryOf (repo : RepoId) (digest : Digest)
  | manifestTagHistoryInRepo (repo : RepoId)
  | countersOfManifest (repo : RepoId) (digest : Digest)
  | countersOfTag (repo : RepoId) (tag : Tag)
  | countersOfRepo (repo : RepoId)
  | deadRepos
  | reposByName
  | reposNamed (start : Text)
  | manifest (repo : RepoId) (digest : Digest)
  | repoBlob (repo : RepoId) (digest : Digest)
  | countersInRepoScopeManifest (repo : RepoId)
  | countersInRepoScopeTag (repo : RepoId)
  deriving DecidableEq

namespace Scan

def bytes : Scan → Bytes
  | manifestsInRepo repo => keys.manifestsInRepo repo
  | manifestBodiesInRepo repo => keys.manifestBodiesInRepo repo
  | tagsInRepo repo => keys.tagsInRepo repo
  | tagsOfManifest repo digest => keys.tagsOfManifest repo digest
  | manifestTagsInRepo repo => keys.manifestTagsInRepo repo
  | blobs => keys.blobs
  | blobMarks => keys.blobMarks
  | blobRefs digest => keys.blobRefs digest
  | blobRefsInRepo digest repo => keys.blobRefsInRepo digest repo
  | blobsInRepo repo => keys.blobsInRepo repo
  | repoBlobs => keys.repoBlobs
  | parentsOf repo child => keys.parentsOf repo child
  | childrenInRepo repo => keys.childrenInRepo repo
  | referrersOf repo subject => keys.referrersOf repo subject
  | referrersInRepo repo => keys.referrersInRepo repo
  | uploads => keys.uploads
  | tagHistoryOf repo t => keys.tagHistoryOf repo t
  | tagHistoryInRepo repo => keys.tagHistoryInRepo repo
  | manifestTagHistoryOf repo digest => keys.manifestTagHistoryOf repo digest
  | manifestTagHistoryInRepo repo => keys.manifestTagHistoryInRepo repo
  | countersOfManifest repo digest => keys.countersOfManifest repo digest
  | countersOfTag repo t => keys.countersOfTag repo t
  | countersOfRepo repo => keys.countersOfRepo repo
  | deadRepos => keys.deadRepos
  | reposByName => keys.reposByName
  | reposNamed start => keys.repoByName start
  | manifest repo digest => keys.manifest repo digest
  | repoBlob repo digest => keys.repoBlob repo digest
  | countersInRepoScopeManifest repo => keys.countersInRepoScope keys.SCOPE_MANIFEST repo
  | countersInRepoScopeTag repo => keys.countersInRepoScope keys.SCOPE_TAG repo

/-- The keys a scan prefix is meant for. -/
def covers : Scan → Key → Bool
  | manifestsInRepo r, .manifest r' _ => r = r'
  | manifestBodiesInRepo r, .manifestBody r' _ => r = r'
  | tagsInRepo r, .tag r' _ => r = r'
  | tagsOfManifest r d, .manifestTag r' d' _ => r = r' ∧ d = d'
  | manifestTagsInRepo r, .manifestTag r' _ _ => r = r'
  | blobs, .blob _ => true
  | blobMarks, .blobMark _ => true
  | blobRefs d, .blobRef d' _ _ => d = d'
  | blobRefsInRepo d r, .blobRef d' r' _ => d = d' ∧ r = r'
  | blobsInRepo r, .repoBlob r' _ => r = r'
  | repoBlobs, .repoBlob _ _ => true
  | parentsOf r c, .childParent r' c' _ => r = r' ∧ c = c'
  | childrenInRepo r, .childParent r' _ _ => r = r'
  | referrersOf r s, .referrer r' s' _ => r = r' ∧ s = s'
  | referrersInRepo r, .referrer r' _ _ => r = r'
  | uploads, .upload _ => true
  | tagHistoryOf r t, .tagHistory r' t' _ _ => r = r' ∧ t = t'
  | tagHistoryInRepo r, .tagHistory r' _ _ _ => r = r'
  | manifestTagHistoryOf r d, .manifestTagHistory r' d' _ _ => r = r' ∧ d = d'
  | manifestTagHistoryInRepo r, .manifestTagHistory r' _ _ _ => r = r'
  | countersOfManifest r d, .counterManifest r' d' _ _ => r = r' ∧ d = d'
  | countersOfTag r t, .counterTag r' t' _ _ => r = r' ∧ t = t'
  | countersOfRepo r, .counterRepo r' _ _ => r = r'
  | deadRepos, .deadRepo _ => true
  | reposByName, .repoByName _ => true
  | reposNamed start, .repoByName name => Bytes.utf8 start <+: Bytes.utf8 name
  | manifest r d, .manifest r' d' => r = r' ∧ d = d'
  | repoBlob r d, .repoBlob r' d' => r = r' ∧ d = d'
  | countersInRepoScopeManifest r, .counterManifest r' _ _ _ => r = r'
  | countersInRepoScopeTag r, .counterTag r' _ _ _ => r = r'
  | _, _ => false

end Scan

namespace keys

theorem repoBytes_prefix {r s : RepoId} {u : Bytes} : repoBytes r <+: repoBytes s ++ u ↔ r = s := by
  constructor
  · rintro ⟨t, h⟩
    exact (repoBytes_append_eq.mp h).1
  · rintro rfl; exact List.prefix_append _ _

theorem repoBytes_append_prefix {r s : RepoId} {u v : Bytes} :
    repoBytes r ++ u <+: repoBytes s ++ v ↔ r = s ∧ u <+: v := by
  constructor
  · rintro ⟨t, h⟩
    rw [List.append_assoc] at h
    obtain ⟨hr, hu⟩ := repoBytes_append_eq.mp h
    exact ⟨hr, t, hu⟩
  · rintro ⟨rfl, t, rfl⟩
    exact ⟨t, by rw [List.append_assoc]⟩

theorem encode_append_prefix {d e : Digest} {u v : Bytes} :
    d.encode ++ u <+: e.encode ++ v ↔ d = e ∧ u <+: v := by
  constructor
  · rintro ⟨t, h⟩
    rw [List.append_assoc] at h
    obtain ⟨hd, hu⟩ := encode_append_eq.mp h
    exact ⟨hd, t, hu⟩
  · rintro ⟨rfl, t, rfl⟩
    exact ⟨t, by rw [List.append_assoc]⟩

theorem encode_prefix {d e : Digest} {v : Bytes} : d.encode <+: e.encode ++ v ↔ d = e := by
  simpa using encode_append_prefix (d := d) (e := e) (u := []) (v := v)

theorem encode_prefix_encode {d e : Digest} : d.encode <+: e.encode ↔ d = e := by
  simpa using encode_prefix (d := d) (e := e) (v := [])

theorem tagBytes_end_prefix {s t : Tag} {u : Bytes} :
    tagBytes s ++ [TAG_END] <+: tagBytes t ++ TAG_END :: u ↔ s = t := by
  constructor
  · rintro ⟨v, h⟩
    rw [List.append_assoc] at h
    exact (tagBytes_end_eq.mp h).1
  · rintro rfl
    exact ⟨u, by simp⟩

end keys

open keys in
/-- A scan prefix is a byte prefix of exactly the keys it is meant for. -/
theorem Scan.bytes_prefix_iff (p : Scan) (k : Key) : p.bytes <+: k.bytes ↔ p.covers k = true := by
  cases p <;> cases k <;>
    first
    | exact iff_of_false (fun h => absurd (List.cons_prefix_cons.mp h).1 (by decide))
        Bool.false_ne_true
    | skip
  all_goals
    simp only [Scan.bytes, Key.bytes, Scan.covers, keys.manifest, keys.manifestBody, tag_eq,
      manifestTag_eq, keys.blob, keys.blobMark, keys.blobRef, keys.repoBlob, keys.childParent,
      keys.referrer, keys.upload, tagHistory_eq, manifestTagHistory_eq, keys.counterManifest,
      counterTag_eq, keys.counterRepo, keys.deadRepo, keys.repoByName,
      keys.manifestsInRepo, keys.manifestBodiesInRepo, keys.tagsInRepo,
      keys.tagsOfManifest, keys.manifestTagsInRepo, keys.blobs, keys.blobMarks, keys.blobRefs,
      keys.blobRefsInRepo, keys.blobsInRepo, keys.repoBlobs, keys.parentsOf, keys.childrenInRepo,
      keys.referrersOf, keys.referrersInRepo, keys.uploads, tagHistoryOf_eq,
      keys.tagHistoryInRepo, keys.manifestTagHistoryOf, keys.manifestTagHistoryInRepo,
      keys.countersOfManifest, countersOfTag_eq, keys.countersOfRepo, keys.deadRepos,
      keys.reposByName, keys.countersInRepoScope,
      startRepo, startCounter, List.cons_append, List.append_assoc, List.cons_prefix_cons,
      List.nil_prefix, repoBytes_append_prefix, repoBytes_prefix, encode_append_prefix,
      encode_prefix, encode_prefix_encode, tagBytes_end_prefix,
      PREFIX_MANIFEST, PREFIX_MANIFEST_BODY, PREFIX_TAG, PREFIX_MANIFEST_TAG, PREFIX_BLOB,
      PREFIX_BLOB_MARK, PREFIX_BLOB_REF, PREFIX_REPO_BLOB, PREFIX_CHILD_PARENT, PREFIX_REFERRER,
      PREFIX_UPLOAD, PREFIX_TAG_HISTORY, PREFIX_MANIFEST_TAG_HISTORY, PREFIX_COUNTER,
      PREFIX_DEAD_REPO, PREFIX_REPO_BY_NAME,
      SCOPE_MANIFEST, SCOPE_TAG, SCOPE_REPO, Fin.reduceEq, false_and, true_and,
      and_false, and_true, decide_eq_true_eq, Bool.false_eq_true]

end Summ
