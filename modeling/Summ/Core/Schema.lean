import Summ.Core.Keys
import Summ.Lib.Fields

/-!
# The key schema over every tag without NUL

The builders take a tag as a string, and the layout asks no more of it than
that NUL is not in it. `RecordKey` is a call of a record-key builder and
`ScanPrefix` one of a prefix builder, both over such tags. A key is a row of
fields; the fields so far say which kind comes next (`Field.next`).
-/

namespace Summ

/-- A tag as the key layout needs it. -/
structure TagText where
  text : Text
  nonempty : text ≠ []
  noNul : '\x00' ∉ text
  deriving DecidableEq

@[ext] theorem TagText.ext {a b : TagText} (h : a.text = b.text) : a = b := by
  cases a; cases b; cases h; rfl

/-- One call of a record-key builder. -/
inductive RecordKey
  | manifest (repo : RepoId) (digest : Digest)
  | manifestBody (repo : RepoId) (digest : Digest)
  | tag (repo : RepoId) (tag : TagText)
  | manifestTag (repo : RepoId) (digest : Digest) (tag : TagText)
  | blob (digest : Digest)
  | blobMark (digest : Digest)
  | blobRef (digest : Digest) (repo : RepoId) (manifest : Digest)
  | repoBlob (repo : RepoId) (digest : Digest)
  | childParent (repo : RepoId) (child parent : Digest)
  | referrer (repo : RepoId) (subject referrer : Digest)
  | upload (id : List.Vector Byte 16)
  | tagHistory (repo : RepoId) (tag : TagText) (at_ : Timestamp) (digest : Digest)
  | manifestTagHistory (repo : RepoId) (digest : Digest) (at_ : Timestamp) (tag : TagText)
  | counterManifest (repo : RepoId) (digest : Digest) (day shard : UInt16)
  | counterTag (repo : RepoId) (tag : TagText) (day shard : UInt16)
  | counterRepo (repo : RepoId) (day shard : UInt16)
  | deadRepo (id : RepoId)
  | repoByName (name : Text)
  | repoById (id : RepoId)
  | dbVersion

def RecordKey.bytes : RecordKey → Bytes
  | manifest repo digest => keys.manifest repo digest
  | manifestBody repo digest => keys.manifestBody repo digest
  | tag repo t => Schema.tag repo t.text
  | manifestTag repo digest t => Schema.manifestTag repo digest t.text
  | blob digest => keys.blob digest
  | blobMark digest => keys.blobMark digest
  | blobRef digest repo m => keys.blobRef digest repo m
  | repoBlob repo digest => keys.repoBlob repo digest
  | childParent repo child parent => keys.childParent repo child parent
  | referrer repo subject r => keys.referrer repo subject r
  | upload id => keys.upload id
  | tagHistory repo t at_ digest => Schema.tagHistory repo t.text at_ digest
  | manifestTagHistory repo digest at_ t => Schema.manifestTagHistory repo digest at_ t.text
  | counterManifest repo digest day shard => keys.counterManifest repo digest day shard
  | counterTag repo t day shard => Schema.counterTag repo t.text day shard
  | counterRepo repo day shard => keys.counterRepo repo day shard
  | deadRepo id => keys.deadRepo id
  | repoByName name => keys.repoByName name
  | repoById id => keys.repoById id
  | dbVersion => keys.dbVersion

/-- One call of a scan-prefix builder. -/
inductive ScanPrefix
  | manifestsInRepo (repo : RepoId)
  | manifestBodiesInRepo (repo : RepoId)
  | tagsInRepo (repo : RepoId)
  | tagsOfManifest (repo : RepoId) (digest : Digest)
  | manifestTagsInRepo (repo : RepoId)
  | blobs
  | blobMarks
  | blobRefs (digest : Digest)
  | blobRefsInRepo (digest : Digest) (repo : RepoId)
  | blobsInRepo (repo : RepoId)
  | repoBlobs
  | parentsOf (repo : RepoId) (child : Digest)
  | childrenInRepo (repo : RepoId)
  | referrersOf (repo : RepoId) (subject : Digest)
  | referrersInRepo (repo : RepoId)
  | uploads
  | tagHistoryOf (repo : RepoId) (tag : TagText)
  | tagHistoryInRepo (repo : RepoId)
  | manifestTagHistoryOf (repo : RepoId) (digest : Digest)
  | manifestTagHistoryInRepo (repo : RepoId)
  | countersOfManifest (repo : RepoId) (digest : Digest)
  | countersOfTag (repo : RepoId) (tag : TagText)
  | countersOfRepo (repo : RepoId)
  | countersInRepoScope (scope : Byte) (repo : RepoId)
  | deadRepos
  | reposByName

namespace ScanPrefix

def bytes : ScanPrefix → Bytes
  | manifestsInRepo repo => keys.manifestsInRepo repo
  | manifestBodiesInRepo repo => keys.manifestBodiesInRepo repo
  | tagsInRepo repo => keys.tagsInRepo repo
  | tagsOfManifest repo digest => keys.tagsOfManifest repo digest
  | manifestTagsInRepo repo => keys.manifestTagsInRepo repo
  | blobs => keys.blobs
  | blobMarks => keys.blobMarks
  | blobRefs digest => keys.blobRefs digest
  | blobRefsInRepo digest repo => keys.blobRefsInRepo digest repo
  | blobsInRepo repo => keys.blobsInRepo repo
  | repoBlobs => keys.repoBlobs
  | parentsOf repo child => keys.parentsOf repo child
  | childrenInRepo repo => keys.childrenInRepo repo
  | referrersOf repo subject => keys.referrersOf repo subject
  | referrersInRepo repo => keys.referrersInRepo repo
  | uploads => keys.uploads
  | tagHistoryOf repo t => Schema.tagHistoryOf repo t.text
  | tagHistoryInRepo repo => keys.tagHistoryInRepo repo
  | manifestTagHistoryOf repo digest => keys.manifestTagHistoryOf repo digest
  | manifestTagHistoryInRepo repo => keys.manifestTagHistoryInRepo repo
  | countersOfManifest repo digest => keys.countersOfManifest repo digest
  | countersOfTag repo t => Schema.countersOfTag repo t.text
  | countersOfRepo repo => keys.countersOfRepo repo
  | countersInRepoScope scope repo => keys.countersInRepoScope scope repo
  | deadRepos => keys.deadRepos
  | reposByName => keys.reposByName

open RecordKey in
/-- The keys a prefix is meant for. -/
def covers : ScanPrefix → RecordKey → Prop
  | manifestsInRepo repo, k => ∃ digest, manifest repo digest = k
  | manifestBodiesInRepo repo, k => ∃ digest, manifestBody repo digest = k
  | tagsInRepo repo, k => ∃ t, tag repo t = k
  | tagsOfManifest repo digest, k => ∃ t, manifestTag repo digest t = k
  | manifestTagsInRepo repo, k => ∃ digest t, manifestTag repo digest t = k
  | blobs, k => ∃ digest, blob digest = k
  | blobMarks, k => ∃ digest, blobMark digest = k
  | blobRefs digest, k => ∃ repo m, blobRef digest repo m = k
  | blobRefsInRepo digest repo, k => ∃ m, blobRef digest repo m = k
  | blobsInRepo repo, k => ∃ digest, repoBlob repo digest = k
  | repoBlobs, k => ∃ repo digest, repoBlob repo digest = k
  | parentsOf repo child, k => ∃ parent, childParent repo child parent = k
  | childrenInRepo repo, k => ∃ child parent, childParent repo child parent = k
  | referrersOf repo subject, k => ∃ r, referrer repo subject r = k
  | referrersInRepo repo, k => ∃ subject r, referrer repo subject r = k
  | uploads, k => ∃ id, upload id = k
  | tagHistoryOf repo t, k => ∃ at_ digest, tagHistory repo t at_ digest = k
  | tagHistoryInRepo repo, k => ∃ t at_ digest, tagHistory repo t at_ digest = k
  | manifestTagHistoryOf repo digest, k => ∃ at_ t, manifestTagHistory repo digest at_ t = k
  | manifestTagHistoryInRepo repo, k => ∃ digest at_ t, manifestTagHistory repo digest at_ t = k
  | countersOfManifest repo digest, k => ∃ day shard, counterManifest repo digest day shard = k
  | countersOfTag repo t, k => ∃ day shard, counterTag repo t day shard = k
  | countersOfRepo repo, k => ∃ day shard, counterRepo repo day shard = k
  | countersInRepoScope scope repo, k =>
    (scope = keys.SCOPE_MANIFEST ∧ ∃ digest day shard,
        counterManifest repo digest day shard = k) ∨
      (scope = keys.SCOPE_TAG ∧ ∃ t day shard, counterTag repo t day shard = k) ∨
      (scope = keys.SCOPE_REPO ∧ ∃ day shard, counterRepo repo day shard = k)
  | deadRepos, k => ∃ id, deadRepo id = k
  | reposByName, k => ∃ name, repoByName name = k

end ScanPrefix

/-! ## Keys as rows of fields -/

inductive Field
  | byte (b : Byte)
  | repo (id : RepoId)
  | digest (d : Digest)
  | uuid (id : List.Vector Byte 16)
  | time (at_ : Timestamp)
  | bucket (day shard : UInt16)
  | tagEnd (tag : TagText)
  | tag (tag : TagText)
  | name (name : Text)

namespace Field

inductive Kind
  | byte
  | repo
  | digest
  | uuid
  | time
  | bucket
  | tagEnd
  | tag
  | name
  deriving DecidableEq

def kind : Field → Kind
  | byte _ => .byte
  | repo _ => .repo
  | digest _ => .digest
  | uuid _ => .uuid
  | time _ => .time
  | bucket _ _ => .bucket
  | tagEnd _ => .tagEnd
  | tag _ => .tag
  | name _ => .name

def encode : Field → Bytes
  | byte b => [b]
  | repo id => keys.repoBytes id
  | digest d => d.encode
  | uuid id => id.toList
  | time at_ => keys.descTime at_
  | bucket day shard => keys.bucket day shard
  | tagEnd t => Bytes.utf8 t.text ++ [keys.TAG_END]
  | tag t => Bytes.utf8 t.text
  | name n => Bytes.utf8 n

open keys in
/-- The kind of field that the fields so far call for. -/
def next : List Field → Option Kind
  | [] => some .byte
  | [byte type] =>
    if type ∈ [PREFIX_MANIFEST, PREFIX_MANIFEST_BODY, PREFIX_TAG, PREFIX_MANIFEST_TAG,
        PREFIX_REPO_BLOB, PREFIX_CHILD_PARENT, PREFIX_REFERRER, PREFIX_TAG_HISTORY,
        PREFIX_MANIFEST_TAG_HISTORY, PREFIX_DEAD_REPO, PREFIX_REPO_BY_ID] then some .repo
    else if type ∈ [PREFIX_BLOB, PREFIX_BLOB_MARK, PREFIX_BLOB_REF] then some .digest
    else if type = PREFIX_UPLOAD then some .uuid
    else if type = PREFIX_COUNTER then some .byte
    else if type = PREFIX_REPO_BY_NAME then some .name
    else none
  | [byte type, repo _] =>
    if type ∈ [PREFIX_MANIFEST, PREFIX_MANIFEST_BODY, PREFIX_MANIFEST_TAG, PREFIX_REPO_BLOB,
        PREFIX_CHILD_PARENT, PREFIX_REFERRER, PREFIX_MANIFEST_TAG_HISTORY] then some .digest
    else if type = PREFIX_TAG then some .tag
    else if type = PREFIX_TAG_HISTORY then some .tagEnd
    else none
  | [byte type, digest _] => if type = PREFIX_BLOB_REF then some .repo else none
  | [byte _, byte _] => some .repo
  | [byte type, repo _, digest _] =>
    if type = PREFIX_MANIFEST_TAG then some .tag
    else if type ∈ [PREFIX_CHILD_PARENT, PREFIX_REFERRER] then some .digest
    else if type = PREFIX_MANIFEST_TAG_HISTORY then some .time
    else none
  | [byte _, digest _, repo _] => some .digest
  | [byte _, repo _, tagEnd _] => some .time
  | [byte _, byte scope, repo _] =>
    if scope = SCOPE_MANIFEST then some .digest
    else if scope = SCOPE_TAG then some .tagEnd
    else if scope = SCOPE_REPO then some .bucket
    else none
  | [byte _, repo _, tagEnd _, time _] => some .digest
  | [byte _, repo _, digest _, time _] => some .tag
  | [byte _, byte _, repo _, digest _] => some .bucket
  | [byte _, byte _, repo _, tagEnd _] => some .bucket
  | _ => none

/-- A field that tells where it ends: any but a tag or a name at the end of a key. -/
def ends : Field → Bool
  | tag _ | name _ => false
  | _ => true

end Field

open keys Summ.Field in
def RecordKey.fields : RecordKey → List Field
  | manifest r d => [byte PREFIX_MANIFEST, repo r, digest d]
  | manifestBody r d => [byte PREFIX_MANIFEST_BODY, repo r, digest d]
  | tag r t => [byte PREFIX_TAG, repo r, .tag t]
  | manifestTag r d t => [byte PREFIX_MANIFEST_TAG, repo r, digest d, .tag t]
  | blob d => [byte PREFIX_BLOB, digest d]
  | blobMark d => [byte PREFIX_BLOB_MARK, digest d]
  | blobRef d r m => [byte PREFIX_BLOB_REF, digest d, repo r, digest m]
  | repoBlob r d => [byte PREFIX_REPO_BLOB, repo r, digest d]
  | childParent r c p => [byte PREFIX_CHILD_PARENT, repo r, digest c, digest p]
  | referrer r s f => [byte PREFIX_REFERRER, repo r, digest s, digest f]
  | upload id => [byte PREFIX_UPLOAD, uuid id]
  | tagHistory r t at_ d => [byte PREFIX_TAG_HISTORY, repo r, tagEnd t, time at_, digest d]
  | manifestTagHistory r d at_ t =>
    [byte PREFIX_MANIFEST_TAG_HISTORY, repo r, digest d, time at_, .tag t]
  | counterManifest r d day shard =>
    [byte PREFIX_COUNTER, byte SCOPE_MANIFEST, repo r, digest d, bucket day shard]
  | counterTag r t day shard =>
    [byte PREFIX_COUNTER, byte SCOPE_TAG, repo r, tagEnd t, bucket day shard]
  | counterRepo r day shard => [byte PREFIX_COUNTER, byte SCOPE_REPO, repo r, bucket day shard]
  | deadRepo id => [byte PREFIX_DEAD_REPO, repo id]
  | repoByName n => [byte PREFIX_REPO_BY_NAME, name n]
  | repoById id => [byte PREFIX_REPO_BY_ID, repo id]
  | dbVersion => [byte PREFIX_DB_VERSION]

open keys Summ.Field in
def ScanPrefix.fields : ScanPrefix → List Field
  | manifestsInRepo r => [byte PREFIX_MANIFEST, repo r]
  | manifestBodiesInRepo r => [byte PREFIX_MANIFEST_BODY, repo r]
  | tagsInRepo r => [byte PREFIX_TAG, repo r]
  | tagsOfManifest r d => [byte PREFIX_MANIFEST_TAG, repo r, digest d]
  | manifestTagsInRepo r => [byte PREFIX_MANIFEST_TAG, repo r]
  | blobs => [byte PREFIX_BLOB]
  | blobMarks => [byte PREFIX_BLOB_MARK]
  | blobRefs d => [byte PREFIX_BLOB_REF, digest d]
  | blobRefsInRepo d r => [byte PREFIX_BLOB_REF, digest d, repo r]
  | blobsInRepo r => [byte PREFIX_REPO_BLOB, repo r]
  | repoBlobs => [byte PREFIX_REPO_BLOB]
  | parentsOf r c => [byte PREFIX_CHILD_PARENT, repo r, digest c]
  | childrenInRepo r => [byte PREFIX_CHILD_PARENT, repo r]
  | referrersOf r s => [byte PREFIX_REFERRER, repo r, digest s]
  | referrersInRepo r => [byte PREFIX_REFERRER, repo r]
  | uploads => [byte PREFIX_UPLOAD]
  | tagHistoryOf r t => [byte PREFIX_TAG_HISTORY, repo r, tagEnd t]
  | tagHistoryInRepo r => [byte PREFIX_TAG_HISTORY, repo r]
  | manifestTagHistoryOf r d => [byte PREFIX_MANIFEST_TAG_HISTORY, repo r, digest d]
  | manifestTagHistoryInRepo r => [byte PREFIX_MANIFEST_TAG_HISTORY, repo r]
  | countersOfManifest r d => [byte PREFIX_COUNTER, byte SCOPE_MANIFEST, repo r, digest d]
  | countersOfTag r t => [byte PREFIX_COUNTER, byte SCOPE_TAG, repo r, tagEnd t]
  | countersOfRepo r => [byte PREFIX_COUNTER, byte SCOPE_REPO, repo r]
  | countersInRepoScope scope r => [byte PREFIX_COUNTER, byte scope, repo r]
  | deadRepos => [byte PREFIX_DEAD_REPO]
  | reposByName => [byte PREFIX_REPO_BY_NAME]

namespace Field

theorem delimited {f : Field} (h : f.ends = true) : Fields.Delimited encode kind f := by
  intro g u v same eq
  cases f <;> cases g <;> try cases same
  case byte.byte => simpa [encode] using eq
  case repo.repo => simpa [encode, keys.repoBytes_append_eq] using eq
  case digest.digest => simpa [encode, keys.encode_append_eq] using eq
  case uuid.uuid a b =>
    obtain ⟨ha, hu⟩ := List.append_inj (show a.toList ++ u = b.toList ++ v from eq) (by simp)
    exact ⟨by rw [List.Vector.toList_injective ha], hu⟩
  case time.time => simpa [encode, keys.descTime_append_eq] using eq
  case bucket.bucket =>
    obtain ⟨ha, hu⟩ := List.append_inj eq (by simp [encode, keys.bucket])
    obtain ⟨rfl, rfl⟩ := keys.bucket_eq.mp ha
    exact ⟨rfl, hu⟩
  case tagEnd.tagEnd a b =>
    simp only [encode, List.append_assoc, List.singleton_append] at eq
    obtain ⟨ha, hu⟩ := Bytes.append_inj_of_delimited (Bytes.zero_not_mem_utf8 a.noNul)
      (Bytes.zero_not_mem_utf8 b.noNul) eq
    exact ⟨congrArg tagEnd (TagText.ext (Bytes.utf8_injective ha)), hu⟩
  case tag.tag => cases h
  case name.name => cases h

theorem encode_inj (f g : Field) (same : f.kind = g.kind) (eq : f.encode = g.encode) : f = g := by
  cases he : f.ends with
  | true => exact (delimited he g [] [] same (by rw [eq])).1
  | false =>
    cases f with
    | tag t =>
      cases g with
      | tag t' => exact congrArg tag (TagText.ext (Bytes.utf8_injective eq))
      | _ => cases same
    | name n =>
      cases g with
      | name n' => exact congrArg name (Bytes.utf8_injective eq)
      | _ => cases same
    | _ => cases he

theorem encode_ne_nil {f : Field} (h : f.ends = true) : f.encode ≠ [] := by
  have nonempty : 0 < f.encode.length := by
    cases f with
    | byte b => simp [encode]
    | repo id => simp [encode]
    | digest d => simp [encode, Digest.encode]
    | uuid id => simp [encode]
    | time at_ => simp [encode, keys.descTime]
    | bucket day shard => simp [encode, keys.bucket]
    | tagEnd t => simp [encode]
    | tag t => cases h
    | name n => cases h
  exact List.ne_nil_of_length_pos nonempty

end Field

namespace RecordKey

theorem bytes_eq (k : RecordKey) : k.bytes = k.fields.flatMap Field.encode := by
  cases k <;>
    simp [bytes, fields, Field.encode, Schema.tag, Schema.manifestTag, Schema.tagHistory,
      Schema.manifestTagHistory, Schema.counterTag, keys.manifest, keys.manifestBody, keys.blob,
      keys.blobMark, keys.blobRef, keys.repoBlob, keys.childParent, keys.referrer, keys.upload,
      keys.counterManifest, keys.counterRepo, keys.deadRepo, keys.repoByName, keys.repoById,
      keys.dbVersion, keys.startRepo, keys.startCounter]

theorem shaped (k : RecordKey) : Fields.Shaped Field.kind Field.next [] k.fields := by
  cases k
  all_goals
    simp only [fields, Fields.Shaped, List.nil_append, List.cons_append]
    repeat' apply And.intro
  all_goals first | rfl | trivial

theorem next_fields (k : RecordKey) : Field.next k.fields = none := by
  cases k <;> rfl

theorem ends_dropLast (k : RecordKey) : ∀ f ∈ k.fields.dropLast, f.ends = true := by
  cases k <;> simp [fields, Field.ends]

theorem fields_injective : Function.Injective fields := by
  intro a b h
  cases a <;> cases b <;> simp_all [fields] <;> exact absurd h.1 (by decide)

/-- Two calls of the builders give equal bytes only if they are the same call. -/
theorem bytes_injective : Function.Injective bytes := by
  intro a b h
  rw [bytes_eq, bytes_eq] at h
  exact fields_injective (Fields.encode_injective a.shaped b.shaped a.next_fields b.next_fields
    (fun f hf => Field.delimited (a.ends_dropLast f hf))
    (fun f hf => Field.delimited (b.ends_dropLast f hf)) Field.encode_inj h)

/-- A key whose last field tells where it ends: it starts no other key. -/
theorem eq_of_bytes_prefix {k k' : RecordKey} (h : ∀ f ∈ k.fields, f.ends = true)
    (starts : k.bytes <+: k'.bytes) : k = k' := by
  rw [bytes_eq, bytes_eq] at starts
  exact fields_injective (Fields.eq_of_encode_prefix k.shaped k'.shaped k.next_fields
    (fun f hf => Field.delimited (h f hf)) (fun f hf => Field.encode_ne_nil (h f hf)) starts)

/-- A key that ends in a digest. -/
def digestTerminated : RecordKey → Bool
  | manifest .. | manifestBody .. | blob .. | blobMark .. | blobRef .. | repoBlob .. => true
  | childParent .. | referrer .. | tagHistory .. => true
  | _ => false

theorem ends_of_digestTerminated {k : RecordKey} (h : k.digestTerminated = true) :
    ∀ f ∈ k.fields, f.ends = true := by
  cases k
  all_goals first | (simp [fields, Field.ends]; done) | cases h

end RecordKey

namespace ScanPrefix

theorem bytes_eq (p : ScanPrefix) : p.bytes = p.fields.flatMap Field.encode := by
  cases p <;>
    simp [bytes, fields, Field.encode, Schema.tagHistoryOf, Schema.countersOfTag,
      keys.manifestsInRepo, keys.manifestBodiesInRepo, keys.tagsInRepo, keys.tagsOfManifest,
      keys.manifestTagsInRepo, keys.blobs, keys.blobMarks, keys.blobRefs, keys.blobRefsInRepo,
      keys.blobsInRepo, keys.repoBlobs, keys.parentsOf, keys.childrenInRepo, keys.referrersOf,
      keys.referrersInRepo, keys.uploads, keys.tagHistoryInRepo, keys.manifestTagHistoryOf,
      keys.manifestTagHistoryInRepo, keys.countersOfManifest, keys.countersOfRepo,
      keys.countersInRepoScope, keys.deadRepos, keys.reposByName, keys.startRepo,
      keys.startCounter]

theorem shaped (p : ScanPrefix) : Fields.Shaped Field.kind Field.next [] p.fields := by
  cases p
  all_goals
    simp only [fields, Fields.Shaped, List.nil_append, List.cons_append]
    repeat' apply And.intro
  all_goals first | rfl | trivial

theorem ends (p : ScanPrefix) : ∀ f ∈ p.fields, f.ends = true := by
  cases p <;> simp [fields, Field.ends]

theorem fields_prefix_iff (p : ScanPrefix) (k : RecordKey) :
    p.fields <+: k.fields ↔ p.covers k := by
  cases p <;> cases k <;> simp [fields, RecordKey.fields, covers, keys.PREFIX_MANIFEST,
    keys.PREFIX_MANIFEST_BODY, keys.PREFIX_TAG, keys.PREFIX_MANIFEST_TAG, keys.PREFIX_BLOB,
    keys.PREFIX_BLOB_MARK, keys.PREFIX_BLOB_REF, keys.PREFIX_REPO_BLOB, keys.PREFIX_CHILD_PARENT,
    keys.PREFIX_REFERRER, keys.PREFIX_UPLOAD, keys.PREFIX_TAG_HISTORY,
    keys.PREFIX_MANIFEST_TAG_HISTORY, keys.PREFIX_COUNTER, keys.PREFIX_DEAD_REPO,
    keys.PREFIX_REPO_BY_NAME, keys.PREFIX_REPO_BY_ID, keys.PREFIX_DB_VERSION,
    keys.SCOPE_MANIFEST, keys.SCOPE_TAG, keys.SCOPE_REPO]

/-- A scan prefix is a byte prefix of exactly the keys it is meant for. -/
theorem bytes_prefix_iff (p : ScanPrefix) (k : RecordKey) :
    p.bytes <+: k.bytes ↔ p.covers k := by
  rw [bytes_eq, RecordKey.bytes_eq, Fields.encode_prefix_iff p.shaped k.shaped
    (fun f hf => Field.delimited (p.ends f hf)) (fun f hf => Field.encode_ne_nil (p.ends f hf)),
    fields_prefix_iff]

end ScanPrefix

end Summ
