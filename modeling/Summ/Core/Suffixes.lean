import Summ.Core.Schema

/-!
# Reading keys back

The decoders that take a key's arguments off its tail, and that each gives back
what its builder was called with. Then the three orders a digest has.
-/

namespace Summ

/-- `slice.get(n..)`. -/
def getFrom (key : Bytes) (n : Nat) : Option Bytes :=
  if n ≤ key.length then some (key.drop n) else none

/-- `slice.strip_prefix`. -/
def stripFront (key front : Bytes) : Option Bytes :=
  if front <+: key then some (key.drop front.length) else none

/-- `u32::from_be_bytes`, of a slice that may have another length. -/
def repoOfBytes (b : Bytes) : Option RepoId :=
  if b.length = 4 then some (UInt32.ofNat (Bytes.ofBe b)) else none

namespace keys

def REPO_LEN : Nat := 4

def parseManifestTagSuffix (key : Bytes) (digest : Digest) : Option Text :=
  (getFrom key (1 + REPO_LEN + digest.encodedLen)).bind Bytes.ofUtf8

def parseTagSuffix (key : Bytes) : Option Text :=
  if key.head? ≠ some PREFIX_TAG then none
  else (getFrom key (1 + REPO_LEN)).bind Bytes.ofUtf8

/-- `read_desc_time`. -/
def readDescTime (bytes : Bytes) : Option Timestamp :=
  if 8 ≤ bytes.length then
    some ⟨2 ^ 64 - 1 - Bytes.ofBe (bytes.take 8), by omega⟩
  else none

def tagHistorySuffix (key scan : Bytes) : Option (Timestamp × Digest) := do
  let rest ← stripFront key scan
  let at_ ← readDescTime rest
  let (digest, _) ← Digest.decode (← getFrom rest 8)
  return (at_, digest)

def manifestTagHistorySuffix (key scan : Bytes) : Option (Timestamp × Text) := do
  let rest ← stripFront key scan
  let at_ ← readDescTime rest
  return (at_, ← Bytes.ofUtf8 (← getFrom rest 8))

def counterSuffix (key scan : Bytes) : Option (UInt16 × UInt16) := do
  let rest ← stripFront key scan
  if rest.length ≠ 4 then none
  else some (UInt16.ofNat (Bytes.ofBe (rest.take 2)), UInt16.ofNat (Bytes.ofBe (rest.drop 2)))

def parseDeadRepoId (key : Bytes) : Option RepoId :=
  if key.head? ≠ some PREFIX_DEAD_REPO then none else (getFrom key 1).bind repoOfBytes

def parseRepoName (key : Bytes) : Option Text :=
  if key.head? ≠ some PREFIX_REPO_BY_NAME then none else (getFrom key 1).bind Bytes.ofUtf8

end keys

namespace suffix

def REPO_SCOPED_HEAD : Nat := 1 + 4

/-- The digest right after a key's repository. -/
def digestAfterRepo (key : Bytes) : Option Digest :=
  (getFrom key REPO_SCOPED_HEAD).bind fun rest => (Digest.decode rest).map Prod.fst

def secondDigestAfterRepo (key : Bytes) : Option Digest := do
  let (_, used) ← Digest.decode (← getFrom key REPO_SCOPED_HEAD)
  let (second, _) ← Digest.decode (← getFrom key (REPO_SCOPED_HEAD + used))
  return second

/-- The repository and the manifest of an `R` key. -/
def blobRefTarget (key : Bytes) : Option (RepoId × Digest) := do
  let (_, used) ← Digest.decode (← getFrom key 1)
  let repoAt := 1 + used
  let repo ← repoOfBytes ((← getFrom key repoAt).take 4)
  let (manifest, _) ← Digest.decode (← getFrom key (repoAt + 4))
  return (repo, manifest)

/-- `digest_of_blob_key`, of purge. -/
def digestOfBlobKey (key : Bytes) : Option Digest :=
  (getFrom key 1).bind fun rest => (Digest.decode rest).map Prod.fst

end suffix

open keys suffix in
/-- Each decoder of the key's range gives back what the key was built from. -/
def RecordKey.ReadsBack (k : RecordKey) : Prop :=
  match k with
  | .manifest _ digest => digestAfterRepo k.bytes = some digest
  | .manifestBody _ digest => digestAfterRepo k.bytes = some digest
  | .tag _ t => parseTagSuffix k.bytes = some t.text
  | .manifestTag _ digest t =>
    digestAfterRepo k.bytes = some digest ∧ parseManifestTagSuffix k.bytes digest = some t.text
  | .blob digest => digestOfBlobKey k.bytes = some digest
  | .blobMark digest => digestOfBlobKey k.bytes = some digest
  | .blobRef _ repo m => blobRefTarget k.bytes = some (repo, m)
  | .repoBlob _ digest => digestAfterRepo k.bytes = some digest
  | .childParent _ child parent =>
    digestAfterRepo k.bytes = some child ∧ secondDigestAfterRepo k.bytes = some parent
  | .referrer _ subject r =>
    digestAfterRepo k.bytes = some subject ∧ secondDigestAfterRepo k.bytes = some r
  | .tagHistory repo t at_ digest =>
    tagHistorySuffix k.bytes (Schema.tagHistoryOf repo t.text) = some (at_, digest)
  | .manifestTagHistory repo digest at_ t =>
    manifestTagHistorySuffix k.bytes (manifestTagHistoryOf repo digest) = some (at_, t.text)
  | .counterManifest repo digest day shard =>
    counterSuffix k.bytes (countersOfManifest repo digest) = some (day, shard)
  | .counterTag repo t day shard =>
    counterSuffix k.bytes (Schema.countersOfTag repo t.text) = some (day, shard)
  | .counterRepo repo day shard => counterSuffix k.bytes (countersOfRepo repo) = some (day, shard)
  | .deadRepo id => parseDeadRepoId k.bytes = some id
  | .repoByName name => parseRepoName k.bytes = some name
  | .upload _ | .repoById _ | .dbVersion => True

/-! ## Each decoder on what its builder wrote -/

theorem getFrom_append (front rest : Bytes) {n : Nat} (h : front.length = n) :
    getFrom (front ++ rest) n = some rest := by
  rw [getFrom, if_pos (by simp [← h]), List.drop_left' h]

theorem stripFront_append (front rest : Bytes) : stripFront (front ++ rest) front = some rest := by
  rw [stripFront, if_pos (List.prefix_append front rest), List.drop_left' rfl]

@[simp] theorem repoOfBytes_repoBytes (repo : RepoId) :
    repoOfBytes (keys.repoBytes repo) = some repo := by
  rw [repoOfBytes, if_pos (keys.repoBytes_length repo), keys.repoBytes,
    Bytes.ofBe_be repo.toNat_lt, UInt32.ofNat_toNat]

theorem readDescTime_descTime (at_ : Timestamp) (rest : Bytes) :
    keys.readDescTime (keys.descTime at_ ++ rest) = some at_ := by
  have length : (keys.descTime at_).length = 8 := by simp [keys.descTime]
  have fits := at_.fits
  rw [keys.readDescTime, if_pos (by simp [length])]
  congr 1
  apply Timestamp.ext
  change 2 ^ 64 - 1 - Bytes.ofBe ((keys.descTime at_ ++ rest).take 8) = at_.millis
  rw [List.take_left' length, keys.descTime, Bytes.ofBe_be (by omega)]
  omega

theorem counterSuffix_bucket (scan : Bytes) (day shard : UInt16) :
    keys.counterSuffix (scan ++ keys.bucket day shard) scan = some (day, shard) := by
  have length : (Bytes.be 2 day.toNat).length = 2 := by simp
  simp only [keys.counterSuffix, stripFront_append, Option.bind_eq_bind, Option.bind_some]
  rw [if_neg (by simp [keys.bucket]), keys.bucket, List.take_left' length, List.drop_left' length,
    Bytes.ofBe_be day.toNat_lt, Bytes.ofBe_be shard.toNat_lt, UInt16.ofNat_toNat,
    UInt16.ofNat_toNat]

theorem startRepo_length (pre : Byte) (repo : RepoId) :
    (keys.startRepo pre repo).length = suffix.REPO_SCOPED_HEAD := by
  simp [keys.startRepo, suffix.REPO_SCOPED_HEAD]

theorem digestAfterRepo_eq (pre : Byte) (repo : RepoId) (digest : Digest) (rest : Bytes) :
    suffix.digestAfterRepo (keys.startRepo pre repo ++ (digest.encode ++ rest)) = some digest := by
  rw [suffix.digestAfterRepo, getFrom_append _ _ (startRepo_length pre repo), Option.bind_some,
    Digest.decode_encode, Option.map_some]

theorem secondDigestAfterRepo_eq (pre : Byte) (repo : RepoId) (first second : Digest) :
    suffix.secondDigestAfterRepo (keys.startRepo pre repo ++ (first.encode ++ second.encode)) =
      some second := by
  have head := getFrom_append _ (first.encode ++ second.encode) (startRepo_length pre repo)
  have front : (keys.startRepo pre repo ++ first.encode).length =
      suffix.REPO_SCOPED_HEAD + first.encodedLen := by
    simp [startRepo_length]
  have tail := getFrom_append _ second.encode front
  rw [List.append_assoc] at tail
  have decoded := Digest.decode_encode second []
  rw [List.append_nil] at decoded
  simp only [suffix.secondDigestAfterRepo, head, Option.bind_eq_bind, Option.bind_some,
    Digest.decode_encode, tail, decoded, Option.pure_def]

theorem blobRefTarget_eq (pre : Byte) (blob : Digest) (repo : RepoId) (manifest : Digest) :
    suffix.blobRefTarget (pre :: (blob.encode ++ (keys.repoBytes repo ++ manifest.encode))) =
      some (repo, manifest) := by
  have head : getFrom (pre :: (blob.encode ++ (keys.repoBytes repo ++ manifest.encode))) 1 =
      some (blob.encode ++ (keys.repoBytes repo ++ manifest.encode)) :=
    getFrom_append [pre] _ rfl
  have middle : getFrom (pre :: (blob.encode ++ (keys.repoBytes repo ++ manifest.encode)))
      (1 + blob.encodedLen) = some (keys.repoBytes repo ++ manifest.encode) := by
    have length : (pre :: blob.encode).length = 1 + blob.encodedLen := by simp [Nat.add_comm]
    simpa using getFrom_append _ (keys.repoBytes repo ++ manifest.encode) length
  have tail : getFrom (pre :: (blob.encode ++ (keys.repoBytes repo ++ manifest.encode)))
      (1 + blob.encodedLen + 4) = some manifest.encode := by
    have length : (pre :: (blob.encode ++ keys.repoBytes repo)).length =
        1 + blob.encodedLen + 4 := by
      simp
      omega
    simpa using getFrom_append _ manifest.encode length
  have decoded := Digest.decode_encode manifest []
  rw [List.append_nil] at decoded
  simp only [suffix.blobRefTarget, head, Option.bind_eq_bind, Option.bind_some,
    Digest.decode_encode, middle, tail, decoded, List.take_left' (keys.repoBytes_length repo),
    repoOfBytes_repoBytes, Option.pure_def]

theorem digestOfBlobKey_eq (pre : Byte) (digest : Digest) :
    suffix.digestOfBlobKey (pre :: digest.encode) = some digest := by
  have rest : getFrom (pre :: digest.encode) 1 = some digest.encode := getFrom_append [pre] _ rfl
  have decoded := Digest.decode_encode digest []
  rw [List.append_nil] at decoded
  rw [suffix.digestOfBlobKey, rest, Option.bind_some, decoded, Option.map_some]

theorem tagHistorySuffix_eq (scan : Bytes) (at_ : Timestamp) (digest : Digest) :
    keys.tagHistorySuffix (scan ++ (keys.descTime at_ ++ digest.encode)) scan =
      some (at_, digest) := by
  have length : (keys.descTime at_).length = 8 := by simp [keys.descTime]
  have decoded := Digest.decode_encode digest []
  rw [List.append_nil] at decoded
  simp only [keys.tagHistorySuffix, stripFront_append, Option.bind_eq_bind, Option.bind_some,
    readDescTime_descTime, getFrom_append _ digest.encode length, decoded, Option.pure_def]

theorem manifestTagHistorySuffix_eq (scan : Bytes) (at_ : Timestamp) (tag : Text) :
    keys.manifestTagHistorySuffix (scan ++ (keys.descTime at_ ++ Bytes.utf8 tag)) scan =
      some (at_, tag) := by
  have length : (keys.descTime at_).length = 8 := by simp [keys.descTime]
  simp only [keys.manifestTagHistorySuffix, stripFront_append, Option.bind_eq_bind,
    Option.bind_some, readDescTime_descTime, getFrom_append _ (Bytes.utf8 tag) length,
    Bytes.ofUtf8_utf8, Option.pure_def]

open keys suffix in
/-- The decoders of the key ranges invert the builders. -/
theorem RecordKey.readsBack (k : RecordKey) : k.ReadsBack := by
  cases k with
  | manifest r d =>
    simpa [ReadsBack, bytes, keys.manifest] using digestAfterRepo_eq PREFIX_MANIFEST r d []
  | manifestBody r d =>
    simpa [ReadsBack, bytes, keys.manifestBody] using
      digestAfterRepo_eq PREFIX_MANIFEST_BODY r d []
  | tag r t =>
    have rest := getFrom_append _ (Bytes.utf8 t.text) (startRepo_length PREFIX_TAG r)
    rw [ReadsBack, bytes, Schema.tag, parseTagSuffix, if_neg (by simp [startRepo])]
    change (getFrom _ REPO_SCOPED_HEAD).bind _ = _
    rw [rest, Option.bind_some, Bytes.ofUtf8_utf8]
  | manifestTag r d t =>
    have head := digestAfterRepo_eq PREFIX_MANIFEST_TAG r d (Bytes.utf8 t.text)
    have length : (startRepo PREFIX_MANIFEST_TAG r ++ d.encode).length =
        1 + REPO_LEN + d.encodedLen := by
      simp [startRepo_length, REPO_SCOPED_HEAD, REPO_LEN]
    refine ⟨by simpa [bytes, Schema.manifestTag] using head, ?_⟩
    rw [bytes, Schema.manifestTag, parseManifestTagSuffix, getFrom_append _ _ length,
      Option.bind_some, Bytes.ofUtf8_utf8]
  | blob d => exact digestOfBlobKey_eq PREFIX_BLOB d
  | blobMark d => exact digestOfBlobKey_eq PREFIX_BLOB_MARK d
  | blobRef d r m =>
    simpa [ReadsBack, bytes, keys.blobRef] using blobRefTarget_eq PREFIX_BLOB_REF d r m
  | repoBlob r d =>
    simpa [ReadsBack, bytes, keys.repoBlob] using digestAfterRepo_eq PREFIX_REPO_BLOB r d []
  | childParent r c p =>
    have first := digestAfterRepo_eq PREFIX_CHILD_PARENT r c p.encode
    have second := secondDigestAfterRepo_eq PREFIX_CHILD_PARENT r c p
    rw [ReadsBack, bytes, keys.childParent, List.append_assoc]
    exact ⟨first, second⟩
  | referrer r s f =>
    have first := digestAfterRepo_eq PREFIX_REFERRER r s f.encode
    have second := secondDigestAfterRepo_eq PREFIX_REFERRER r s f
    rw [ReadsBack, bytes, keys.referrer, List.append_assoc]
    exact ⟨first, second⟩
  | upload id => trivial
  | tagHistory r t at_ d =>
    simpa [ReadsBack, bytes, Schema.tagHistory, Schema.tagHistoryOf] using
      tagHistorySuffix_eq (Schema.tagHistoryOf r t.text) at_ d
  | manifestTagHistory r d at_ t =>
    simpa [ReadsBack, bytes, Schema.manifestTagHistory, manifestTagHistoryOf] using
      manifestTagHistorySuffix_eq (manifestTagHistoryOf r d) at_ t.text
  | counterManifest r d day shard =>
    exact counterSuffix_bucket (countersOfManifest r d) day shard
  | counterTag r t day shard =>
    simpa [ReadsBack, bytes, Schema.counterTag, Schema.countersOfTag] using
      counterSuffix_bucket (Schema.countersOfTag r t.text) day shard
  | counterRepo r day shard => exact counterSuffix_bucket (countersOfRepo r) day shard
  | deadRepo id =>
    have rest : getFrom (keys.deadRepo id) 1 = some (repoBytes id) :=
      getFrom_append [PREFIX_DEAD_REPO] _ rfl
    rw [ReadsBack, bytes, parseDeadRepoId, if_neg (by simp [keys.deadRepo]), rest,
      Option.bind_some, repoOfBytes_repoBytes]
  | repoByName name =>
    have rest : getFrom (keys.repoByName name) 1 = some (Bytes.utf8 name) :=
      getFrom_append [PREFIX_REPO_BY_NAME] _ rfl
    rw [ReadsBack, bytes, parseRepoName, if_neg (by simp [keys.repoByName]), rest,
      Option.bind_some, Bytes.ofUtf8_utf8]
  | repoById id => trivial
  | dbVersion => trivial

/-! ## The orders of digests -/

namespace Digest

/-- The derived `Ord`: the variants in turn, then the raw hashes. -/
def lt : Digest → Digest → Prop
  | sha256 a, sha256 b => a.toList < b.toList
  | sha256 _, sha512 _ => True
  | sha512 _, sha256 _ => False
  | sha512 a, sha512 b => a.toList < b.toList

theorem lt_iff_encode (d e : Digest) : d.lt e ↔ d.encode < e.encode := by
  cases d <;> cases e <;>
    simp [lt, encode, algoByte, raw, List.cons_lt_cons_iff, ALGO_SHA256, ALGO_SHA512]

/-- The two digits of a byte. -/
def hexByte (b : Byte) : Bytes := Bytes.utf8 [hexChar (b.val / 16), hexChar (b.val % 16)]

theorem utf8_hexChar_lt {m n : Nat} (hn : n < 16) (h : m < n) :
    Bytes.utf8 [hexChar m] < Bytes.utf8 [hexChar n] := by
  have table : ∀ n < 16, ∀ m < n, Bytes.utf8 [hexChar m] < Bytes.utf8 [hexChar n] := by decide
  exact table n hn m h

theorem utf8_hexChar_length {n : Nat} (hn : n < 16) : (Bytes.utf8 [hexChar n]).length = 1 := by
  have table : ∀ n < 16, (Bytes.utf8 [hexChar n]).length = 1 := by decide
  exact table n hn

theorem hexByte_eq (b : Byte) :
    hexByte b = Bytes.utf8 [hexChar (b.val / 16)] ++ Bytes.utf8 [hexChar (b.val % 16)] :=
  Bytes.utf8_append [_] [_]

theorem hexByte_length (b : Byte) : (hexByte b).length = 2 := by
  have := b.isLt
  rw [hexByte_eq, List.length_append, utf8_hexChar_length (by omega),
    utf8_hexChar_length (by omega)]

theorem hexByte_lt (a b : Byte) (h : a < b) : hexByte a < hexByte b := by
  rw [Fin.lt_def] at h
  have := b.isLt
  rw [hexByte_eq, hexByte_eq]
  by_cases high : a.val / 16 < b.val / 16
  · apply Bytes.append_lt_append_of_lt _ (utf8_hexChar_lt (by omega) high)
    rw [utf8_hexChar_length (by omega), utf8_hexChar_length (by omega)]
  · have same : a.val / 16 = b.val / 16 := by omega
    rw [same, Bytes.append_lt_append_left]
    exact utf8_hexChar_lt (by omega) (by omega)

/-- The algorithm and its colon, in bytes. -/
def algorithmBytes (d : Digest) : Bytes := Bytes.utf8 (d.algorithm ++ [':'])

theorem utf8_display (d : Digest) :
    Bytes.utf8 d.display = d.algorithmBytes ++ d.raw.flatMap hexByte := by
  have split : d.display = (d.algorithm ++ [':']) ++
      d.raw.flatMap fun b => [hexChar (b.val / 16), hexChar (b.val % 16)] := by
    rw [display, List.append_assoc, List.singleton_append]
  rw [split, Bytes.utf8_append, Bytes.utf8_flatMap]
  rfl

theorem algorithmBytes_sha256 (a : List.Vector Byte 32) :
    (sha256 a).algorithmBytes = [115, 104, 97, 50, 53, 54, 58] := by
  change Bytes.utf8 ("sha256".toList ++ [':']) = _
  decide

theorem algorithmBytes_sha512 (a : List.Vector Byte 64) :
    (sha512 a).algorithmBytes = [115, 104, 97, 53, 49, 50, 58] := by
  change Bytes.utf8 ("sha512".toList ++ [':']) = _
  decide

/-- Hashes of one algorithm are ordered as their hex is. -/
theorem hex_lt_hex {a b : Bytes} (length : a.length = b.length) :
    a.flatMap hexByte < b.flatMap hexByte ↔ a < b :=
  Bytes.flatMap_lt_flatMap hexByte_lt (fun x y => by rw [hexByte_length, hexByte_length]) length

theorem lt_iff_display (d e : Digest) :
    d.lt e ↔ Bytes.utf8 d.display < Bytes.utf8 e.display := by
  have before : ∀ u v : Bytes,
      [115, 104, 97, 50, 53, 54, 58] ++ u < [115, 104, 97, 53, 49, 50, 58] ++ v :=
    Bytes.append_lt_append_of_lt (by decide) (by decide)
  rw [utf8_display, utf8_display]
  cases d with
  | sha256 a =>
    cases e with
    | sha256 b =>
      rw [algorithmBytes_sha256, algorithmBytes_sha256, Bytes.append_lt_append_left]
      exact (hex_lt_hex (by simp)).symm
    | sha512 b =>
      rw [algorithmBytes_sha256, algorithmBytes_sha512]
      exact iff_of_true trivial (before _ _)
  | sha512 a =>
    cases e with
    | sha256 b =>
      rw [algorithmBytes_sha512, algorithmBytes_sha256]
      exact iff_of_false (fun h => h) (not_lt_of_gt (before _ _))
    | sha512 b =>
      rw [algorithmBytes_sha512, algorithmBytes_sha512, Bytes.append_lt_append_left]
      exact (hex_lt_hex (by simp)).symm

end Digest

/-- The key schema is unambiguous: the builders never collide, a scan prefix
starts exactly the keys it is meant for, a key that ends in a digest starts no
other, the decoders invert the builders, and a digest's three orders are one. -/
theorem schema_unambiguous :
    Function.Injective RecordKey.bytes ∧
      (∀ (p : ScanPrefix) (k : RecordKey), p.bytes <+: k.bytes ↔ p.covers k) ∧
      (∀ k k' : RecordKey, k.digestTerminated = true → k.bytes <+: k'.bytes → k = k') ∧
      (∀ k : RecordKey, k.ReadsBack) ∧
      ∀ d e : Digest, (d.lt e ↔ d.encode < e.encode) ∧
        (d.lt e ↔ Bytes.utf8 d.display < Bytes.utf8 e.display) ∧
        ∀ repo, d.lt e ↔ (RecordKey.manifest repo d).bytes < (RecordKey.manifest repo e).bytes := by
  refine ⟨RecordKey.bytes_injective, ScanPrefix.bytes_prefix_iff, ?_, RecordKey.readsBack, ?_⟩
  · intro k k' ends starts
    exact RecordKey.eq_of_bytes_prefix (RecordKey.ends_of_digestTerminated ends) starts
  · intro d e
    refine ⟨d.lt_iff_encode e, d.lt_iff_display e, ?_⟩
    intro repo
    rw [RecordKey.bytes, RecordKey.bytes, keys.manifest, keys.manifest,
      Bytes.append_lt_append_left, d.lt_iff_encode e]

/-! ## The registry's keys -/

/-- A tag of the registry's grammar, as the layout takes one. -/
def Tag.layout (t : Tag) : TagText where
  text := t.text
  nonempty := by
    intro empty
    have valid := t.valid
    rw [empty] at valid
    cases valid
  noNul := t.noNul

/-- A key of the registry among the keys of the schema. -/
def Key.layout : Key → RecordKey
  | manifest repo digest => .manifest repo digest
  | manifestBody repo digest => .manifestBody repo digest
  | tag repo t => .tag repo t.layout
  | manifestTag repo digest t => .manifestTag repo digest t.layout
  | blob digest => .blob digest
  | blobMark digest => .blobMark digest
  | blobRef digest repo m => .blobRef digest repo m
  | repoBlob repo digest => .repoBlob repo digest
  | childParent repo child parent => .childParent repo child parent
  | referrer repo subject r => .referrer repo subject r
  | upload id => .upload id
  | tagHistory repo t at_ digest => .tagHistory repo t.layout at_ digest
  | manifestTagHistory repo digest at_ t => .manifestTagHistory repo digest at_ t.layout
  | counterManifest repo digest day shard => .counterManifest repo digest day shard
  | counterTag repo t day shard => .counterTag repo t.layout day shard
  | counterRepo repo day shard => .counterRepo repo day shard
  | deadRepo id => .deadRepo id
  | repoByName name => .repoByName name
  | repoById id => .repoById id
  | dbVersion => .dbVersion

/-- The registry's keys are written as the schema writes them. -/
theorem Key.bytes_layout (k : Key) : k.layout.bytes = k.bytes := by
  cases k <;> rfl

end Summ
