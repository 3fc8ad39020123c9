import Summ.Core.Digest

/-! The records stored against the keys. Sizes and second-resolution times are
natural numbers; the counters keep their fixed widths, because they saturate. -/

namespace Summ

abbrev RepoId := UInt32

/-- Longest legal tag. -/
def MAX_TAG_LEN : Nat := 128

/-- `char::is_ascii_alphanumeric`. -/
def isAsciiAlphanumeric (c : Char) : Bool :=
  ('0' ≤ c && c ≤ '9') || ('A' ≤ c && c ≤ 'Z') || ('a' ≤ c && c ≤ 'z')

/-- A character a tag may continue with. -/
def isTagChar (c : Char) : Bool := isAsciiAlphanumeric c || c ∈ ['.', '_', '-']

/-- `[a-zA-Z0-9_][a-zA-Z0-9._-]{0,127}`. -/
def isTag : Text → Bool
  | [] => false
  | first :: chars =>
    (isAsciiAlphanumeric first || first = '_') && (first :: chars).length ≤ MAX_TAG_LEN &&
      chars.all isTagChar

/-- A tag in the grammar. The `H` and `A t` keys end one with NUL. -/
structure Tag where
  text : Text
  valid : isTag text = true
  deriving DecidableEq

@[ext] theorem Tag.ext {a b : Tag} (h : a.text = b.text) : a = b := by
  cases a; cases b; cases h; rfl

theorem Tag.noNul (t : Tag) : '\x00' ∉ t.text := by
  obtain ⟨text, valid⟩ := t
  cases text with
  | nil => simp
  | cons first chars =>
    simp only [isTag, Bool.and_eq_true, List.all_eq_true] at valid
    obtain ⟨⟨hfirst, -⟩, hchars⟩ := valid
    intro hnul
    rcases List.mem_cons.mp hnul with rfl | hnul
    · exact absurd hfirst (by decide)
    · exact absurd (hchars _ hnul) (by decide)

structure Platform where
  os : Text
  arch : Text
  variant : Option Text
  deriving DecidableEq

structure ChildRef where
  digest : Digest
  platform : Option Platform
  deriving DecidableEq

abbrev Annotations := List (Text × Text)

structure ManifestRecord where
  repo : RepoId
  digest : Digest
  mediaType : Text
  size : Nat
  totalLayerSize : Nat
  platform : Option Platform
  layers : List Digest
  children : List ChildRef
  subject : Option Digest
  artifactType : Option Text
  annotations : Annotations
  pushedAt : Nat
  deriving DecidableEq

structure BlobRecord where
  size : Nat
  deriving DecidableEq

structure RepoBlobRecord where
  size : Nat
  addedAt : Nat
  deriving DecidableEq

structure BlobMark where
  seenAt : Nat
  deriving DecidableEq

structure TagRecord where
  digest : Digest
  taggedAt : Nat
  deriving DecidableEq

structure ReferrerRecord where
  mediaType : Text
  artifactType : Option Text
  size : Nat
  annotations : Annotations
  deriving DecidableEq

structure UploadSession where
  repo : RepoId
  offset : Nat
  startedAt : Nat
  updatedAt : Nat
  algorithm : Text
  hasherState : Option Bytes
  deriving DecidableEq

structure DeadRepo where
  name : Text
  droppedAt : Nat
  deriving DecidableEq

inductive TagEventKind
  | created
  | deleted
  deriving DecidableEq

structure TagEvent where
  event : TagEventKind
  mediaType : Text
  size : Nat
  deriving DecidableEq

def HOURS_PER_DAY : Nat := 24

structure CounterBucket where
  manifestPulls : List.Vector UInt32 HOURS_PER_DAY
  blobPulls : List.Vector UInt32 HOURS_PER_DAY
  bytesOut : List.Vector UInt64 HOURS_PER_DAY
  deriving DecidableEq

/-- A stored value. The codec round-trips, so a record stands for its bytes,
and a manifest body for its compressed form. -/
inductive Value
  | manifest (record : ManifestRecord)
  | manifestBody (body : Bytes)
  | tag (record : TagRecord)
  | blob (record : BlobRecord)
  | mark (record : BlobMark)
  | repoBlob (record : RepoBlobRecord)
  | referrer (record : ReferrerRecord)
  | upload (session : UploadSession)
  | event (event : TagEvent)
  | counter (bucket : CounterBucket)
  | dead (record : DeadRepo)
  | repoId (id : RepoId)
  | repoName (name : Text)
  | version (v : Nat)
  | edge
  deriving DecidableEq

end Summ
