import Summ.Meta.Cursor
import Summ.Registry.Counters
import Summ.Registry.Tags

/-!
# What the registry answers

The reads of manifests, tags, referrers, histories, pull counts and blobs. Each
resolves the name and then reads the store (`readIn`, `readOr`). A `T`, `M`,
`F`, `H`, `J` or `A` key always parses back, so the errors for one that does not
are left out.
-/

namespace Summ

structure ManifestHead where
  digest : Digest
  mediaType : Text
  size : Nat
  deriving DecidableEq

/-- A manifest and the bytes exactly as they were pushed. -/
structure StoredManifest where
  digest : Digest
  mediaType : Text
  body : Bytes
  deriving DecidableEq

structure TagList where
  tags : List Text
  next : Option Text
  deriving DecidableEq

structure ManifestList where
  manifests : List ManifestRecord
  next : Option Digest
  deriving DecidableEq

structure DigestList where
  digests : List Digest
  next : Option Digest
  deriving DecidableEq

structure ReferrerEntry where
  digest : Digest
  record : ReferrerRecord
  deriving DecidableEq

structure ReferrerList where
  entries : List ReferrerEntry
  next : Option Digest
  filterApplied : Bool
  deriving DecidableEq

/-- One row of history. -/
structure TagEventEntry where
  at_ : Timestamp
  tag : Tag
  digest : Digest
  event : TagEvent
  deriving DecidableEq

/-- Where the next page of a history resumes. -/
structure HistoryCursor where
  before : Timestamp
  last : Text
  deriving DecidableEq

structure TagHistory where
  events : List TagEventEntry
  next : Option HistoryCursor
  deriving DecidableEq

structure CountDay where
  day : UInt16
  bucket : CounterBucket
  deriving DecidableEq

/-- How many shards a day-windowed scan is willing to walk per day. -/
def SHARD_SCAN_SLACK : Nat := 4

/-- Where a counter scan is rooted. -/
def CountSubject.scan (repo : RepoId) : CountSubject → Scan
  | manifest digest => .countersOfManifest repo digest
  | tag t => .countersOfTag repo t
  | CountSubject.repo => .countersOfRepo repo

/-- `counter_suffix`'s day. -/
def Key.counterDay : Key → Option UInt16
  | .counterManifest _ _ day _ | .counterTag _ _ day _ | .counterRepo _ day _ => some day
  | _ => none

/-- The fold over the rows of a window: shards of one day are summed. -/
def foldDays (last : UInt16) : (days : List CountDay) → List (Key × Value) → List CountDay
  | days, [] => days.reverse
  | days, (key, .counter bucket) :: rows =>
    match key.counterDay, days with
    | none, _ => foldDays last days rows
    | some day, [] => if last < day then [] else foldDays last [⟨day, bucket⟩] rows
    | some day, prev :: earlier =>
      if last < day then (prev :: earlier).reverse
      else if prev.day = day then
        foldDays last ({ prev with bucket := prev.bucket.addDay bucket } :: earlier) rows
      else foldDays last (⟨day, bucket⟩ :: prev :: earlier) rows
  | days, _ :: rows => foldDays last days rows

namespace Store

variable (s : Store) (repo : RepoId)

/-- `tag_record` by a client's text: nothing is stored under what is no tag. -/
def tagRecordOf (tag : Text) : Option TagRecord :=
  (validateTag tag).toOption.bind (s.tagRecord repo)

/-- `resolve`. -/
def resolve : Reference → Option Digest
  | .digest d => some d
  | .tag t => s.tagDigest repo t

def headManifest (reference : Reference) : Option ManifestHead := do
  let digest ← s.resolve repo reference
  let record ← s.manifestRecord repo digest
  return { digest, mediaType := record.mediaType, size := record.size }

/-- `M` without `Z` is corruption, not a miss. -/
def storedManifest (digest : Digest) : Except RegistryError (Option StoredManifest) :=
  match s.manifestRecord repo digest with
  | none => .ok none
  | some record =>
    match s.manifestBody repo digest with
    | none => .error (.corrupt "manifest record with no body")
    | some body => .ok (some { digest, mediaType := record.mediaType, body })

def manifestByTag (tag : Text) : Except RegistryError (Option StoredManifest) :=
  match s.tagRecordOf repo tag with
  | none => .ok none
  | some record => s.storedManifest repo record.digest

def tagPage (startAfter : Option Text) (limit : Nat) : TagList :=
  let page := s.scanFrom (.tagsInRepo repo)
    (startAfter.map fun t => keys.tagsInRepo repo ++ Bytes.utf8 t) limit
  let name : Key → Option Text
    | .tag _ t => some t.text
    | _ => none
  { tags := page.entries.filterMap fun e => name e.1, next := page.next.bind name }

def manifestPage (startAfter : Option Digest) (limit : Nat) : ManifestList :=
  let page := s.scan (.manifestsInRepo repo) (startAfter.map (Key.manifest repo)) limit
  { manifests := page.entries.filterMap fun
      | (_, .manifest record) => some record
      | _ => none
    next := page.next.bind fun
      | .manifest _ digest => some digest
      | _ => none }

/-- `tags_of_manifest`, once the repository is resolved. -/
def tagsOfPage (digest : Digest) (startAfter : Option Text) (limit : Nat) : TagList :=
  let page := s.scanFrom (.tagsOfManifest repo digest)
    (startAfter.map fun t => keys.tagsOfManifest repo digest ++ Bytes.utf8 t) limit
  let name : Key → Option Text
    | .manifestTag _ _ t => some t.text
    | _ => none
  { tags := page.entries.filterMap fun e => name e.1, next := page.next.bind name }

/-- `untagged_manifests`: the cursor advances over `M`, so a page may come back short. -/
def untaggedPage (startAfter : Option Digest) (limit : Nat) : DigestList :=
  let page := s.scan (.manifestsInRepo repo) (startAfter.map (Key.manifest repo)) limit
  let digest : Key → Option Digest
    | .manifest _ digest => some digest
    | _ => none
  { digests := page.entries.filterMap fun e =>
      (digest e.1).filter fun d => !s.existsPrefix (.tagsOfManifest repo d)
    next := page.next.bind digest }

def referrerPage (subject : Digest) (artifactType : Option Text) (startAfter : Option Digest)
    (limit : Nat) : ReferrerList :=
  let page := s.scan (.referrersOf repo subject) (startAfter.map (Key.referrer repo subject)) limit
  { entries := page.entries.filterMap fun
      | (.referrer _ _ digest, .referrer record) =>
        if artifactType.all fun wanted => record.artifactType = some wanted then
          some { digest, record }
        else none
      | _ => none
    next := page.next.bind fun
      | .referrer _ _ digest => some digest
      | _ => none
    filterApplied := artifactType.isSome }

/-- `next_cursor`. -/
def nextCursor (events : List TagEventEntry) (more : Bool) (last : TagEventEntry → Text) :
    Option HistoryCursor :=
  if more then events.getLast?.map fun e => { before := e.at_, last := last e } else none

def tagHistoryPage (tag : Tag) (before : Option Timestamp) (last : Option Digest) (limit : Nat) :
    TagHistory :=
  let cursor := before.map fun at_ =>
    match last with
    | some digest => keys.tagHistory repo tag at_ digest
    | none => keys.tagHistoryBefore repo tag at_
  let page := s.scanFrom (.tagHistoryOf repo tag) cursor limit
  let events := page.entries.filterMap fun
    | (.tagHistory _ _ at_ digest, .event event) => some { at_, tag, digest, event }
    | _ => none
  { events, next := nextCursor events page.next.isSome fun e => e.digest.display }

/-- `last` is whatever text was sent. -/
def manifestTagHistoryPage (digest : Digest) (before : Option Timestamp) (last : Option Text)
    (limit : Nat) : TagHistory :=
  let cursor := before.map fun at_ =>
    match last with
    | some tag => Schema.manifestTagHistory repo digest at_ tag
    | none => keys.manifestTagHistoryBefore repo digest at_
  let page := s.scanFrom (.manifestTagHistoryOf repo digest) cursor limit
  let events := page.entries.filterMap fun
    | (.manifestTagHistory _ _ at_ tag, .event event) => some { at_, tag, digest, event }
    | _ => none
  { events, next := nextCursor events page.next.isSome fun e => e.tag.text }

/-- `counts`: one bounded forward scan over a day window. -/
def countDays (subject : CountSubject) (from_ days : UInt16) : List CountDay :=
  if days = 0 then []
  else
    let p := subject.scan repo
    let last := UInt16.ofNat (min (from_.toNat + (days.toNat - 1)) (2 ^ 16 - 1))
    let page := s.scanFrom p (some (keys.countersFromDay p.bytes from_))
      (days.toNat * SHARD_SCAN_SLACK)
    foldDays last [] page.entries

/-- The blob's record, but only if the repository may serve it. -/
def servable (digest : Digest) : Option BlobRecord :=
  if s.blobIsServableId repo digest then s.blobRecord digest else none

end Store

namespace Registry

variable (r : Registry)

/-- A read of a repository that must exist. -/
def readIn {α : Type} (name : Text) (read : Store → RepoId → Except RegistryError α) :
    Except RegistryError α × Registry :=
  match r.requireRepo name with
  | (.ok id, r) => (read r.store id, r)
  | (.error e, r) => (.error e, r)

/-- A read that answers `absent` when there is no such repository. -/
def readOr {α : Type} (name : Text) (absent : α) (read : Store → RepoId → α) : α × Registry :=
  match r.lookupRepo name with
  | (some id, r) => (read r.store id, r)
  | (none, r) => (absent, r)

def headManifest (name : Text) (reference : Reference) :
    Except RegistryError (Option ManifestHead) × Registry :=
  r.readIn name fun s repo => .ok (s.headManifest repo reference)

def getManifestByTag (name tag : Text) : Except RegistryError (Option StoredManifest) × Registry :=
  r.readIn name fun s repo => s.manifestByTag repo tag

def getManifestByDigest (name : Text) (digest : Digest) :
    Except RegistryError (Option StoredManifest) × Registry :=
  r.readIn name fun s repo => s.storedManifest repo digest

def listTags (name : Text) (startAfter : Option Text) (limit : Nat) :
    Except RegistryError TagList × Registry :=
  r.readIn name fun s repo => .ok (s.tagPage repo startAfter limit)

def listManifests (name : Text) (startAfter : Option Digest) (limit : Nat) :
    Except RegistryError ManifestList × Registry :=
  r.readIn name fun s repo => .ok (s.manifestPage repo startAfter limit)

def tagsOfManifest (name : Text) (digest : Digest) (startAfter : Option Text) (limit : Nat) :
    Except RegistryError TagList × Registry :=
  r.readIn name fun s repo => .ok (s.tagsOfPage repo digest startAfter limit)

def untaggedManifests (name : Text) (startAfter : Option Digest) (limit : Nat) :
    Except RegistryError DigestList × Registry :=
  r.readIn name fun s repo => .ok (s.untaggedPage repo startAfter limit)

def referrers (name : Text) (subject : Digest) (artifactType : Option Text)
    (startAfter : Option Digest) (limit : Nat) : ReferrerList × Registry :=
  r.readOr name { entries := [], next := none, filterApplied := artifactType.isSome }
    fun s repo => s.referrerPage repo subject artifactType startAfter limit

def tagHistory (name : Text) (tag : Tag) (before : Option Timestamp) (last : Option Digest)
    (limit : Nat) : TagHistory × Registry :=
  r.readOr name { events := [], next := none }
    fun s repo => s.tagHistoryPage repo tag before last limit

def manifestTagHistory (name : Text) (digest : Digest) (before : Option Timestamp)
    (last : Option Text) (limit : Nat) : TagHistory × Registry :=
  r.readOr name { events := [], next := none }
    fun s repo => s.manifestTagHistoryPage repo digest before last limit

/-- `manifest_counts`, `tag_counts` and `repo_counts`. -/
def counts (name : Text) (subject : CountSubject) (from_ days : UInt16) :
    List CountDay × Registry :=
  r.readOr name [] fun s repo => s.countDays repo subject from_ days

def blobIsServable (name : Text) (digest : Digest) : Bool × Registry :=
  r.readOr name false fun s repo => s.blobIsServableId repo digest

def servableBlob (name : Text) (digest : Digest) : Option BlobRecord × Registry :=
  r.readOr name none fun s repo => s.servable repo digest

end Registry

end Summ
