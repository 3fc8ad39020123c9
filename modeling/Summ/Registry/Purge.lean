import Summ.Registry.Delete

/-!
# Purge: one bounded step of each pass

Untagged manifests, stale memberships, unreferenced blobs and empty
repositories. Each step reads a page and applies at most one batch.
-/

namespace Summ

structure ManifestScan where
  digests : List Digest
  examined : Nat
  next : Option Key

structure MembershipSweep where
  examined : Nat
  retracted : Nat
  next : Option Key

structure BlobScan where
  examined : Nat
  marked : Nat
  unmarked : Nat
  ripe : List (Digest × Nat)
  next : Option Key

structure EmptyRepo where
  id : RepoId
  name : Text

structure EmptyRepoScan where
  repos : List EmptyRepo
  examined : Nat
  next : Option Text

namespace Store

variable (s : Store)

/-! ## Untagged manifests -/

def manifestIsPurgeable (repo : RepoId) (record : ManifestRecord) (pushedBefore : Timestamp) :
    Bool :=
  decide (record.pushedAt ≤ pushedBefore.secs) &&
  !s.existsPrefix (.tagsOfManifest repo record.digest) &&
  !s.existsPrefix (.parentsOf repo record.digest) &&
  !(record.subject.any fun subject => s.existsPrefix (.manifest repo subject))

def purgeableManifests (repo : RepoId) (cursor : Option Key) (limit : Nat)
    (pushedBefore : Timestamp) : ManifestScan :=
  let page := s.scan (.manifestsInRepo repo) cursor limit
  { digests := page.entries.filterMap fun
      | (_, .manifest record) =>
        if s.manifestIsPurgeable repo record pushedBefore then some record.digest else none
      | _ => none
    examined := page.entries.length
    next := page.next }

/-- `purge_manifest`, once the repository is resolved: `none` declines. -/
def planPurgeManifest (name : Text) (repo : RepoId) (digest : Digest)
    (pushedBefore now : Timestamp) : Except RegistryError (Planned (Option ManifestDeleted)) :=
  match s.manifestRecord repo digest with
  | none => .ok { outcome := none, batch := [] }
  | some record =>
    if s.manifestIsPurgeable repo record pushedBefore then
      (s.planManifestDelete name repo digest now).map fun planned =>
        { outcome := some planned.outcome, batch := planned.batch }
    else .ok { outcome := none, batch := [] }

variable {s} in
theorem planPurgeManifest_ok {name : Text} {repo : RepoId} {digest : Digest}
    {pushedBefore now : Timestamp} {p : Planned (Option ManifestDeleted)}
    (h : s.planPurgeManifest name repo digest pushedBefore now = .ok p) :
    p.batch = [] ∨
      ∃ record, s.manifestRecord repo digest = some record ∧
        s.manifestIsPurgeable repo record pushedBefore = true ∧
        p.batch = s.manifestDeleteBatch repo digest record now := by
  unfold planPurgeManifest at h
  split at h
  · cases h
    exact Or.inl rfl
  · rename_i record hrecord
    split at h
    · rename_i hpurgeable
      rw [planManifestDelete, hrecord] at h
      cases h
      exact Or.inr ⟨record, hrecord, hpurgeable, rfl⟩
    · cases h
      exact Or.inl rfl

/-! ## Stale memberships -/

/-- The memberships on a page whose manifest never arrived. -/
def staleMemberships (addedBefore : Timestamp) (entries : List (Key × Value)) :
    List (RepoId × Digest) :=
  entries.filterMap fun
    | (.repoBlob repo digest, .repoBlob record) =>
      if addedBefore.secs < record.addedAt then none
      else if s.existsPrefix (.blobRefsInRepo digest repo) then none
      else some (repo, digest)
    | _ => none

/-- A retraction clears the blob's mark too. -/
def retractBatch (stale : List (RepoId × Digest)) : WriteBatch :=
  stale.flatMap fun (repo, digest) => [.delete (.repoBlob repo digest), .delete (.blobMark digest)]

def sweepRepoBlobs (cursor : Option Key) (limit : Nat) (addedBefore : Timestamp)
    (reportOnly : Bool) : MembershipSweep × Store :=
  let page := s.scan .repoBlobs cursor limit
  let stale := s.staleMemberships addedBefore page.entries
  ({ examined := page.entries.length, retracted := stale.length, next := page.next },
    if reportOnly then s else s.apply (retractBatch stale))

/-! ## Blobs -/

/-- What a blob scan finds of one blob. -/
inductive BlobVerdict
  | referenced (marked : Bool)
  | unmarked
  | ripe
  | young
  deriving DecidableEq

def blobVerdict (seenBefore : Timestamp) (digest : Digest) : BlobVerdict :=
  let mark := s.blobMark digest
  if s.existsPrefix (.blobRefs digest) then .referenced mark.isSome
  else
    match mark with
    | none => .unmarked
    | some mark => if mark.seenAt ≤ seenBefore.secs then .ripe else .young

/-- The blobs on a page, each with what the scan finds of it. -/
def blobVerdicts (seenBefore : Timestamp) (entries : List (Key × Value)) :
    List (Digest × BlobRecord × BlobVerdict) :=
  entries.filterMap fun
    | (.blob digest, .blob record) => some (digest, record, s.blobVerdict seenBefore digest)
    | _ => none

def markBatch (now : Timestamp) (verdicts : List (Digest × BlobRecord × BlobVerdict)) :
    WriteBatch :=
  verdicts.flatMap fun
    | (digest, _, .referenced true) => [.delete (.blobMark digest)]
    | (digest, _, .unmarked) => [.put (.blobMark digest) (.mark { seenAt := now.secs }) rfl]
    | _ => []

def scanBlobs (cursor : Option Key) (limit : Nat) (seenBefore now : Timestamp)
    (reportOnly : Bool) : BlobScan × Store :=
  let page := s.scan .blobs cursor limit
  let verdicts := s.blobVerdicts seenBefore page.entries
  ({ examined := page.entries.length
     marked := (verdicts.filter fun v => v.2.2 = .unmarked).length
     unmarked := (verdicts.filter fun v => v.2.2 = .referenced true).length
     ripe := (verdicts.filter fun v => v.2.2 = .ripe).map fun v => (v.1, v.2.1.size)
     next := page.next },
    if reportOnly then s else s.apply (markBatch now verdicts))

/-- `collect_blob`: every condition again, then the record and the mark. -/
def collectBlob (digest : Digest) (seenBefore : Timestamp) : Option Nat × Store :=
  match s.blobRecord digest, s.blobMark digest with
  | some record, some mark =>
    if seenBefore.secs < mark.seenAt then (none, s)
    else if s.existsPrefix (.blobRefs digest) then (none, s)
    else (some record.size, s.apply [.delete (.blob digest), .delete (.blobMark digest)])
  | _, _ => (none, s)

/-! ## Empty repositories -/

def repoIsEmpty (id : RepoId) (live : List RepoId) : Bool :=
  !live.contains id &&
  !s.existsPrefix (.manifestsInRepo id) && !s.existsPrefix (.blobsInRepo id) &&
  !s.existsPrefix (.tagsInRepo id) && !s.existsPrefix (.tagHistoryInRepo id) &&
  !s.existsPrefix (.manifestTagHistoryInRepo id) &&
  !s.existsPrefix (.countersInRepoScopeManifest id) &&
  !s.existsPrefix (.countersInRepoScopeTag id) && !s.existsPrefix (.countersOfRepo id)

/-- The names on a page with the ids they are interned under. -/
def namesOf (entries : List (Key × Value)) : List EmptyRepo :=
  entries.filterMap fun
    | (.repoByName name, .repoId id) => some { id, name }
    | _ => none

def emptyRepos (startAfter : Option Text) (limit : Nat) (live : List RepoId)
    (internedBefore : RepoId) : EmptyRepoScan :=
  let page := s.scan .reposByName (startAfter.map Key.repoByName) limit
  let names := namesOf page.entries
  { repos := names.filter fun repo => repo.id < internedBefore && s.repoIsEmpty repo.id live
    examined := page.entries.length
    next := if page.next.isSome then names.getLast?.map EmptyRepo.name else none }

/-- The batch of `retire_repo`. -/
def retireBatch (name : Text) (id : RepoId) : WriteBatch :=
  [.delete (.repoByName name), .delete (.repoById id)]

end Store

namespace Registry

variable (r : Registry)

def purgeManifest (name : Text) (digest : Digest) (pushedBefore now : Timestamp) :
    Except RegistryError (Option ManifestDeleted) × Registry :=
  commit (r.planIn name fun s repo => s.planPurgeManifest name repo digest pushedBefore now)

def retireRepo (name : Text) (live : List RepoId) (internedBefore : RepoId) :
    Option RepoId × Registry :=
  match r.lookupRepo name with
  | (none, r) => (none, r)
  | (some id, r) =>
    if internedBefore ≤ id ∨ r.store.repoIsEmpty id live = false then (none, r)
    else (some id, { r with
      store := r.store.apply (Store.retireBatch name id)
      interner := r.interner.forget name id })

end Registry

end Summ
