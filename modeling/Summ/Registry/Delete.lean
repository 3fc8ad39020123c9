import Summ.Meta.Cursor
import Summ.Registry.Tags

/-!
# Deletion: manifests, blob references, and whole repositories

A manifest's delete is one batch; its own edge ranges are drained a page at a
time, and `mem_drain` says a drain misses nothing. Dropping a repository is a
tombstone, a sequence of sweep pages, and one batch of range deletes.
-/

namespace Summ

/-- Page size for draining a manifest's own edge ranges. -/
def DRAIN_PAGE : Nat := 256

structure ManifestDeleted where
  digest : Digest
  removedTags : List Tag

structure BlobRefDeleted where
  digest : Digest
  wasMember : Bool
  referencesRemoved : Nat

structure RepoTombstoned where
  id : RepoId
  name : Text

structure SweepStep where
  manifests : Nat
  next : Option Key

namespace Store

variable (s : Store)

/-- `drain`: every key under a prefix, a page at a time. -/
def drain (p : Scan) : List Key :=
  ((s.pages p DRAIN_PAGE).getD []).flatMap fun page => page.entries.map Prod.fst

/-- The tags whose reverse edge names the manifest. -/
def tagsOf (repo : RepoId) (digest : Digest) : List Tag :=
  (s.drain (.tagsOfManifest repo digest)).filterMap fun
    | .manifestTag _ _ t => some t
    | _ => none

/-- The batch of `plan_manifest_delete`. -/
def manifestDeleteBatch (repo : RepoId) (digest : Digest) (record : ManifestRecord)
    (now : Timestamp) : WriteBatch :=
  [MetaOp.delete (.manifest repo digest), MetaOp.delete (.manifestBody repo digest)] ++
  record.layers.map (fun blob => MetaOp.delete (.blobRef blob repo digest)) ++
  record.children.map (fun child => MetaOp.delete (.childParent repo child.digest digest)) ++
  (record.subject.map fun subject => MetaOp.delete (.referrer repo subject digest)).toList ++
  (s.drain (.parentsOf repo digest)).map MetaOp.delete ++
  (s.tagsOf repo digest).flatMap fun tag => deleteTagOps repo tag digest (some record) now

/-- `plan_manifest_delete`, once the repository is resolved. -/
def planManifestDelete (name : Text) (repo : RepoId) (digest : Digest) (now : Timestamp) :
    Except RegistryError (Planned ManifestDeleted) :=
  match s.manifestRecord repo digest with
  | none => .error (.manifestUnknown name digest.display)
  | some record => .ok {
      outcome := { digest, removedTags := s.tagsOf repo digest }
      batch := s.manifestDeleteBatch repo digest record now }

/-- `plan_blob_reference_delete`, once the repository is resolved. -/
def planBlobReferenceDelete (name : Text) (repo : RepoId) (digest : Digest) :
    Except RegistryError (Planned BlobRefDeleted) :=
  let wasMember := s.existsPrefix (.repoBlob repo digest)
  let references := s.drain (.blobRefsInRepo digest repo)
  if !wasMember && references.isEmpty then .error (.blobUnknown name digest)
  else .ok {
    outcome := { digest, wasMember, referencesRemoved := references.length }
    batch := references.map MetaOp.delete ++
      (if wasMember then [MetaOp.delete (.repoBlob repo digest)] else []) ++
      [MetaOp.delete (.blobMark digest)] }

/-! ## Repositories -/

/-- The batch of `plan_repo_tombstone`. -/
def tombstoneBatch (name : Text) (repo : RepoId) (now : Timestamp) : WriteBatch :=
  [.delete (.repoByName name), .delete (.repoById repo),
    .put (.deadRepo repo) (.dead { name, droppedAt := now.secs }) rfl]

/-- The blob references of the manifests on one page. -/
def sweepRefsBatch (repo : RepoId) (entries : List (Key × Value)) : WriteBatch :=
  entries.flatMap fun
    | (_, .manifest record) =>
      record.layers.map fun blob => .delete (.blobRef blob repo record.digest)
    | _ => []

/-- `sweep_repo_refs`. -/
def sweepRepoRefs (repo : RepoId) (cursor : Option Key) (limit : Nat) : SweepStep × Store :=
  let page := s.scan (.manifestsInRepo repo) cursor limit
  ({ manifests := page.entries.length, next := page.next },
    s.apply (sweepRefsBatch repo page.entries))

end Store

/-- The batch of `plan_repo_sweep_finish`. -/
def sweepFinishBatch (repo : RepoId) : WriteBatch :=
  [.deletePrefix (.manifestsInRepo repo), .deletePrefix (.manifestBodiesInRepo repo),
    .deletePrefix (.tagsInRepo repo), .deletePrefix (.manifestTagsInRepo repo),
    .deletePrefix (.blobsInRepo repo), .deletePrefix (.childrenInRepo repo),
    .deletePrefix (.referrersInRepo repo), .deletePrefix (.tagHistoryInRepo repo),
    .deletePrefix (.manifestTagHistoryInRepo repo),
    .deletePrefix (.countersInRepoScopeManifest repo),
    .deletePrefix (.countersInRepoScopeTag repo), .deletePrefix (.countersOfRepo repo),
    .delete (.deadRepo repo)]

namespace Registry

variable (r : Registry)

def planManifestDelete (name : Text) (digest : Digest) (now : Timestamp) :
    Except RegistryError (Planned ManifestDeleted) × Registry :=
  r.planIn name fun s repo => s.planManifestDelete name repo digest now

def deleteManifest (name : Text) (digest : Digest) (now : Timestamp) :
    Except RegistryError ManifestDeleted × Registry :=
  commit (r.planManifestDelete name digest now)

def planBlobReferenceDelete (name : Text) (digest : Digest) :
    Except RegistryError (Planned BlobRefDeleted) × Registry :=
  r.planIn name fun s repo => s.planBlobReferenceDelete name repo digest

def planRepoTombstone (name : Text) (now : Timestamp) :
    Except RegistryError (Planned RepoTombstoned) × Registry :=
  r.planIn name fun _ repo => .ok {
    outcome := { id := repo, name }
    batch := Store.tombstoneBatch name repo now }

/-- `delete_repository`: the batch, and only then the cache. -/
def deleteRepository (name : Text) (now : Timestamp) :
    Except RegistryError RepoTombstoned × Registry :=
  match commit (r.planRepoTombstone name now) with
  | (.ok outcome, r) =>
    (.ok outcome, { r with interner := r.interner.forget outcome.name outcome.id })
  | (.error e, r) => (.error e, r)

def finishRepoSweep (repo : RepoId) : Registry :=
  { r with store := r.store.apply (sweepFinishBatch repo) }

end Registry

/-! ## What a delete leaves -/

namespace Store

variable {s : Store}

theorem planManifestDelete_ok {name : Text} {repo : RepoId} {digest : Digest} {now : Timestamp}
    {p : Planned ManifestDeleted} (h : s.planManifestDelete name repo digest now = .ok p) :
    ∃ record, s.manifestRecord repo digest = some record ∧
      p.batch = s.manifestDeleteBatch repo digest record now := by
  unfold planManifestDelete at h
  split at h
  · cases h
  · rename_i record hrecord
    cases h
    exact ⟨record, hrecord, rfl⟩

/-- Draining a paged range other than the whole membership range is complete. -/
theorem drain_eq {p : Scan} (paged : p.paged = true) (whole : p ≠ .repoBlobs) :
    s.drain p = (s.under p none).map Prod.fst := by
  obtain ⟨pages, run, iff⟩ := s.pages_serve_iff paged (show 0 < DRAIN_PAGE by decide)
  have serves := iff.mpr fun h => absurd h whole
  rw [drain, run, Option.getD_some, ← serves.1, List.map_flatMap]

theorem mem_drain {p : Scan} (paged : p.paged = true) (whole : p ≠ .repoBlobs) {k : Key} :
    k ∈ s.drain p ↔ p.covers k = true ∧ s.has k = true := by
  rw [drain_eq paged whole, has, Option.isSome_iff_exists]
  simp only [List.mem_map, Prod.exists, exists_and_right, exists_eq_right, mem_under]
  simp

theorem mem_tagsOf {repo : RepoId} {digest : Digest} {t : Tag} :
    t ∈ s.tagsOf repo digest ↔ s.has (.manifestTag repo digest t) = true := by
  simp only [tagsOf, List.mem_filterMap]
  constructor
  · rintro ⟨k, hk, ht⟩
    obtain ⟨hcov, hhas⟩ := (mem_drain rfl (by simp)).mp hk
    cases k <;> cases ht
    rename_i r d
    obtain ⟨rfl, rfl⟩ : repo = r ∧ digest = d := by simpa [Scan.covers] using hcov
    exact hhas
  · intro h
    exact ⟨_, (mem_drain rfl (by simp)).mpr ⟨by simp [Scan.covers], h⟩, rfl⟩

section ManifestDelete
variable {repo : RepoId} {digest : Digest} {record : ManifestRecord} {now : Timestamp}

theorem mem_manifestDeleteBatch {op : MetaOp}
    (h : op ∈ s.manifestDeleteBatch repo digest record now) :
    (∃ k, op = .delete k ∧ k.aboutTags = false ∧
      (k = .manifest repo digest ∨ k = .manifestBody repo digest ∨
        (∃ blob ∈ record.layers, k = .blobRef blob repo digest) ∨
        (∃ child ∈ record.children, k = .childParent repo child.digest digest) ∨
        (Scan.parentsOf repo digest).covers k = true ∧ s.has k = true)) ∨
      (∃ subject, record.subject = some subject ∧ op = .delete (.referrer repo subject digest)) ∨
      ∃ t, s.has (.manifestTag repo digest t) = true ∧
        op ∈ deleteTagOps repo t digest (some record) now := by
  simp only [manifestDeleteBatch, List.append_assoc, List.mem_append, List.mem_cons,
    List.not_mem_nil, or_false, List.mem_map, Option.mem_toList, Option.map_eq_some_iff,
    List.mem_flatMap, mem_tagsOf, mem_drain (p := .parentsOf repo digest) rfl (by simp)] at h
  rcases h with (rfl | rfl) | ⟨blob, hb, rfl⟩ | ⟨child, hc, rfl⟩ | ⟨subject, hs, rfl⟩ |
    ⟨k, hk, rfl⟩ | ⟨t, ht, hop⟩
  · exact Or.inl ⟨_, rfl, rfl, Or.inl rfl⟩
  · exact Or.inl ⟨_, rfl, rfl, Or.inr (Or.inl rfl)⟩
  · exact Or.inl ⟨_, rfl, rfl, Or.inr (Or.inr (Or.inl ⟨blob, hb, rfl⟩))⟩
  · exact Or.inl ⟨_, rfl, rfl, Or.inr (Or.inr (Or.inr (Or.inl ⟨child, hc, rfl⟩)))⟩
  · exact Or.inr (Or.inl ⟨subject, hs, rfl⟩)
  · have plain : k.aboutTags = false := by
      cases k <;> first | rfl | cases hk.1
    exact Or.inl ⟨k, rfl, plain, Or.inr (Or.inr (Or.inr (Or.inr hk)))⟩
  · exact Or.inr (Or.inr ⟨t, ht, hop⟩)

/-- At a key that is no tag's, the delete of a manifest can only remove, and
only its own records, its edges, and the edges of the indexes that list it. -/
theorem manifestDelete_plain {k : Key} (plain : k.aboutTags = false) {r : Option Value}
    (h : WriteBatch.effect (s.manifestDeleteBatch repo digest record now) k = some r) :
    r = none ∧
      (k = .manifest repo digest ∨ k = .manifestBody repo digest ∨
        (∃ blob ∈ record.layers, k = .blobRef blob repo digest) ∨
        (∃ child ∈ record.children, k = .childParent repo child.digest digest) ∨
        (Scan.parentsOf repo digest).covers k = true ∧ s.has k = true) := by
  obtain ⟨op, hop, hr⟩ := WriteBatch.exists_of_effect h
  rcases mem_manifestDeleteBatch hop with ⟨k', rfl, -, hk⟩ | ⟨subject, -, rfl⟩ | ⟨t, -, hop⟩
  · obtain rfl : k' = k := by
      by_contra hne
      simp [MetaOp.effect, hne] at hr
    refine ⟨?_, hk⟩
    simpa [MetaOp.effect, eq_comm] using hr
  · have hne : Key.referrer repo subject digest ≠ k := by
      rintro rfl
      cases plain
    simp [MetaOp.effect, hne] at hr
  · rw [WriteBatch.effect_eq_none.mp (deleteTagOps_other plain) op hop] at hr
    cases hr

/-- At a key that is no tag's, a manifest's delete adds nothing. -/
theorem manifestDelete_has {k : Key} (plain : k.aboutTags = false)
    (h : (s.apply (s.manifestDeleteBatch repo digest record now)).has k = true) :
    s.has k = true ∧ WriteBatch.effect (s.manifestDeleteBatch repo digest record now) k = none := by
  rw [has_apply] at h
  cases he : WriteBatch.effect (s.manifestDeleteBatch repo digest record now) k with
  | none => exact ⟨by simpa [he] using h, rfl⟩
  | some v =>
    obtain ⟨rfl, -⟩ := manifestDelete_plain plain he
    simp [he] at h

/-- The record and the body of the manifest go. -/
theorem manifestDelete_own {k : Key}
    (hk : k = .manifest repo digest ∨ k = .manifestBody repo digest) :
    WriteBatch.effect (s.manifestDeleteBatch repo digest record now) k = some none := by
  have plain : k.aboutTags = false := by rcases hk with rfl | rfl <;> rfl
  cases he : WriteBatch.effect (s.manifestDeleteBatch repo digest record now) k with
  | none =>
    have := WriteBatch.effect_eq_none.mp he (.delete k)
      (by rcases hk with rfl | rfl <;> simp [manifestDeleteBatch])
    simp [MetaOp.effect] at this
  | some v => rw [(manifestDelete_plain plain he).1]

theorem manifestDelete_manifest (r : RepoId) (d : Digest) :
    WriteBatch.effect (s.manifestDeleteBatch repo digest record now) (.manifest r d) =
      if repo = r ∧ digest = d then some none else none := by
  split
  · rename_i hkey
    obtain ⟨rfl, rfl⟩ := hkey
    exact manifestDelete_own (Or.inl rfl)
  · rename_i hkey
    cases he : WriteBatch.effect (s.manifestDeleteBatch repo digest record now)
        (.manifest r d) with
    | none => rfl
    | some v =>
      obtain ⟨-, hk⟩ := manifestDelete_plain rfl he
      simp only [Key.manifest.injEq, reduceCtorEq, and_false, exists_false, Scan.covers,
        Bool.false_eq_true, false_and, or_false] at hk
      exact absurd ⟨hk.1.symm, hk.2.symm⟩ hkey

theorem manifestDelete_manifestBody (r : RepoId) (d : Digest) :
    WriteBatch.effect (s.manifestDeleteBatch repo digest record now) (.manifestBody r d) =
      if repo = r ∧ digest = d then some none else none := by
  split
  · rename_i hkey
    obtain ⟨rfl, rfl⟩ := hkey
    exact manifestDelete_own (Or.inr rfl)
  · rename_i hkey
    cases he : WriteBatch.effect (s.manifestDeleteBatch repo digest record now)
        (.manifestBody r d) with
    | none => rfl
    | some v =>
      obtain ⟨-, hk⟩ := manifestDelete_plain rfl he
      simp only [Key.manifestBody.injEq, reduceCtorEq, and_false, exists_false, Scan.covers,
        Bool.false_eq_true, false_and, or_false, false_or] at hk
      exact absurd ⟨hk.1.symm, hk.2.symm⟩ hkey

/-- The delete of a manifest touches only the index edges it is an end of. -/
theorem manifestDelete_childParent {r : RepoId} {c p : Digest}
    (hc : ¬ (repo = r ∧ digest = c)) (hp : ¬ (repo = r ∧ digest = p)) :
    WriteBatch.effect (s.manifestDeleteBatch repo digest record now) (.childParent r c p) =
      none := by
  cases he : WriteBatch.effect (s.manifestDeleteBatch repo digest record now)
      (.childParent r c p) with
  | none => rfl
  | some v =>
    obtain ⟨-, hk⟩ := manifestDelete_plain rfl he
    simp only [reduceCtorEq, false_or, Key.childParent.injEq, and_false, exists_false,
      Scan.covers, Bool.decide_and, Bool.and_eq_true, decide_eq_true_eq] at hk
    rcases hk with ⟨child, -, rfl, -, rfl⟩ | ⟨⟨rfl, rfl⟩, -⟩
    · exact absurd ⟨rfl, rfl⟩ hp
    · exact absurd ⟨rfl, rfl⟩ hc

/-- The delete of a manifest retracts no referrer edge of another one. -/
theorem manifestDelete_referrer {r : RepoId} {subject d : Digest}
    (hd : ¬ (repo = r ∧ digest = d)) :
    WriteBatch.effect (s.manifestDeleteBatch repo digest record now) (.referrer r subject d) =
      none := by
  rw [WriteBatch.effect_eq_none]
  intro op hop
  rcases mem_manifestDeleteBatch hop with ⟨k, rfl, plain, -⟩ | ⟨subject', -, rfl⟩ | ⟨t, -, hop⟩
  · cases k <;> first | rfl | cases plain
  · have hne : Key.referrer repo subject' digest ≠ .referrer r subject d := by
      rintro h
      cases h
      exact hd ⟨rfl, rfl⟩
    exact if_neg hne
  · have untouched : WriteBatch.effect (deleteTagOps repo t digest (some record) now)
        (.referrer r subject d) = none := by
      rw [deleteTagOps_referrer, if_neg fun h => hd ⟨h.1, h.2.1⟩]
    exact WriteBatch.effect_eq_none.mp untouched op hop

/-- At a tag's record and its reverse edge only the deletes of tags write. -/
theorem manifestDelete_tagOps {k : Key}
    (hk : (∃ r t, k = .tag r t) ∨ ∃ r d t, k = .manifestTag r d t) :
    WriteBatch.effect (s.manifestDeleteBatch repo digest record now) k =
      WriteBatch.effect ((s.tagsOf repo digest).flatMap fun t =>
        deleteTagOps repo t digest (some record) now) k := by
  have plain : ∀ op ∈ s.manifestDeleteBatch repo digest record now, op.effect k ≠ none →
      op ∈ (s.tagsOf repo digest).flatMap fun t =>
        deleteTagOps repo t digest (some record) now := by
    intro op hop touched
    rcases mem_manifestDeleteBatch hop with ⟨k', rfl, plain, -⟩ | ⟨subject, -, rfl⟩ | ⟨t, ht, hop⟩
    · rcases hk with ⟨r, t, rfl⟩ | ⟨r, d, t, rfl⟩ <;> cases k' <;>
        first | exact absurd rfl touched | cases plain
    · rcases hk with ⟨r, t, rfl⟩ | ⟨r, d, t, rfl⟩ <;> exact absurd rfl touched
    · exact List.mem_flatMap.mpr ⟨t, mem_tagsOf.mpr ht, hop⟩
  have deletes : ∀ op ∈ (s.tagsOf repo digest).flatMap (fun t =>
      deleteTagOps repo t digest (some record) now), op.effect k ≠ none →
      op.effect k = some none := by
    intro op hop touched
    obtain ⟨t, -, hop⟩ := List.mem_flatMap.mp hop
    simp only [deleteTagOps, List.mem_append, List.mem_cons, List.not_mem_nil, or_false,
      forSubject, Option.mem_toList, Option.map_eq_some_iff] at hop
    rcases hop with ((rfl | rfl) | ⟨subject, -, rfl⟩) | rfl | rfl <;>
      rcases hk with ⟨r, t, rfl⟩ | ⟨r, d, t, rfl⟩ <;> simp_all [MetaOp.effect]
  rw [WriteBatch.effect_of_deletes deletes, WriteBatch.effect_of_deletes]
  · congr 1
    rw [eq_iff_iff]
    constructor
    · rintro ⟨op, hop, hr⟩
      exact ⟨op, plain op hop (by simp [hr]), hr⟩
    · rintro ⟨op, hop, hr⟩
      exact ⟨op, List.mem_append_right _ hop, hr⟩
  · intro op hop touched
    exact deletes op (plain op hop touched) touched

theorem manifestDelete_tag (r : RepoId) (t : Tag) :
    WriteBatch.effect (s.manifestDeleteBatch repo digest record now) (.tag r t) =
      if repo = r ∧ s.has (.manifestTag repo digest t) = true then some none else none := by
  rw [manifestDelete_tagOps (Or.inl ⟨r, t, rfl⟩)]
  split
  · rename_i h
    obtain ⟨rfl, ht⟩ := h
    rw [WriteBatch.effect_flatMap_const]
    · exact ⟨t, mem_tagsOf.mpr ht, by simp [deleteTagOps_tag]⟩
    · intro u _
      rw [deleteTagOps_tag]
      by_cases hu : u = t <;> simp [hu]
  · rename_i h
    apply WriteBatch.effect_flatMap_none
    intro u hu
    rw [deleteTagOps_tag, if_neg]
    rintro ⟨rfl, rfl⟩
    exact h ⟨rfl, mem_tagsOf.mp hu⟩

theorem manifestDelete_manifestTag (r : RepoId) (d : Digest) (t : Tag) :
    WriteBatch.effect (s.manifestDeleteBatch repo digest record now) (.manifestTag r d t) =
      if repo = r ∧ digest = d ∧ s.has (.manifestTag repo digest t) = true then some none
      else none := by
  rw [manifestDelete_tagOps (Or.inr ⟨r, d, t, rfl⟩)]
  split
  · rename_i h
    obtain ⟨rfl, rfl, ht⟩ := h
    rw [WriteBatch.effect_flatMap_const]
    · exact ⟨t, mem_tagsOf.mpr ht, by simp [deleteTagOps_manifestTag]⟩
    · intro u _
      rw [deleteTagOps_manifestTag]
      by_cases hu : u = t <;> simp [hu]
  · rename_i h
    apply WriteBatch.effect_flatMap_none
    intro u hu
    rw [deleteTagOps_manifestTag, if_neg]
    rintro ⟨rfl, rfl, rfl⟩
    exact h ⟨rfl, rfl, mem_tagsOf.mp hu⟩

theorem manifestDelete_tagDigest (r : RepoId) (t : Tag) :
    (s.apply (s.manifestDeleteBatch repo digest record now)).tagDigest r t =
      if repo = r ∧ s.has (.manifestTag repo digest t) = true then none else s.tagDigest r t := by
  simp only [tagDigest_eq, get_apply, manifestDelete_tag]
  split <;> rfl

theorem manifestDelete_manifestRecord (r : RepoId) (d : Digest) :
    (s.apply (s.manifestDeleteBatch repo digest record now)).manifestRecord r d =
      if repo = r ∧ digest = d then none else s.manifestRecord r d := by
  unfold manifestRecord
  rw [get_apply, manifestDelete_manifest]
  by_cases h : repo = r ∧ digest = d
  · rw [if_pos h, if_pos h]
    rfl
  · rw [if_neg h, if_neg h]
    rfl

end ManifestDelete

end Store

end Summ
