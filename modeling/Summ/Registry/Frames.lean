import Summ.Registry.Counters
import Summ.Registry.Purge
import Summ.Registry.Push

/-!
# What a batch leaves alone

Every batch of an operation on one repository stays `Within` it: of all keys it
touches only that repository's own, and the registry-wide records of blobs.
-/

namespace Summ

/-- The repository whose key it is. -/
def Key.repo : Key → Option RepoId
  | .manifest r _ | .manifestBody r _ | .tag r _ | .manifestTag r _ _ | .blobRef _ r _
  | .repoBlob r _ | .childParent r _ _ | .referrer r _ _ | .tagHistory r _ _ _
  | .manifestTagHistory r _ _ _ | .counterManifest r _ _ _ | .counterTag r _ _ _
  | .counterRepo r _ _ => some r
  | _ => none

/-- A key an operation on the repository may touch. -/
def Key.mayTouch (id : RepoId) : Key → Bool
  | .blob _ | .blobMark _ => true
  | k => decide (k.repo = some id)

theorem Key.mayTouch_of_repo {k : Key} {id : RepoId} (h : k.repo = some id) :
    k.mayTouch id = true := by
  cases k <;> first | rfl | simpa [Key.mayTouch] using h

theorem Key.not_mayTouch {k : Key} {id j : RepoId} (h : k.repo = some j) (hj : j ≠ id) :
    k.mayTouch id = false := by
  cases k <;> cases h <;> simp [Key.mayTouch, Key.repo, hj]

def MetaOp.Within (id : RepoId) : MetaOp → Prop
  | .put k _ _ | .delete k => k.mayTouch id = true
  | .deletePrefix p => ∀ k, p.covers k = true → k.mayTouch id = true

def WriteBatch.Within (id : RepoId) (b : WriteBatch) : Prop := ∀ op ∈ b, op.Within id

namespace WriteBatch

variable {id : RepoId} {b c : WriteBatch}

theorem effect_of_within (h : b.Within id) {k : Key} (hk : k.mayTouch id = false) :
    b.effect k = none := by
  rw [effect_eq_none]
  intro op hop
  have within := h op hop
  cases op with
  | put k' v fits =>
    refine if_neg fun heq : k' = k => ?_
    rw [MetaOp.Within, heq, hk] at within
    cases within
  | delete k' =>
    refine if_neg fun heq : k' = k => ?_
    rw [MetaOp.Within, heq, hk] at within
    cases within
  | deletePrefix p =>
    refine if_neg fun hp => ?_
    rw [within k hp] at hk
    cases hk

theorem within_append (hb : b.Within id) (hc : c.Within id) : WriteBatch.Within id (b ++ c) := by
  intro op hop
  rcases List.mem_append.mp hop with hop | hop
  · exact hb op hop
  · exact hc op hop

theorem within_flatMap {α : Type*} {f : α → WriteBatch} {xs : List α}
    (h : ∀ x ∈ xs, (f x).Within id) : WriteBatch.Within id (xs.flatMap f) := by
  intro op hop
  obtain ⟨x, hx, hop⟩ := List.mem_flatMap.mp hop
  exact h x hx op hop

theorem within_map {α : Type*} {f : α → MetaOp} {xs : List α}
    (h : ∀ x ∈ xs, (f x).Within id) : WriteBatch.Within id (xs.map f) := by
  intro op hop
  obtain ⟨x, hx, rfl⟩ := List.mem_map.mp hop
  exact h x hx

theorem within_nil : WriteBatch.Within id [] := by
  intro op hop
  cases hop

theorem within_cons {op : MetaOp} (hop : op.Within id) (hb : b.Within id) :
    WriteBatch.Within id (op :: b) := List.forall_mem_cons.mpr ⟨hop, hb⟩

end WriteBatch

theorem Scan.covers_parentsOf {r : RepoId} {c : Digest} {k : Key} :
    (parentsOf r c).covers k = true ↔ ∃ p, k = .childParent r c p := by
  constructor
  · intro h
    cases k with
    | childParent r' c' p =>
      obtain ⟨rfl, rfl⟩ : r = r' ∧ c = c' := by simpa [covers] using h
      exact ⟨p, rfl⟩
    | _ => cases h
  · rintro ⟨p, rfl⟩
    simp [covers]

theorem Scan.covers_blobRefsInRepo {r : RepoId} {b : Digest} {k : Key} :
    (blobRefsInRepo b r).covers k = true ↔ ∃ m, k = .blobRef b r m := by
  constructor
  · intro h
    cases k with
    | blobRef b' r' m =>
      obtain ⟨rfl, rfl⟩ : b = b' ∧ r = r' := by simpa [covers] using h
      exact ⟨m, rfl⟩
    | _ => cases h
  · rintro ⟨m, rfl⟩
    simp [covers]

open WriteBatch

section Tags
variable {repo : RepoId} {tag : Tag} {now : Timestamp}

theorem forSubject_within {op : Digest → MetaOp} (h : ∀ subject, (op subject).Within repo) :
    WriteBatch.Within repo (forSubject tag op) := by
  unfold forSubject
  cases subjectOfArtifactTag tag.text with
  | none => exact within_nil
  | some subject => exact within_cons (h subject) within_nil

theorem setTagOps_within (previous : Option Digest) (target : TagTarget) :
    WriteBatch.Within repo (setTagOps repo tag previous target now) := by
  have touch {k : Key} (hk : k.repo = some repo) : k.mayTouch repo = true :=
    Key.mayTouch_of_repo hk
  refine within_append (within_append ?_ ?_) (forSubject_within fun _ => touch rfl)
  · unfold retractOps
    split
    · exact within_nil
    · split
      · exact within_nil
      · exact within_cons (touch rfl) (forSubject_within fun _ => touch rfl)
  · exact within_cons (touch rfl) (within_cons (touch rfl)
      (within_cons (touch rfl) (within_cons (touch rfl) within_nil)))

theorem deleteTagOps_within (digest : Digest) (manifest : Option ManifestRecord) :
    WriteBatch.Within repo (deleteTagOps repo tag digest manifest now) := by
  have touch {k : Key} (hk : k.repo = some repo) : k.mayTouch repo = true :=
    Key.mayTouch_of_repo hk
  refine within_append (within_append ?_ (forSubject_within fun _ => touch rfl)) ?_
  · exact within_cons (touch rfl) (within_cons (touch rfl) within_nil)
  · exact within_cons (touch rfl) (within_cons (touch rfl) within_nil)

end Tags

namespace Store

variable {s : Store} {repo : RepoId}

theorem blobCommitBatch_within (digest : Digest) (size : Nat) (now : Timestamp) :
    WriteBatch.Within repo (s.blobCommitBatch repo digest size now) := by
  refine within_append (within_cons rfl (within_cons rfl within_nil)) ?_
  split
  · exact within_nil
  · exact within_cons (Key.mayTouch_of_repo rfl) within_nil

theorem blobOps_within (manifest : Digest) (desc : BlobDesc) (now : Timestamp) :
    WriteBatch.Within repo (s.blobOps repo manifest desc now) := by
  refine within_append (within_append ?_ ?_) ?_
  · split
    · exact within_cons rfl within_nil
    · exact within_nil
  · split
    · exact within_nil
    · exact within_cons (Key.mayTouch_of_repo rfl) within_nil
  · exact within_cons (Key.mayTouch_of_repo rfl) (within_cons rfl within_nil)

theorem pushBatch_within (c : CheckedPut) (ts : List Tag) :
    WriteBatch.Within repo (s.pushBatch repo c ts) := by
  have touch {k : Key} (hk : k.repo = some repo) : k.mayTouch repo = true :=
    Key.mayTouch_of_repo hk
  refine within_append (within_append (within_append ?_ ?_) ?_) ?_
  · exact within_flatMap fun desc _ => blobOps_within _ _ _
  · exact within_map fun child _ => touch rfl
  · refine within_append (within_cons (touch rfl) (within_cons (touch rfl) within_nil)) ?_
    cases c.parsed.subject with
    | none => exact within_nil
    | some subject => exact within_cons (touch rfl) within_nil
  · exact within_flatMap fun t _ => setTagOps_within _ _

theorem manifestDeleteBatch_within (digest : Digest) (record : ManifestRecord) (now : Timestamp) :
    WriteBatch.Within repo (s.manifestDeleteBatch repo digest record now) := by
  have touch {k : Key} (hk : k.repo = some repo) : k.mayTouch repo = true :=
    Key.mayTouch_of_repo hk
  intro op hop
  rcases mem_manifestDeleteBatch hop with ⟨k, rfl, -, hk⟩ | ⟨subject, -, rfl⟩ | ⟨t, -, hop⟩
  · rcases hk with rfl | rfl | ⟨blob, -, rfl⟩ | ⟨child, -, rfl⟩ | ⟨covered, -⟩
    · exact touch rfl
    · exact touch rfl
    · exact touch rfl
    · exact touch rfl
    · obtain ⟨parent, rfl⟩ := Scan.covers_parentsOf.mp covered
      exact touch rfl
  · exact touch rfl
  · exact deleteTagOps_within digest (some record) op hop

/-- The batch of `plan_blob_reference_delete`. -/
def blobReferenceDeleteBatch (s : Store) (repo : RepoId) (digest : Digest) : WriteBatch :=
  (s.drain (.blobRefsInRepo digest repo)).map MetaOp.delete ++
    (if s.existsPrefix (.repoBlob repo digest) then [MetaOp.delete (.repoBlob repo digest)]
      else []) ++
    [MetaOp.delete (.blobMark digest)]

theorem planBlobReferenceDelete_ok {name : Text} {digest : Digest} {p : Planned BlobRefDeleted}
    (h : s.planBlobReferenceDelete name repo digest = .ok p) :
    p.batch = s.blobReferenceDeleteBatch repo digest := by
  simp only [planBlobReferenceDelete] at h
  split at h
  · cases h
  · cases h
    rfl

theorem blobReferenceDeleteBatch_within (digest : Digest) :
    WriteBatch.Within repo (s.blobReferenceDeleteBatch repo digest) := by
  refine within_append (within_append ?_ ?_) (within_cons rfl within_nil)
  · refine within_map fun k hk => ?_
    obtain ⟨covered, -⟩ := (mem_drain rfl (by simp)).mp hk
    obtain ⟨m, rfl⟩ := Scan.covers_blobRefsInRepo.mp covered
    exact Key.mayTouch_of_repo rfl
  · split
    · exact within_cons (Key.mayTouch_of_repo rfl) within_nil
    · exact within_nil

theorem sweepRefsBatch_within (entries : List (Key × Value)) :
    WriteBatch.Within repo (sweepRefsBatch repo entries) := by
  refine within_flatMap ?_
  rintro ⟨k, v⟩ -
  cases v with
  | manifest record => exact within_map fun blob _ => Key.mayTouch_of_repo rfl
  | _ => exact within_nil

end Store

/-- The keys the end of a sweep drops. -/
def Key.dropped (id : RepoId) : Key → Bool
  | .blobRef .. => false
  | .deadRepo r => decide (r = id)
  | k => decide (k.repo = some id)

theorem sweepFinishBatch_effect (id : RepoId) (k : Key) :
    WriteBatch.effect (sweepFinishBatch id) k = if k.dropped id then some none else none := by
  cases k <;> simp [sweepFinishBatch, MetaOp.effect, Scan.covers, Key.dropped, Key.repo, eq_comm]

end Summ
