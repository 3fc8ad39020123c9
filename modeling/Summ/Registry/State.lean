import Summ.Meta.Interner
import Summ.Registry.Error

/-!
# The registry: its state, the records it reads, and its blobs

A mutating operation is a plan and its application. Planning reads the store
and the interner; all it writes of its own is a new name's id.
-/

namespace Summ

structure RegistryOptions where
  validateReferences : Bool := true
  maxManifestBytes : Nat := 4 * 1024 * 1024

structure Registry where
  store : Store
  interner : RepoInterner
  options : RegistryOptions

/-- A registry over an empty store. -/
def Registry.withOptions (options : RegistryOptions) : Registry where
  store := ∅
  interner := RepoInterner.default
  options

/-- A built but unapplied mutation, and the result applying it will produce. -/
structure Planned (α : Type) where
  outcome : α
  batch : WriteBatch

namespace Store

variable (s : Store)

/-! ## Stored records -/

def manifestRecord (repo : RepoId) (digest : Digest) : Option ManifestRecord :=
  match s.get (.manifest repo digest) with
  | some (.manifest record) => some record
  | _ => none

def manifestBody (repo : RepoId) (digest : Digest) : Option Bytes :=
  match s.get (.manifestBody repo digest) with
  | some (.manifestBody body) => some body
  | _ => none

def tagRecord (repo : RepoId) (tag : Tag) : Option TagRecord :=
  match s.get (.tag repo tag) with
  | some (.tag record) => some record
  | _ => none

def blobRecord (digest : Digest) : Option BlobRecord :=
  match s.get (.blob digest) with
  | some (.blob record) => some record
  | _ => none

def blobMark (digest : Digest) : Option BlobMark :=
  match s.get (.blobMark digest) with
  | some (.mark record) => some record
  | _ => none

def repoBlobRecord (repo : RepoId) (digest : Digest) : Option RepoBlobRecord :=
  match s.get (.repoBlob repo digest) with
  | some (.repoBlob record) => some record
  | _ => none

variable {s}

theorem manifestRecord_eq_some {repo : RepoId} {digest : Digest} {record : ManifestRecord} :
    s.manifestRecord repo digest = some record ↔
      s.get (.manifest repo digest) = some (.manifest record) := by
  unfold manifestRecord
  split <;> simp_all

theorem tagRecord_eq_some {repo : RepoId} {tag : Tag} {record : TagRecord} :
    s.tagRecord repo tag = some record ↔ s.get (.tag repo tag) = some (.tag record) := by
  unfold tagRecord
  split <;> simp_all

theorem blobRecord_eq_some {digest : Digest} {record : BlobRecord} :
    s.blobRecord digest = some record ↔ s.get (.blob digest) = some (.blob record) := by
  unfold blobRecord
  split <;> simp_all

theorem blobRecord_eq_none {digest : Digest} :
    s.blobRecord digest = none ↔ s.has (.blob digest) = false := by
  unfold blobRecord has
  cases h : s.get (.blob digest) with
  | none => simp
  | some v =>
    have fits := fits_of_get h
    cases v <;> simp_all [Key.fits]

theorem blobMark_eq_some {digest : Digest} {record : BlobMark} :
    s.blobMark digest = some record ↔ s.get (.blobMark digest) = some (.mark record) := by
  unfold blobMark
  split <;> simp_all

theorem repoBlobRecord_eq_some {repo : RepoId} {digest : Digest} {record : RepoBlobRecord} :
    s.repoBlobRecord repo digest = some record ↔
      s.get (.repoBlob repo digest) = some (.repoBlob record) := by
  unfold repoBlobRecord
  split <;> simp_all

/-- What is read of a manifest is read at its key. -/
theorem manifestRecord_congr {t : Store} {repo : RepoId} {digest : Digest}
    (h : t.get (.manifest repo digest) = s.get (.manifest repo digest)) :
    t.manifestRecord repo digest = s.manifestRecord repo digest := by
  simp only [manifestRecord, h]

/-! ## Blobs of a repository -/

variable (s)

/-- `blob_is_servable_id`: referenced in the repository, or uploaded there. -/
def blobIsServableId (repo : RepoId) (digest : Digest) : Bool :=
  s.existsPrefix (.blobRefsInRepo digest repo) || s.existsPrefix (.repoBlob repo digest)

/-- The batch of `plan_blob_commit`: a membership that is there keeps its clock. -/
def blobCommitBatch (repo : RepoId) (digest : Digest) (size : Nat) (now : Timestamp) :
    WriteBatch :=
  [MetaOp.put (.blob digest) (.blob { size }) rfl, MetaOp.delete (.blobMark digest)] ++
    if s.existsPrefix (.repoBlob repo digest) then []
    else [MetaOp.put (.repoBlob repo digest) (.repoBlob { size, addedAt := now.secs }) rfl]

end Store

namespace Registry

variable (r : Registry)

def lookupRepo (name : Text) : Option RepoId × Registry :=
  let (id, interner) := r.interner.lookup r.store name
  (id, { r with interner })

def requireRepo (name : Text) : Except RegistryError RepoId × Registry :=
  match r.lookupRepo name with
  | (some id, r) => (.ok id, r)
  | (none, r) => (.error (.nameUnknown name), r)

def internRepo (name : Text) : Except RegistryError RepoId × Registry :=
  let (id, interner, store) := r.interner.intern r.store name
  (id.mapError .store, { r with interner, store })

/-- A plan for a repository that exists. -/
def planIn {α : Type} (name : Text) (plan : Store → RepoId → Except RegistryError (Planned α)) :
    Except RegistryError (Planned α) × Registry :=
  match r.requireRepo name with
  | (.ok id, r) => (plan r.store id, r)
  | (.error e, r) => (.error e, r)

/-- A plan for a repository that is created when it is not there. -/
def planInterned {α : Type} (name : Text)
    (plan : Store → RepoId → Except RegistryError (Planned α)) :
    Except RegistryError (Planned α) × Registry :=
  match r.internRepo name with
  | (.ok id, r) => (plan r.store id, r)
  | (.error e, r) => (.error e, r)

/-- The plain form of an operation: its plan, applied. -/
def commit {α : Type} : Except RegistryError (Planned α) × Registry →
    Except RegistryError α × Registry
  | (.ok planned, r) => (.ok planned.outcome, { r with store := r.store.apply planned.batch })
  | (.error e, r) => (.error e, r)

def planBlobCommit (name : Text) (digest : Digest) (size : Nat) (now : Timestamp) :
    Except RegistryError (Planned Unit) × Registry :=
  r.planInterned name fun s repo =>
    .ok { outcome := (), batch := s.blobCommitBatch repo digest size now }

def commitBlob (name : Text) (digest : Digest) (size : Nat) (now : Timestamp) :
    Except RegistryError Unit × Registry :=
  commit (r.planBlobCommit name digest size now)

/-! ## What planning and committing do to the store -/

theorem requireRepo_store (name : Text) : (r.requireRepo name).2.store = r.store := by
  unfold requireRepo
  split <;> rename_i h <;> exact congrArg (fun p => p.2.store) h.symm

theorem internRepo_get {name : Text} {k : Key} (hn : ∀ n, k ≠ .repoByName n)
    (hi : ∀ i, k ≠ .repoById i) : (r.internRepo name).2.store.get k = r.store.get k :=
  RepoInterner.intern_get hn hi

section Commit
variable {r} {α : Type} {name : Text} {plan : Store → RepoId → Except RegistryError (Planned α)}

@[simp] theorem commit_error (e : RegistryError) (r : Registry) :
    commit (α := α) (.error e, r) = (.error e, r) := rfl

@[simp] theorem commit_ok_store (p : Planned α) (r : Registry) :
    (commit (.ok p, r)).2.store = r.store.apply p.batch := rfl

theorem planIn_error {e : RegistryError} {r' : Registry}
    (h : r.planIn name plan = (.error e, r')) : r'.store = r.store := by
  have store := r.requireRepo_store name
  unfold planIn at h
  split at h <;> rename_i hreq <;> rw [hreq] at store <;> exact (Prod.mk.inj h).2 ▸ store

theorem planIn_eq {repo : RepoId} (h : (r.requireRepo name).1 = .ok repo) :
    r.planIn name plan = (plan r.store repo, (r.requireRepo name).2) := by
  have store := r.requireRepo_store name
  unfold planIn
  split <;> rename_i hreq <;> rw [hreq] at h store
  · cases h
    rw [hreq, store]
  · cases h

theorem planIn_ok {p : Planned α} {r' : Registry} (h : r.planIn name plan = (.ok p, r')) :
    r'.store = r.store ∧ ∃ repo, (r.requireRepo name).1 = .ok repo ∧ plan r.store repo = .ok p := by
  have store := r.requireRepo_store name
  unfold planIn at h
  split at h <;> rename_i hreq <;> rw [hreq] at store
  · rename_i repo r₁
    obtain ⟨hplan, rfl⟩ := Prod.mk.inj h
    exact ⟨store, repo, by rw [hreq], store ▸ hplan⟩
  · cases h

theorem planInterned_error {e : RegistryError} {r' : Registry}
    (h : r.planInterned name plan = (.error e, r')) : r' = (r.internRepo name).2 := by
  unfold planInterned at h
  split at h <;> rename_i hint <;> rw [hint] <;> exact (Prod.mk.inj h).2.symm

theorem planInterned_ok {p : Planned α} {r' : Registry}
    (h : r.planInterned name plan = (.ok p, r')) :
    ∃ repo, r.internRepo name = (.ok repo, r') ∧ plan r'.store repo = .ok p := by
  unfold planInterned at h
  split at h <;> rename_i hint
  · rename_i repo r₁
    obtain ⟨hplan, rfl⟩ := Prod.mk.inj h
    exact ⟨repo, hint, hplan⟩
  · cases h

end Commit

end Registry

end Summ
