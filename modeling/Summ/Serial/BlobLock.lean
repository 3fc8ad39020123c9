import Mathlib.Logic.Function.Basic
import Summ.Lib.Sections
import Summ.Registry.Sessions
import Summ.Serial.Isolation
import Summ.Serial.Planned

/-!
# Blob records and their files

An upload renames its file into place and then writes the blob's record; a collection
deletes the record and then the file; a mount writes a record for bytes that are there.
Each holds the lock of its digest throughout, and digests are hashed to a fixed array
of locks. Reading the store and applying the batch are two steps; manifest operations
are planned and applied anywhere between, and other calls come in whole.

While no request is dropped within a task, each blob record has its file, with content
of that digest (`blob_lock`). A drop within a task frees the lock and not the task
(`dropped_loses_file`).
-/

namespace Summ

namespace BlobLock

def SHARDS : Nat := 256

/-- `BlobLocks::of`: the hash of the digest is the standard library's. -/
def shard (hash : Digest → Nat) (digest : Digest) : Nat := hash digest % SHARDS

/-- The registry, the files by digest, and the batches manifest operations have planned. -/
structure Disk where
  sys : System
  files : Digest → Option Bytes := fun _ => none
  plans : List WriteBatch := []

inductive Request
  /-- The bytes are staged, from a session or in one request. -/
  | upload (repo : Text) (digest : Digest) (content : Bytes) (session : Option UploadKey)
      (now : Timestamp)
  | mount (repo : Text) (digest : Digest) (from_ : Option Text) (now : Timestamp)
  | collect (digest : Digest) (seenBefore : Timestamp)

def Request.digest : Request → Digest
  | upload _ digest .. | mount _ digest .. | collect digest _ => digest

inductive Step
  /-- `commit_upload`: the rename, once the content is what it is declared to be. -/
  | place
  | plan
  | apply
  /-- `delete_blob`, once the record has been retracted. -/
  | unlink

/-- The request, the size of the file it put in place, what it has planned, and whether
it has applied that. -/
structure Memory where
  request : Request
  size : Option Nat := none
  planned : Option WriteBatch := none
  done : Bool := false

/-- What happens beside: another call, or a manifest operation in two steps. -/
inductive Beside
  | call (c : Call)
  | plan (op : Operation)
  | apply (i : Nat)

variable (oci : Oci) (hash : Digest → Nat)

def work (request : Request) : Sections.Work Step Memory where
  lock := shard hash request.digest
  tasks := match request with
    | .upload .. => [[.place], [.plan, .apply]]
    | .mount .. => [[.plan, .apply]]
    | .collect .. => [[.plan, .apply], [.unlink]]
  memory := { request }

/-- A commit of the blob, as a batch. -/
def planCommit (r : Registry) (repo : Text) (digest : Digest) (size : Nat) (now : Timestamp) :
    Option WriteBatch × Registry :=
  let (planned, r) := r.planBlobCommit repo digest size now
  (planned.toOption.map Planned.batch, r)

def plan (r : Registry) (size : Option Nat) : Request → Option WriteBatch × Registry
  | .upload repo digest _ session now =>
    match size with
    | some size =>
      let (batch, r) := planCommit r repo digest size now
      (batch.map fun batch => batch ++ session.toList.flatMap Store.deleteUploadBatch, r)
    | none => (none, r)
  | .mount repo digest from_ now =>
    match r.mountEntitled digest from_ with
    | (false, r) => (none, r)
    | (true, r) =>
      match r.store.blobRecord digest with
      | none => (none, r)
      | some record => planCommit r repo digest record.size now
  | .collect digest seenBefore =>
    ((r.store.collectBlob digest seenBefore).1.map fun _ =>
      [.delete (.blob digest), .delete (.blobMark digest)], r)

def run : Step → Memory → Disk → Memory × Disk
  | .place, memory, disk =>
    match memory.request with
    | .upload _ digest content _ _ =>
      if digestBody oci content (some digest) = digest then
        ({ memory with size := some content.length },
          { disk with files := Function.update disk.files digest (some content) })
      else (memory, disk)
    | _ => (memory, disk)
  | .plan, memory, disk =>
    let (planned, registry) := plan disk.sys.registry memory.size memory.request
    ({ memory with planned }, { disk with sys := disk.sys.withRegistry registry })
  | .apply, memory, disk =>
    match memory.planned with
    | some batch =>
      ({ memory with planned := none, done := true }, { disk with sys := disk.sys.applying batch })
    | none => (memory, disk)
  | .unlink, memory, disk =>
    match memory.request, memory.done with
    | .collect digest _, true =>
      (memory, { disk with files := Function.update disk.files digest none })
    | _, _ => (memory, disk)

/-- The calls that take the lock of a digest. -/
def locked : Call → Bool
  | .operation (.commitBlob ..) | .operation (.collectBlob ..) | .mountBlob .. => true
  | _ => false

def beside : Beside → Disk → Option Disk
  | .call c, disk => if locked c then none else
    (disk.sys.step oci c).map fun sys => { disk with sys }
  | .plan op, disk =>
    let (batch, registry) := op.plan oci disk.sys.registry
    some { disk with sys := disk.sys.withRegistry registry, plans := disk.plans ++ batch.toList }
  | .apply i, disk => disk.plans[i]?.map fun batch =>
    { disk with sys := disk.sys.applying batch, plans := disk.plans.eraseIdx i }

def program : Sections.Program Disk Beside Request Step Memory where
  work := work hash
  run := run oci
  other := beside oci

/-! ## Batches that stay within what has been issued -/

/-- No names, no tombstones, and no repository that has no id yet. -/
def Tame (batch : WriteBatch) (next : RepoId) : Prop := ∀ k v, batch.effect k = some v →
  k.aboutNames = false ∧ (∀ id, k ≠ .deadRepo id) ∧ ∀ id, k.repo = some id → id < next

variable {oci hash} {sys : System} {batch : WriteBatch}

theorem tame_within {id next : RepoId} (issued : id < next) (within : batch.Within id) :
    Tame batch next := by
  intro k v touched
  have may : k.mayTouch id = true := by
    by_contra other
    rw [Bool.not_eq_true] at other
    rw [WriteBatch.effect_of_within within other] at touched
    cases touched
  refine ⟨?_, ?_, ?_⟩
  · cases k <;> first | rfl | simp [Key.mayTouch, Key.repo] at may
  · rintro i rfl
    simp [Key.mayTouch, Key.repo] at may
  · intro i hk
    by_cases own : i = id
    · exact own ▸ issued
    · rw [Key.not_mayTouch hk own] at may
      cases may

theorem Tame.later {next later : RepoId} (tame : Tame batch next)
    (on : ∀ id, id < next → id < later) : Tame batch later := by
  intro k v touched
  obtain ⟨plain, dead, data⟩ := tame k v touched
  exact ⟨plain, dead, fun id hk => on id (data id hk)⟩

theorem Tame.sameNames {next : RepoId} (tame : Tame batch next) (s : Store) :
    s.SameNames (s.apply batch) := by
  refine Store.sameNames_apply fun k hk => ?_
  by_contra touched
  obtain ⟨v, touched⟩ := Option.ne_none_iff_exists'.mp touched
  rw [(tame k v touched).1] at hk
  cases hk

theorem coherent_tame (coherent : sys.Coherent) (tame : Tame batch sys.store.nextId) :
    (sys.applying batch).Coherent := by
  have names : sys.store.SameNames (sys.store.apply batch) := tame.sameNames sys.store
  refine ⟨coherent.named.of_same names ?_ ?_, Registry.cached_apply coherent.cached names, ?_⟩
  · intro id h
    cases touched : WriteBatch.effect batch (.deadRepo id) with
    | none =>
      change (sys.store.apply batch).has _ = true at h
      rwa [Store.has_apply_of_effect touched] at h
    | some v => exact absurd rfl ((tame _ v touched).2.1 id)
  · intro k id hk h
    cases touched : WriteBatch.effect batch k with
    | none =>
      change (sys.store.apply batch).has _ = true at h
      rw [Store.has_apply_of_effect touched] at h
      exact Or.inl h
    | some v => exact Or.inr ((tame k v touched).2.2 id hk)
  · intro w hw
    obtain ⟨before, gone⟩ := coherent.sweeping w hw
    exact ⟨by rw [System.applying]; exact names.nextId ▸ before, (names.repoById _).trans gone⟩

/-! ## What is kept -/

/-- A record with the size of content that has the digest. -/
def OfContent (oci : Oci) (d : Digest) (v : Value) : Prop :=
  ∃ content, digestBody oci content (some d) = d ∧ v = .blob { size := content.length }

/-- Every record has its file, and every file the content it is named by. -/
structure Whole (oci : Oci) (disk : Disk) : Prop where
  stored : ∀ d v, disk.sys.store.get (.blob d) = some v →
    (disk.files d).isSome = true ∧ OfContent oci d v
  named : ∀ d content, disk.files d = some content → digestBody oci content (some d) = d

/-- What a request may count on while it holds the lock of the digest. -/
structure Spares (d : Digest) (disk disk' : Disk) : Prop where
  file : disk'.files d = disk.files d
  record : disk'.sys.store.get (.blob d) = disk.sys.store.get (.blob d)
  issued : ∀ id, id < disk.sys.store.nextId → id < disk'.sys.store.nextId

/-- What has been planned for the digest of a request. -/
structure Due (oci : Oci) (disk : Disk) (request : Request) (batch : WriteBatch) : Prop where
  tame : Tame batch disk.sys.store.nextId
  own : ∀ d, d ≠ request.digest → batch.effect (.blob d) = none
  puts : ∀ v, batch.effect (.blob request.digest) = some (some v) →
    (disk.files request.digest).isSome = true ∧ OfContent oci request.digest v
  clears : ∀ d seen, request = .collect d seen → batch.effect (.blob d) = some none

/-- A request holds the lock of its digest. What it has put in place is there, and what
it has collected is gone. -/
structure Knows (oci : Oci) (hash : Digest → Nat) (w : Sections.Work Step Memory) (disk : Disk) :
    Prop where
  lock : w.lock = shard hash w.memory.request.digest
  placed : ∀ n, w.memory.size = some n → (∀ d seen, w.memory.request ≠ .collect d seen) ∧
    (disk.files w.memory.request.digest).isSome = true ∧
      OfContent oci w.memory.request.digest (.blob { size := n })
  due : ∀ batch, w.memory.planned = some batch → Due oci disk w.memory.request batch
  gone : ∀ d seen, w.memory.request = .collect d seen → w.memory.done = true →
    disk.sys.store.get (.blob d) = none

/-- A batch of a manifest operation touches no blob's record. -/
def Plain (disk : Disk) (batch : WriteBatch) : Prop :=
  Tame batch disk.sys.store.nextId ∧ ∀ d, batch.effect (.blob d) = none

structure Shared (oci : Oci) (disk : Disk) : Prop where
  coherent : disk.sys.Coherent
  validates : disk.sys.registry.options.validateReferences = true
  whole : Whole oci disk
  plans : ∀ batch ∈ disk.plans, Plain disk batch

section Frames
variable {disk disk' : Disk} {request : Request} {w : Sections.Work Step Memory} {d : Digest}

theorem Whole.spared (whole : Whole oci disk) (spares : ∀ d, Spares d disk disk') :
    Whole oci disk' where
  stored d v h := by
    rw [(spares d).record] at h
    rw [(spares d).file]
    exact whole.stored d v h
  named d content h := by
    rw [(spares d).file] at h
    exact whole.named d content h

theorem Due.spared (due : Due oci disk request batch)
    (spares : Spares request.digest disk disk') : Due oci disk' request batch where
  tame := due.tame.later spares.issued
  own := due.own
  puts v h := by
    rw [spares.file]
    exact due.puts v h
  clears := due.clears

theorem Knows.spared (knows : Knows oci hash w disk)
    (spares : Spares w.memory.request.digest disk disk') : Knows oci hash w disk' where
  lock := knows.lock
  placed n h := by
    rw [spares.file]
    exact knows.placed n h
  due batch h := (knows.due batch h).spared spares
  gone d seen same h := by
    have record := spares.record
    rw [same] at record
    change disk'.sys.store.get (.blob d) = disk.sys.store.get (.blob d) at record
    rw [record]
    exact knows.gone d seen same h

theorem Plain.later (plain : Plain disk batch)
    (on : ∀ id, id < disk.sys.store.nextId → id < disk'.sys.store.nextId) : Plain disk' batch :=
  ⟨plain.1.later on, plain.2⟩

/-- A batch that is applied leaves the names, and the records it does not touch. -/
theorem spares_applying {plans : List WriteBatch} (tame : Tame batch disk.sys.store.nextId)
    (untouched : batch.effect (.blob d) = none) :
    Spares d disk { disk with sys := disk.sys.applying batch, plans } where
  file := rfl
  record := Store.get_apply_of_effect untouched
  issued id h := by
    change id < (disk.sys.store.apply batch).nextId
    rw [(tame.sameNames disk.sys.store).nextId]
    exact h

theorem spares_planned {plans : List WriteBatch} {push : Option ManifestPut}
    {planned : Option WriteBatch} {r : Registry}
    (learnt : Plans oci disk.sys.registry push (planned, r)) :
    Spares d disk { disk with sys := disk.sys.withRegistry r, plans } where
  file := rfl
  record := by
    change r.store.get _ = disk.sys.registry.store.get _
    rcases learnt.interned with same | ⟨name, id, interned⟩
    · exact congrArg (fun s => Store.get s (.blob d)) same
    · exact interned.kept rfl
  issued id h := by
    rcases learnt.interned with same | ⟨name, i, interned⟩
    · change id < r.store.nextId
      have same : r.store = disk.sys.registry.store := same
      rw [same]
      exact h
    · exact interned.issued h

theorem coherent_planned {push : Option ManifestPut} {planned : Option WriteBatch} {r : Registry}
    (coherent : sys.Coherent) (learnt : Plans oci sys.registry push (planned, r)) :
    (sys.withRegistry r).Coherent := System.coherent_planned coherent learnt

end Frames

/-! ## Planning -/

section Planning
variable {r : Registry} {repo : Text} {digest d : Digest} {size : Nat} {now : Timestamp}

theorem planCommit_eq : planCommit r repo digest size now =
    ((r.planBlobCommit repo digest size now).1.toOption.map Planned.batch,
      (r.planBlobCommit repo digest size now).2) := rfl

theorem planCommit_snd : (planCommit r repo digest size now).2 = (r.internRepo repo).2 := by
  rw [planCommit_eq]
  exact Registry.planInterned_snd

theorem plans_commit (cached : r.Cached) :
    Plans oci r none (none, (planCommit r repo digest size now).2) := by
  obtain ⟨interned, failed, options, kept⟩ := Registry.internRepo_spec cached repo
  rw [planCommit_snd]
  refine ⟨kept, options, ?_, fun _ h => by cases h⟩
  cases made : (r.internRepo repo).1 with
  | error e => exact Or.inl (failed e made)
  | ok id => exact Or.inr ⟨repo, id, interned id made⟩

theorem mountEntitled_spec (cached : r.Cached) (digest : Digest) (from_ : Option Text) :
    (r.mountEntitled digest from_).2.store = r.store ∧
      (r.mountEntitled digest from_).2.options = r.options ∧
      (r.mountEntitled digest from_).2.Cached := by
  cases from_ with
  | none => exact ⟨rfl, rfl, cached⟩
  | some source =>
    obtain ⟨-, store, options, kept⟩ := Registry.lookupRepo_spec cached source
    simp only [Registry.mountEntitled, Registry.blobIsServable, Registry.readOr]
    split <;> rename_i h <;> rw [h] at store options kept <;> exact ⟨store, options, kept⟩

theorem plans_plan (cached : r.Cached) (answer : Option Nat) (request : Request) :
    Plans oci r none (none, (plan r answer request).2) := by
  cases request with
  | upload repo digest content session now =>
    cases answer with
    | none => exact plans_none cached
    | some size => exact plans_commit cached
  | mount repo digest from_ now =>
    obtain ⟨store, options, kept⟩ := mountEntitled_spec cached digest from_
    rcases made : r.mountEntitled digest from_ with ⟨entitled, r'⟩
    rw [made] at store options kept
    have same : Plans oci r none (none, r') :=
      ⟨kept, options, Or.inl store, fun _ h => by cases h⟩
    cases entitled with
    | false =>
      simp only [plan, made]
      exact same
    | true =>
      simp only [plan, made]
      cases known : r'.store.blobRecord digest with
      | none => exact same
      | some record =>
        have learnt : Plans oci r' none (none, (planCommit r' repo digest record.size now).2) :=
          plans_commit kept
        refine ⟨learnt.cached, learnt.options.trans options, ?_, fun _ h => by cases h⟩
        rw [← store]
        exact learnt.interned
  | collect digest seenBefore => exact plans_none cached

/-- A commit is planned for an id that is live, and writes one record of a blob. -/
theorem commit_planned (cached : r.Cached)
    (made : (planCommit r repo digest size now).1 = some batch) :
    ∃ id, (planCommit r repo digest size now).2.store.repoByName repo = some id ∧
      batch.Within id ∧
      ∀ d, batch.effect (.blob d) = if digest = d then some (some (.blob { size })) else none := by
  rw [planCommit_eq] at made
  obtain ⟨id, p, interns, plan, rfl⟩ := Registry.batch_of_planInterned made
  cases plan
  have interned := (Registry.internRepo_spec cached repo).1 id interns
  rw [planCommit_snd]
  exact ⟨id, interned.live, Store.blobCommitBatch_within _ _ _, Store.blobCommitBatch_blob⟩

variable {disk : Disk} {request : Request}

theorem due_commit (cached : r.Cached)
    (coherent : (disk.sys.withRegistry (planCommit r repo request.digest size now).2).Coherent)
    (held : (disk.files request.digest).isSome = true ∧ OfContent oci request.digest (.blob { size }))
    (commits : ∀ d seen, request ≠ .collect d seen)
    (made : (planCommit r repo request.digest size now).1 = some batch) :
    Due oci { disk with sys := disk.sys.withRegistry (planCommit r repo request.digest size now).2 }
      request batch := by
  obtain ⟨id, live, within, effect⟩ := commit_planned cached made
  refine ⟨tame_within (coherent.named.issued repo id live) within, ?_, ?_, ?_⟩
  · intro d ne
    rw [effect, if_neg (Ne.symm ne)]
  · intro v h
    rw [effect, if_pos rfl] at h
    cases h
    exact held
  · intro d seen same
    exact absurd same (commits d seen)

/-- The record of the session goes in the same batch. -/
theorem Due.session (due : Due oci disk request batch) (session : Option UploadKey) :
    Due oci disk request (batch ++ session.toList.flatMap Store.deleteUploadBatch) := by
  have only (k : Key) (v : Option Value)
      (h : WriteBatch.effect (session.toList.flatMap Store.deleteUploadBatch) k = some v) :
      ∃ key, k = .upload key := by
    cases session with
    | none => cases h
    | some key =>
      simp only [Option.toList_some, List.flatMap_cons, List.flatMap_nil, List.append_nil,
        Store.deleteUploadBatch, WriteBatch.effect_cons, MetaOp.effect] at h
      by_cases same : Key.upload key = k
      · exact ⟨key, same.symm⟩
      · rw [if_neg same] at h
        cases h
  have blob (d : Digest) : WriteBatch.effect
      (batch ++ session.toList.flatMap Store.deleteUploadBatch) (.blob d) =
        batch.effect (.blob d) := by
    rw [WriteBatch.effect_append]
    cases h : WriteBatch.effect (session.toList.flatMap Store.deleteUploadBatch) (.blob d) with
    | none => rfl
    | some v =>
      obtain ⟨key, same⟩ := only _ v h
      cases same
  refine ⟨fun k v h => ?_, fun d ne => ?_, fun v h => ?_, fun d seen same => ?_⟩
  · rw [WriteBatch.effect_append, Option.or_eq_some_iff] at h
    rcases h with h | ⟨-, h⟩
    · obtain ⟨key, rfl⟩ := only k v h
      exact ⟨rfl, fun id same => (by cases same), fun id same => (by cases same)⟩
    · exact due.tame k v h
  · rw [blob]
    exact due.own d ne
  · rw [blob] at h
    exact due.puts v h
  · rw [blob]
    exact due.clears d seen same

theorem due_collect (seenBefore : Timestamp) : Due oci disk (.collect digest seenBefore)
    [.delete (.blob digest), .delete (.blobMark digest)] := by
  have touched (k : Key) (v : Option Value) (h : WriteBatch.effect
      [.delete (.blob digest), .delete (.blobMark digest)] k = some v) :
      v = none ∧ (k = .blob digest ∨ k = .blobMark digest) := by
    simp only [WriteBatch.effect_cons, WriteBatch.effect_nil, MetaOp.effect] at h
    split at h <;> split at h <;> simp_all
  refine ⟨fun k v h => ?_, fun d ne => ?_, fun v h => ?_, fun d seen same => ?_⟩
  · obtain ⟨-, rfl | rfl⟩ := touched k v h
    · exact ⟨rfl, fun id same => (by cases same), fun id same => (by cases same)⟩
    · exact ⟨rfl, fun id same => (by cases same), fun id same => (by cases same)⟩
  · by_contra some_
    obtain ⟨v, h⟩ := Option.ne_none_iff_exists'.mp some_
    obtain ⟨-, same | same⟩ := touched _ v h
    · exact ne (Key.blob.inj same)
    · cases same
  · cases (touched _ _ h).1
  · cases same
    simp [MetaOp.effect]

/-- What the task plans, once it has read the store. -/
theorem due_of_plan (shared : Shared oci disk) {memory : Memory}
    (placed : ∀ n, memory.size = some n →
      (disk.files memory.request.digest).isSome = true ∧
        OfContent oci memory.request.digest (.blob { size := n }))
    (made : (plan disk.sys.registry memory.size memory.request).1 = some batch) :
    Due oci { disk with
      sys := disk.sys.withRegistry (plan disk.sys.registry memory.size memory.request).2 }
      memory.request batch := by
  have cached := shared.coherent.cached
  have coherent : (disk.sys.withRegistry
      (plan disk.sys.registry memory.size memory.request).2).Coherent :=
    coherent_planned shared.coherent (plans_plan cached _ _ : Plans oci _ _ _)
  obtain ⟨request, size, planned, done⟩ := memory
  cases request with
  | upload repo digest content session now =>
    cases size with
    | none => cases made
    | some size =>
      obtain ⟨batch', committed, rfl⟩ := Option.map_eq_some_iff.mp made
      refine Due.session ?_ session
      exact due_commit cached coherent (placed size rfl) (fun d seen same => by cases same) committed
  | mount repo digest from_ now =>
    obtain ⟨store, -, kept⟩ := mountEntitled_spec cached digest from_
    rcases entitles : disk.sys.registry.mountEntitled digest from_ with ⟨entitled, r'⟩
    rw [entitles] at store kept
    simp only [plan, entitles] at made coherent ⊢
    cases entitled with
    | false => cases made
    | true =>
      dsimp only at made coherent ⊢
      cases known : r'.store.blobRecord digest with
      | none =>
        rw [known] at made
        cases made
      | some record =>
        rw [known] at made coherent
        have held := shared.whole.stored digest (.blob record) (by
          change disk.sys.registry.store.get _ = _
          rw [← store]
          exact Store.blobRecord_eq_some.mp known)
        have commits (d : Digest) (seen : Timestamp) :
            Request.mount repo digest from_ now ≠ .collect d seen := fun same => by cases same
        exact due_commit kept coherent held commits made
  | collect digest seenBefore =>
    obtain ⟨size, -, rfl⟩ := Option.map_eq_some_iff.mp made
    exact due_collect seenBefore

end Planning

/-! ## Runs -/

section Rules
variable {disk disk' : Disk} {w : Sections.Work Step Memory} {d : Digest}

/-- A step leaves every other digest alone. -/
theorem spares_run (shared : Shared oci disk) (knows : Knows oci hash w disk) (i : Step)
    (other : d ≠ w.memory.request.digest) : Spares d disk (run oci i w.memory disk).2 := by
  have same : Spares d disk disk := ⟨rfl, rfl, fun _ h => h⟩
  obtain ⟨lock, tasks, request, size, planned, done⟩ := w
  cases i with
  | place =>
    cases request with
    | upload repo digest content session now =>
      simp only [run]
      split
      · exact ⟨Function.update_of_ne other _ _, rfl, fun _ h => h⟩
      · exact same
    | mount repo digest from_ now => exact same
    | collect digest seen => exact same
  | plan => exact spares_planned (plans_plan shared.coherent.cached size request : Plans oci _ _ _)
  | apply =>
    cases planned with
    | none => exact same
    | some batch =>
      have due := knows.due batch rfl
      exact spares_applying due.tame (due.own d other)
  | unlink =>
    cases request with
    | upload repo digest content session now => exact same
    | mount repo digest from_ now => exact same
    | collect digest seen =>
      cases done with
      | false => exact same
      | true => exact ⟨Function.update_of_ne other _ _, rfl, fun _ h => h⟩

/-- A file that is put in place leaves every file there is. -/
theorem isSome_update {files : Digest → Option Bytes} {digest : Digest} {content : Bytes}
    (h : (files d).isSome = true) : (Function.update files digest (some content) d).isSome = true := by
  by_cases own : d = digest
  · rw [own, Function.update_self]
    rfl
  · rw [Function.update_of_ne own]
    exact h

theorem keeps_place (shared : Shared oci disk) (knows : Knows oci hash w disk)
    (is : List Step) (rest : List (List Step)) :
    Shared oci (run oci .place w.memory disk).2 ∧
      Knows oci hash (w.did is rest (run oci .place w.memory disk).1)
        (run oci .place w.memory disk).2 := by
  have same : Shared oci disk ∧ Knows oci hash (w.did is rest w.memory) disk :=
    ⟨shared, knows.lock, knows.placed, knows.due, knows.gone⟩
  obtain ⟨lock, tasks, request, size, planned, done⟩ := w
  cases request with
  | upload repo digest content session now =>
    simp only [run]
    split
    · rename_i hashed
      refine ⟨⟨shared.coherent, shared.validates, ⟨fun d v h => ?_, fun d held h => ?_⟩,
        shared.plans⟩, knows.lock, fun n h => ?_, fun batch h => ?_, fun d seen collects => ?_⟩
      · obtain ⟨file, size⟩ := shared.whole.stored d v h
        exact ⟨isSome_update file, size⟩
      · dsimp only at h
        by_cases own : d = digest
        · rw [own, Function.update_self] at h
          cases h
          rw [own]
          exact hashed
        · rw [Function.update_of_ne own] at h
          exact shared.whole.named d held h
      · cases h
        refine ⟨fun d seen same => (by cases same), ?_, content, hashed, rfl⟩
        change (Function.update disk.files digest (some content) digest).isSome = true
        rw [Function.update_self]
        rfl
      · have due := knows.due batch h
        refine ⟨due.tame, due.own, fun v puts => ?_, due.clears⟩
        obtain ⟨file, size⟩ := due.puts v puts
        exact ⟨isSome_update file, size⟩
      · cases collects
    · exact same
  | mount repo digest from_ now => exact same
  | collect digest seen => exact same

theorem keeps_plan (shared : Shared oci disk) (knows : Knows oci hash w disk)
    (is : List Step) (rest : List (List Step)) :
    Shared oci (run oci .plan w.memory disk).2 ∧
      Knows oci hash (w.did is rest (run oci .plan w.memory disk).1)
        (run oci .plan w.memory disk).2 := by
  have learnt : Plans oci disk.sys.registry none
      (none, (plan disk.sys.registry w.memory.size w.memory.request).2) :=
    plans_plan shared.coherent.cached _ _
  have spares (d : Digest) : Spares d disk (run oci .plan w.memory disk).2 := spares_planned learnt
  have later : Knows oci hash w (run oci .plan w.memory disk).2 := knows.spared (spares _)
  refine ⟨⟨coherent_planned shared.coherent learnt, ?_, shared.whole.spared spares, ?_⟩,
    knows.lock, later.placed, fun batch made => ?_, later.gone⟩
  · exact learnt.options.symm ▸ shared.validates
  · intro batch mem
    exact (shared.plans batch mem).later (spares (w.memory.request.digest)).issued
  · exact due_of_plan shared (fun n h => (knows.placed n h).2) made

theorem keeps_apply (shared : Shared oci disk) (knows : Knows oci hash w disk)
    (is : List Step) (rest : List (List Step)) :
    Shared oci (run oci .apply w.memory disk).2 ∧
      Knows oci hash (w.did is rest (run oci .apply w.memory disk).1)
        (run oci .apply w.memory disk).2 := by
  obtain ⟨lock, tasks, request, size, planned, done⟩ := w
  cases planned with
  | none => exact ⟨shared, knows.lock, knows.placed, knows.due, knows.gone⟩
  | some batch =>
    have due := knows.due batch rfl
    have names := due.tame.sameNames disk.sys.store
    have at_ (d : Digest) (v : Value) (h : (disk.sys.store.apply batch).get (.blob d) = some v) :
        disk.sys.store.get (.blob d) = some v ∨
          d = request.digest ∧ batch.effect (.blob d) = some (some v) := by
      rw [Store.get_apply] at h
      cases touched : WriteBatch.effect batch (.blob d) with
      | none =>
        rw [touched] at h
        exact Or.inl h
      | some put =>
        rw [touched] at h
        refine Or.inr ⟨?_, congrArg some h⟩
        by_contra other
        rw [due.own d other] at touched
        cases touched
    refine ⟨⟨coherent_tame shared.coherent due.tame, shared.validates,
      ⟨fun d v h => ?_, shared.whole.named⟩, fun batch' mem => ?_⟩, knows.lock, knows.placed,
      fun batch' h => (by cases h), fun d seen collects _ => ?_⟩
    · rcases at_ d v h with old | ⟨rfl, put⟩
      · exact shared.whole.stored d v old
      · exact due.puts v put
    · refine (shared.plans batch' mem).later fun id h => ?_
      change id < (disk.sys.store.apply batch).nextId
      rw [names.nextId]
      exact h
    · change (disk.sys.store.apply batch).get (.blob d) = none
      rw [Store.get_apply, due.clears d seen collects]
      rfl

theorem keeps_unlink (shared : Shared oci disk) (knows : Knows oci hash w disk)
    (is : List Step) (rest : List (List Step)) :
    Shared oci (run oci .unlink w.memory disk).2 ∧
      Knows oci hash (w.did is rest (run oci .unlink w.memory disk).1)
        (run oci .unlink w.memory disk).2 := by
  have same : Shared oci disk ∧ Knows oci hash (w.did is rest w.memory) disk :=
    ⟨shared, knows.lock, knows.placed, knows.due, knows.gone⟩
  obtain ⟨lock, tasks, request, size, planned, done⟩ := w
  cases request with
  | upload repo digest content session now => exact same
  | mount repo digest from_ now => exact same
  | collect digest seen =>
    cases done with
    | false => exact same
    | true =>
      have gone := knows.gone digest seen rfl rfl
      refine ⟨⟨shared.coherent, shared.validates, ⟨fun d v h => ?_, fun d content h => ?_⟩,
        shared.plans⟩, knows.lock, fun n h => ?_, fun batch h => ?_, knows.gone⟩
      · have other : d ≠ digest := by
          rintro rfl
          cases gone.symm.trans h
        change (Function.update disk.files digest none d).isSome = true ∧ _
        rw [Function.update_of_ne other]
        exact shared.whole.stored d v h
      · change Function.update disk.files digest none d = _ at h
        by_cases own : d = digest
        · rw [own, Function.update_self] at h
          cases h
        · rw [Function.update_of_ne own] at h
          exact shared.whole.named d content h
      · exact absurd rfl ((knows.placed n h).1 digest seen)
      · have due := knows.due batch h
        refine ⟨due.tame, due.own, fun v puts => ?_, due.clears⟩
        cases (due.clears digest seen rfl).symm.trans puts

/-- A manifest operation plans no write of a blob's record. -/
theorem blob_of_plan {r : Registry} (validates : r.options.validateReferences = true)
    {op : Operation} (made : (op.plan oci r).1 = some batch) (d : Digest) :
    batch.effect (.blob d) = none := by
  cases op with
  | putManifest put extraTags =>
    simp only [Operation.plan, Registry.planManifestPutTagged] at made
    cases checked : checkPut oci r.options put with
    | error e =>
      rw [checked] at made
      cases made
    | ok c =>
      rw [checked] at made
      obtain ⟨id, p, -, hp, rfl⟩ := Registry.batch_of_planInterned made
      obtain ⟨held, ts, -, hbatch⟩ := Store.planPush_ok hp
      rw [hbatch]
      exact Store.pushBatch_blob (held validates).1 d
  | setTag repo tag digest now =>
    simp only [Operation.plan, Registry.planSetTag] at made
    cases checked : validateTag tag with
    | error e =>
      rw [checked] at made
      cases made
    | ok t =>
      rw [checked] at made
      obtain ⟨id, p, -, hp, rfl⟩ := Registry.batch_of_planIn made
      obtain ⟨target, record, -, -, hbatch⟩ := Store.planSetTag_ok hp
      rw [hbatch]
      exact setTagOps_other rfl
  | deleteTag repo tag now =>
    simp only [Operation.plan, Registry.planDeleteTag] at made
    obtain ⟨id, p, -, hp, rfl⟩ := Registry.batch_of_planIn made
    obtain ⟨record, -, hbatch⟩ := Store.planDeleteTag_ok hp
    rw [hbatch]
    exact deleteTagOps_other rfl
  | deleteManifest repo digest now =>
    simp only [Operation.plan, Registry.planManifestDelete] at made
    obtain ⟨id, p, -, hp, rfl⟩ := Registry.batch_of_planIn made
    obtain ⟨record, -, hbatch⟩ := Store.planManifestDelete_ok hp
    rw [hbatch]
    exact Store.manifestDelete_blob d
  | purgeManifest repo digest pushedBefore now =>
    simp only [Operation.plan] at made
    obtain ⟨id, p, -, hp, rfl⟩ := Registry.batch_of_planIn made
    rcases Store.planPurgeManifest_ok hp with hbatch | ⟨record, -, -, hbatch⟩
    · rw [hbatch]
      rfl
    · rw [hbatch]
      exact Store.manifestDelete_blob d
  | _ => cases made

/-- What happens beside leaves every digest alone. -/
theorem beside_spec {a : Beside} (shared : Shared oci disk) (h : beside oci a disk = some disk') :
    (∀ d, Spares d disk disk') ∧ Shared oci disk' := by
  cases a with
  | call c =>
    simp only [beside, Option.ite_none_left_eq_some, Bool.not_eq_true] at h
    obtain ⟨free, h⟩ := h
    obtain ⟨sys', stepped, rfl⟩ := Option.map_eq_some_iff.mp h
    obtain ⟨⟨accepted, after⟩, called, rfl⟩ := Option.map_eq_some_iff.mp stepped
    have served := System.effect_of_call shared.coherent called
    have spares (d : Digest) : Spares d disk { disk with sys := after } := by
      refine ⟨rfl, ?_, fun id => served.effect.issued shared.coherent.named⟩
      rcases served.effect.blob shared.validates d with same | ⟨seen, rfl, -⟩ |
        ⟨repo, size, now, rfl, -⟩
      · exact same
      · cases free
      · cases free
    refine ⟨spares, System.coherent_of_call shared.coherent called,
      (congrArg RegistryOptions.validateReferences served.options).trans shared.validates, shared.whole.spared spares, fun batch mem => ?_⟩
    exact (shared.plans batch mem).later fun id => served.effect.issued shared.coherent.named
  | plan op =>
    cases h
    have learnt : Plans oci disk.sys.registry op.push (op.plan oci disk.sys.registry) :=
      Operation.plan_spec shared.coherent.cached op
    have spares (d : Digest) : Spares d disk { disk with
        sys := disk.sys.withRegistry (op.plan oci disk.sys.registry).2
        plans := disk.plans ++ (op.plan oci disk.sys.registry).1.toList } := spares_planned learnt
    have coherent := coherent_planned shared.coherent learnt
    have issued (id : RepoId) (h : id < disk.sys.store.nextId) :
        id < (disk.sys.withRegistry (op.plan oci disk.sys.registry).2).store.nextId :=
      (spares emptyConfig).issued id h
    refine ⟨spares, coherent,
      (congrArg RegistryOptions.validateReferences learnt.options).trans shared.validates,
      shared.whole.spared spares, fun batch mem => ?_⟩
    rcases List.mem_append.mp mem with old | new
    · exact (shared.plans batch old).later issued
    · rw [Option.mem_toList] at new
      obtain ⟨⟨name, id, live, within⟩, -⟩ := learnt.batch batch new
      exact ⟨tame_within (coherent.named.issued name id live) within,
        blob_of_plan shared.validates new⟩
  | apply i =>
    obtain ⟨batch, taken, rfl⟩ := Option.map_eq_some_iff.mp h
    have plain := shared.plans batch (List.mem_of_getElem? taken)
    have spares (d : Digest) : Spares d disk { disk with
        sys := disk.sys.applying batch, plans := disk.plans.eraseIdx i } :=
      spares_applying plain.1 (plain.2 d)
    refine ⟨spares, coherent_tame shared.coherent plain.1, shared.validates,
      shared.whole.spared spares, fun batch' mem => ?_⟩
    refine (shared.plans batch' (List.mem_of_mem_eraseIdx mem)).later fun id h => ?_
    change id < (disk.sys.store.apply batch).nextId
    rw [(plain.1.sameNames disk.sys.store).nextId]
    exact h

theorem rules : Sections.Rules (program oci hash) (Shared oci) (Knows oci hash) fun _ _ => True where
  symm _ _ _ := trivial
  enter disk request _ := by
    refine ⟨⟨rfl, fun n h => ?_, fun batch h => ?_, fun d seen _ h => ?_⟩, fun _ _ => trivial⟩
    · cases h
    · cases h
    · cases h
  keeps disk w i is rest _ shared knows := by
    cases i with
    | place => exact keeps_place shared knows is rest
    | plan => exact keeps_plan shared knows is rest
    | apply => exact keeps_apply shared knows is rest
    | unlink => exact keeps_unlink shared knows is rest
  spares disk w i is rest w' _ shared knows locks_ _ knows' := by
    have other : w'.memory.request.digest ≠ w.memory.request.digest := by
      intro same
      exact locks_ (by rw [knows'.lock, knows.lock, same])
    exact ⟨knows'.spared (spares_run shared knows i other), trivial⟩
  next disk w rest _ knows :=
    ⟨⟨knows.lock, knows.placed, knows.due, knows.gone⟩, fun _ _ => trivial⟩
  other a disk disk' h shared := by
    obtain ⟨spares, shared'⟩ := beside_spec shared h
    exact ⟨shared', fun w knows => knows.spared (spares _)⟩

end Rules

/-- Each blob record has its file, the file has content of that digest, and the size
recorded is that of such content. -/
def Intact (oci : Oci) (disk : Disk) : Prop :=
  ∀ d record, disk.sys.store.blobRecord d = some record →
    (∃ content, disk.files d = some content ∧ digestBody oci content (some d) = d) ∧
      ∃ content, digestBody oci content (some d) = d ∧ content.length = record.size

theorem Whole.intact {disk : Disk} (whole : Whole oci disk) : Intact oci disk := by
  intro d record known
  obtain ⟨file, content, hashed, size⟩ := whole.stored d _ (Store.blobRecord_eq_some.mp known)
  obtain ⟨held, there⟩ := Option.isSome_iff_exists.mp file
  refine ⟨⟨held, there, whole.named d held there⟩, content, hashed, ?_⟩
  cases size
  rfl

end BlobLock

/-- In every run of uploads, mounts and collections under the locks of their digests,
with manifest operations and other calls anywhere between, in which no request is
dropped within a task and references are validated, every blob record has its file. -/
theorem blob_lock (oci : Oci) (hash : Digest → Nat) {options : RegistryOptions} (entries : Nat)
    (validates : options.validateReferences = true)
    {acts : List (Sections.Act BlobLock.Beside BlobLock.Request)}
    {stage : Sections.Stage BlobLock.Disk BlobLock.Step BlobLock.Memory}
    (meets : Transition.Meets (Sections.step (BlobLock.program oci hash)) Sections.Heeds
      { shared := { sys := .start options entries } } acts)
    (run : Transition.exec (Sections.step (BlobLock.program oci hash))
      { shared := { sys := .start options entries } } acts = some stage) :
    BlobLock.Intact oci stage.shared := by
  have shared : BlobLock.Shared oci { sys := .start options entries } := by
    refine ⟨System.coherent_start options entries, validates, ⟨fun d v h => ?_, fun d content h => ?_⟩,
      fun batch mem => ?_⟩
    · change (∅ : Store).get _ = _ at h
      rw [Store.get_empty] at h
      cases h
    · cases h
    · cases mem
  exact (Sections.sections_hold BlobLock.rules shared meets run).inv.whole.intact

namespace BlobLock

/-- The bytes of the image, uploaded as a blob to `app`. -/
def uploadImage (secs : Nat) : Request :=
  .upload "app".toList emptyImage.digest emptyImage.body none (.fromSecs secs)

def markImage : Sections.Act Beside Request :=
  .other (.call (.operation (.scanBlobs none 500 (.fromSecs 0) (.fromSecs 10))))

def collectImage : Request := .collect emptyImage.digest (.fromSecs 100)

/-- The blob is uploaded and marked; it is collected, and then uploaded again. -/
def inTurns : List (Sections.Act Beside Request) :=
  [.arrive (uploadImage 1), .arrive (uploadImage 200), .arrive collectImage, .enter 0, .work 0,
    .proceed 0, .work 0, .work 0, .proceed 0, markImage, .enter 2, .work 2, .work 2, .proceed 2,
    .work 2, .proceed 2, .enter 1, .work 1, .proceed 1, .work 1, .work 1]

/-- The second upload is dropped between its plan and its batch, and the collection has
the lock. -/
def droppedWithin : List (Sections.Act Beside Request) :=
  [.arrive (uploadImage 1), .arrive (uploadImage 200), .arrive collectImage, .enter 0, .work 0,
    .proceed 0, .work 0, .work 0, .proceed 0, markImage, .enter 1, .work 1, .proceed 1, .work 1,
    .drop 1, .enter 2, .work 2, .work 2, .proceed 2, .work 1, .work 2]

end BlobLock

theorem blob_lock_inTurns : ∃ stage,
    Transition.exec (Sections.step (BlobLock.program imageOci fun _ => 0))
      { shared := { sys := .start {} 1 } } BlobLock.inTurns = some stage ∧
      BlobLock.Intact imageOci stage.shared := by
  have meets : Transition.Meets (Sections.step (BlobLock.program imageOci fun _ => 0))
      Sections.Heeds { shared := { sys := .start {} 1 } } BlobLock.inTurns := by decide +kernel
  obtain ⟨stage, run⟩ : ∃ stage,
      Transition.exec (Sections.step (BlobLock.program imageOci fun _ => 0))
        { shared := { sys := .start {} 1 } } BlobLock.inTurns = some stage :=
    Option.isSome_iff_exists.mp (by decide +kernel)
  exact ⟨stage, run, blob_lock imageOci (fun _ => 0) 1 rfl meets run⟩

/-- The record is left without its file. -/
theorem dropped_loses_file : ∃ stage,
    Transition.exec (Sections.step (BlobLock.program imageOci fun _ => 0))
      { shared := { sys := .start {} 1 } } BlobLock.droppedWithin = some stage ∧
      ¬BlobLock.Intact imageOci stage.shared := by
  have facts : (Transition.exec (Sections.step (BlobLock.program imageOci fun _ => 0))
      { shared := { sys := .start {} 1 } } BlobLock.droppedWithin).map (fun stage =>
        (stage.shared.sys.store.blobRecord emptyImage.digest).isSome &&
        (stage.shared.files emptyImage.digest).isNone) = some true := by decide +kernel
  obtain ⟨stage, run, h⟩ := Option.map_eq_some_iff.mp facts
  rw [Bool.and_eq_true, Option.isNone_iff_eq_none] at h
  obtain ⟨record, known⟩ := Option.isSome_iff_exists.mp h.1
  refine ⟨stage, run, fun intact => ?_⟩
  obtain ⟨⟨content, there, -⟩, -⟩ := intact emptyImage.digest record known
  rw [h.2] at there
  cases there

end Summ
