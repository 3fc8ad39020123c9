import Summ.Registry.Sessions
import Summ.Serial.Planned
import Summ.Serial.Servable
import Summ.Storage.Expiry

/-!
# Retiring names beside uploads

A pass of the purge retires the names it finds empty, one after the other
under the lock of the name, against lists of the repositories that sessions
hold open. The requests that bring a name to life do not take that lock: each
resolves or interns the name and plans its batch in one step, and applies the
batch in a later one.
-/

namespace Summ

namespace Retiring

open Purge (PURGE_UPLOADS)

/-- Repository names one page of a pass examines. -/
def PURGE_NAMES : Nat := 500

/-- A batch in flight, with the name and the id it was planned under, and
whether it commits a blob. -/
structure Upload where
  name : Text
  id : RepoId
  batch : WriteBatch
  commits : Bool

inductive Phase
  /-- The id counter is read. -/
  | start (current : RepoId)
  /-- About to list the repositories held open, for the next page of names. -/
  | list
  | page (live : List RepoId)
  /-- Between two names of the page. -/
  | names
  /-- The name's lock is taken. -/
  | locked (name : Text)
  /-- The repositories held open are listed again. -/
  | relisted (name : Text) (live : List RepoId)
  /-- The name is found empty. -/
  | checked (name : Text) (id : RepoId)
  | ended

/-- The name whose lock is held. -/
def Phase.holding : Phase → Option Text
  | locked name | relisted name _ | checked name _ => some name
  | start _ | list | page _ | names | ended => none

structure Pass where
  watermark : RepoId
  /-- The names of the page that are still to come, and where the next page starts. -/
  repos : List EmptyRepo := []
  next : Option Text := none
  phase : Phase

structure Stage where
  registry : Registry
  purgeMark : Option RepoId := none
  /-- A request is over once its batch is applied. -/
  requests : List (Option Upload) := []
  passes : List Pass := []
  /-- The names blobs were committed under, with the ids they had then. -/
  committed : List (Text × RepoId) := []

inductive Action
  | createUpload (name : Text) (key : UploadKey) (algorithm : Text) (now : Timestamp)
  | finishUpload (name : Text) (key : UploadKey) (digest : Digest) (size : Nat) (now : Timestamp)
  | putBlob (name : Text) (digest : Digest) (size : Nat) (now : Timestamp)
  | mountBlob (name : Text) (digest : Digest) (from_ : Option Text) (now : Timestamp)
  /-- A request applies its batch. -/
  | apply (r : Nat)
  | purgeNames
  | advance (p : Nat)

namespace Stage

variable (s : Stage)

def store : Store := s.registry.store

/-- A request interns its name and plans its batch. -/
def plan (name : Text) (commits : Bool) (batch : Store → RepoId → WriteBatch) : Stage :=
  match s.registry.internRepo name with
  | (.ok id, registry) => { s with
      registry
      requests := s.requests ++ [some { name, id, batch := batch registry.store id, commits }] }
  | (.error _, registry) => { s with registry }

def createUpload (name : Text) (key : UploadKey) (algorithm : Text) (now : Timestamp) : Stage :=
  s.plan name false fun _ id => Store.createUploadBatch id key algorithm now

/-- One batch: the blob's records and the retirement of the session. -/
def finishUpload (name : Text) (key : UploadKey) (digest : Digest) (size : Nat) (now : Timestamp) :
    Stage :=
  s.plan name true fun store id =>
    store.blobCommitBatch id digest size now ++ Store.deleteUploadBatch key

def putBlob (name : Text) (digest : Digest) (size : Nat) (now : Timestamp) : Stage :=
  s.plan name true fun store id => store.blobCommitBatch id digest size now

def mountBlob (name : Text) (digest : Digest) (from_ : Option Text) (now : Timestamp) : Stage :=
  match s.registry.mountEntitled digest from_ with
  | (false, registry) => { s with registry }
  | (true, registry) =>
    match registry.store.blobRecord digest with
    | none => { s with registry }
    | some record => { s with registry }.putBlob name digest record.size now

/-- A request applies its batch and answers. -/
def apply (r : Nat) (q : Upload) : Stage :=
  { s with
    registry := { s.registry with store := s.store.apply q.batch }
    requests := s.requests.set r none
    committed := if q.commits then s.committed ++ [(q.name, q.id)] else s.committed }

def turn (p : Nat) (pass : Pass) : Stage := { s with passes := s.passes.set p pass }

/-- Whether a pass holds the name's lock. -/
def isLocked (name : Text) : Bool :=
  s.passes.any fun pass => decide (pass.phase.holding = some name)

/-- The next step of a pass. -/
def advance (p : Nat) (pass : Pass) : Option Stage :=
  match pass.phase with
  | .start current =>
    let pass := match s.purgeMark with
      | some watermark => { pass with watermark, phase := .list }
      | none => { pass with phase := .ended }
    some ({ s with purgeMark := some current }.turn p pass)
  | .list => some (s.turn p { pass with phase := .page (s.store.liveUploadRepos PURGE_UPLOADS) })
  | .page live =>
    let page := s.store.emptyRepos pass.next PURGE_NAMES live pass.watermark
    some (s.turn p { pass with repos := page.repos, next := page.next, phase := .names })
  | .names =>
    match pass.repos with
    | repo :: repos =>
      if s.isLocked repo.name then none
      else some (s.turn p { pass with repos, phase := .locked repo.name })
    | [] => some (s.turn p { pass with phase := if pass.next.isSome then .list else .ended })
  | .locked name =>
    some (s.turn p { pass with phase := .relisted name (s.store.liveUploadRepos PURGE_UPLOADS) })
  | .relisted name live =>
    match s.registry.retireCheck name live pass.watermark with
    | (some id, registry) => some ({ s with registry }.turn p { pass with phase := .checked name id })
    | (none, registry) => some ({ s with registry }.turn p { pass with phase := .names })
  | .checked name id =>
    some ({ s with registry := s.registry.retire name id }.turn p { pass with phase := .names })
  | .ended => none

end Stage

def step (s : Stage) : Action → Option Stage
  | .createUpload name key algorithm now => some (s.createUpload name key algorithm now)
  | .finishUpload name key digest size now => some (s.finishUpload name key digest size now)
  | .putBlob name digest size now => some (s.putBlob name digest size now)
  | .mountBlob name digest from_ now => some (s.mountBlob name digest from_ now)
  | .apply r => s.requests[r]?.bind fun q => q.map (s.apply r)
  | .purgeNames => some { s with
      passes := s.passes ++ [{ watermark := 0, phase := .start s.store.nextId }] }
  | .advance p => s.passes[p]?.bind (s.advance p)

/-- The name whose sessions the pass is about to list again. -/
def Phase.relisting : Phase → Option Text
  | locked name => some name
  | _ => none

/-- A pass that would not see the request's batch, or not any more: it has
listed the repositories held open without this one, or it has found the name
empty. -/
def Phase.misses (s : Stage) (watermark : RepoId) (q : Upload) : Phase → Bool
  | relisted name live => !q.commits && decide (s.store.repoByName name = some q.id) &&
      decide (q.id < watermark) && !live.contains q.id
  | checked _ id => decide (id = q.id)
  | _ => false

/-- A name that a session holds open is on the page of sessions. -/
def Listed (s : Stage) (name : Text) : Prop :=
  ∀ id ∈ s.store.repoByName name, s.store.holdsOpen id = true →
    id ∈ s.store.liveUploadRepos PURGE_UPLOADS

-- the ids are too many to look through
instance (s : Stage) (name : Text) : Decidable (Listed s name) :=
  Option.decidableForallMem (s.store.repoByName name)

/-- While the sessions fit on one page, every name is listed. -/
theorem listed_of_few {s : Stage} (few : (s.store.under .uploads none).length ≤ PURGE_UPLOADS)
    (name : Text) : Listed s name :=
  fun _ _ held => (Store.mem_liveUploadRepos (by decide) few).mpr held

/-- A request applies its batch while its name is the one it resolved and no
pass misses it. A pass lists a name's sessions again while one of them is on
the page. -/
def Heeds (s : Stage) : Action → Prop
  | .apply r => ∀ x ∈ s.requests[r]?, ∀ q ∈ x, s.store.repoByName q.name = some q.id ∧
      s.passes.all (fun pass => !pass.phase.misses s pass.watermark q) = true
  | .advance p => ∀ pass ∈ s.passes[p]?, ∀ name ∈ pass.phase.relisting, Listed s name
  | _ => True

instance (s : Stage) : ∀ a, Decidable (Heeds s a)
  | .apply r => inferInstanceAs (Decidable (∀ x ∈ s.requests[r]?, ∀ q ∈ x, _ ∧ _))
  | .advance p => inferInstanceAs (Decidable
      (∀ pass ∈ s.passes[p]?, ∀ name ∈ pass.phase.relisting, Listed s name))
  | .createUpload .. | .finishUpload .. | .putBlob .. | .mountBlob .. | .purgeNames =>
    isTrue trivial

/-! ## What the batches touch -/

/-- Some blob is in the repository. -/
def Furnished (s : Store) (id : RepoId) : Prop := ∃ d, s.has (.repoBlob id d) = true

theorem furnished_iff {s : Store} {id : RepoId} :
    s.existsPrefix (.blobsInRepo id) = true ↔ Furnished s id := by
  rw [Store.existsPrefix_iff]
  constructor
  · rintro ⟨k, v, covered, stored⟩
    cases k with
    | repoBlob id' d =>
      obtain rfl : id = id' := of_decide_eq_true covered
      exact ⟨d, by rw [Store.has, stored]; rfl⟩
    | _ => cases covered
  · rintro ⟨d, h⟩
    obtain ⟨v, stored⟩ := Option.isSome_iff_exists.mp h
    exact ⟨.repoBlob id d, v, decide_eq_true rfl, stored⟩

/-- What a batch in flight may write, and what it will: a session under the id
it was planned with, or a blob in that repository. -/
structure Upload.Sound (q : Upload) (s : Store) : Prop where
  issued : q.id < s.nextId
  touches : ∀ k, (∀ key, k ≠ .upload key) → k.mayTouch q.id = false →
    WriteBatch.effect q.batch k = none
  opens : ∀ key v, WriteBatch.effect q.batch (.upload key) = some (some v) →
    q.commits = false ∧ ∃ session, v = .upload session ∧ session.repo = q.id
  keeps : ∀ id d, WriteBatch.effect q.batch (.repoBlob id d) ≠ some none
  furnishes : ∀ d v, WriteBatch.effect q.batch (.repoBlob q.id d) = some (some v) → q.commits = true
  commits : q.commits = true → Furnished s q.id ∨
    ∃ d v, WriteBatch.effect q.batch (.repoBlob q.id d) = some (some v)

section Batches
variable {s t : Store} {q : Upload} {id : RepoId}

theorem sound_create {name : Text} (issued : id < s.nextId) (key : UploadKey) (algorithm : Text)
    (now : Timestamp) : Upload.Sound {
      name, id, batch := Store.createUploadBatch id key algorithm now, commits := false } s where
  issued := issued
  touches k hk _ := by simp [Store.createUploadBatch, MetaOp.effect, Ne.symm (hk key)]
  opens key' v h := by
    simp only [Store.createUploadBatch, WriteBatch.effect_cons, WriteBatch.effect_nil,
      Option.none_or, MetaOp.effect] at h
    split at h
    · cases h
      exact ⟨rfl, _, rfl, rfl⟩
    · cases h
  keeps id d := by simp [Store.createUploadBatch, MetaOp.effect]
  furnishes d v h := by simp [Store.createUploadBatch, MetaOp.effect] at h
  commits h := by cases h

theorem sound_commit {name : Text} {after : WriteBatch} (issued : id < s.nextId) (digest : Digest)
    (size : Nat) (now : Timestamp) (retires : ∀ k, WriteBatch.effect after k = none ∨
      WriteBatch.effect after k = some none ∧ ∃ key, k = .upload key) : Upload.Sound {
      name, id, batch := s.blobCommitBatch id digest size now ++ after, commits := true } s where
  issued := issued
  touches k hk touch := by
    dsimp only
    rw [WriteBatch.effect_append,
      WriteBatch.effect_of_within (s.blobCommitBatch_within digest size now) touch]
    obtain untouched | ⟨-, key, rfl⟩ := retires k
    · rw [untouched]
      rfl
    · exact absurd rfl (hk key)
  opens key v h := by
    dsimp only at h
    rw [WriteBatch.effect_append,
      WriteBatch.effect_of_within (s.blobCommitBatch_within digest size now) rfl] at h
    obtain untouched | ⟨gone, -⟩ := retires (.upload key)
    · rw [untouched] at h
      cases h
    · rw [gone] at h
      cases h
  keeps id' d h := by
    dsimp only at h
    obtain untouched | ⟨-, key, hk⟩ := retires (.repoBlob id' d)
    · rw [WriteBatch.effect_append, untouched, Store.blobCommitBatch_repoBlob] at h
      split at h <;> cases h
    · cases hk
  furnishes _ _ _ := rfl
  commits _ := by
    dsimp only
    cases known : s.existsPrefix (.repoBlob id digest) with
    | true =>
      exact Or.inl ⟨digest, Store.existsPrefix_repoBlob ▸ known⟩
    | false =>
      refine Or.inr ⟨digest, .repoBlob { size, addedAt := now.secs }, ?_⟩
      obtain untouched | ⟨-, key, hk⟩ := retires (.repoBlob id digest)
      · rw [WriteBatch.effect_append, untouched, Store.blobCommitBatch_repoBlob,
          if_pos ⟨known, rfl, rfl⟩]
        rfl
      · cases hk

theorem Upload.Sound.mono (sound : q.Sound s) (issued : s.nextId ≤ t.nextId)
    (kept : ∀ id, Furnished s id → Furnished t id) : q.Sound t where
  issued := Nat.lt_of_lt_of_le sound.issued issued
  touches := sound.touches
  opens := sound.opens
  keeps := sound.keeps
  furnishes := sound.furnishes
  commits h := (sound.commits h).imp_left (kept q.id)

section Apply
variable (sound : q.Sound s)
include sound

theorem Upload.Sound.sameNames : s.SameNames (s.apply q.batch) := by
  refine Store.sameNames_apply fun k hk => sound.touches k ?_ ?_
  · rintro key rfl
    cases hk
  · cases k <;> first | rfl | cases hk

theorem Upload.Sound.named (named : s.Named) : (s.apply q.batch).Named := by
  refine named.of_same sound.sameNames ?_ ?_
  · intro i h
    rwa [Store.has_apply_of_effect (sound.touches _ (fun _ h => by cases h) rfl)] at h
  · intro k i hk h
    by_cases hi : i = q.id
    · exact Or.inr (hi ▸ sound.issued)
    · rw [Store.has_apply_of_effect (sound.touches k ?_ (Key.not_mayTouch hk hi))] at h
      · exact Or.inl h
      · rintro key rfl
        cases hk

theorem Upload.Sound.furnished (h : Furnished s id) : Furnished (s.apply q.batch) id := by
  obtain ⟨d, h⟩ := h
  refine ⟨d, ?_⟩
  rw [Store.has_apply]
  cases effect : WriteBatch.effect q.batch (.repoBlob id d) with
  | none => exact h
  | some r =>
    cases r with
    | none => exact absurd effect (sound.keeps id d)
    | some v => rfl

theorem Upload.Sound.committed (commits : q.commits = true) :
    Furnished (s.apply q.batch) q.id := by
  obtain there | ⟨d, v, effect⟩ := sound.commits commits
  · exact sound.furnished there
  · exact ⟨d, by rw [Store.has_apply, effect]; rfl⟩

/-- A batch furnishes no repository but the one it commits a blob to. -/
theorem Upload.Sound.of_furnished (h : Furnished (s.apply q.batch) id) :
    Furnished s id ∨ id = q.id ∧ q.commits = true := by
  obtain ⟨d, h⟩ := h
  rw [Store.has_apply] at h
  cases effect : WriteBatch.effect q.batch (.repoBlob id d) with
  | none =>
    rw [effect] at h
    exact Or.inl ⟨d, h⟩
  | some r =>
    cases r with
    | none => exact absurd effect (sound.keeps id d)
    | some v =>
      have own : id = q.id := by
        by_contra other
        rw [sound.touches _ (fun _ h => by cases h) (Key.not_mayTouch rfl other)] at effect
        cases effect
      subst own
      exact Or.inr ⟨rfl, sound.furnishes d v effect⟩

/-- A batch opens no session but under its id. -/
theorem Upload.Sound.session {key : UploadKey} {session : UploadSession}
    (h : (s.apply q.batch).uploadSession key = some session) :
    s.uploadSession key = some session ∨ session.repo = q.id ∧ q.commits = false := by
  rw [Store.uploadSession_eq_some, Store.get_apply] at h
  cases effect : WriteBatch.effect q.batch (.upload key) with
  | none =>
    rw [effect] at h
    exact Or.inl (Store.uploadSession_eq_some.mpr h)
  | some r =>
    rw [effect] at h
    cases r with
    | none => cases h
    | some v =>
      cases h
      obtain ⟨opens, session', hs, own⟩ := sound.opens key _ effect
      cases hs
      exact Or.inr ⟨own, opens⟩

theorem Upload.Sound.of_holdsOpen (h : (s.apply q.batch).holdsOpen id = true) :
    s.holdsOpen id = true ∨ id = q.id ∧ q.commits = false := by
  obtain ⟨key, session, stored, rfl⟩ := Store.holdsOpen_iff.mp h
  obtain stored | own := sound.session stored
  · exact Or.inl (Store.holdsOpen_iff.mpr ⟨key, session, stored, rfl⟩)
  · exact Or.inr own

end Apply

end Batches

/-! ## What a pass may rely on -/

/-- What a phase has found still holds. -/
def Phase.Sound (s : Store) (watermark : RepoId) : Phase → Prop
  | start current => current ≤ s.nextId
  | relisted name live => ∀ id, s.repoByName name = some id → id < watermark →
      s.holdsOpen id = true → id ∈ live
  | checked name id => s.repoByName name = some id ∧ s.holdsOpen id = false ∧ ¬ Furnished s id
  | list | page _ | names | locked _ | ended => True

/-- What holds between the names, the sessions, the batches in flight and the
passes. -/
structure Tidy (s : Stage) : Prop where
  named : s.store.Named
  cached : s.registry.Cached
  marked : ∀ watermark, s.purgeMark = some watermark → watermark ≤ s.store.nextId
  passes : ∀ pass ∈ s.passes, pass.watermark ≤ s.store.nextId ∧
    pass.phase.Sound s.store pass.watermark
  locks : ∀ (p p' : Nat) (pass pass' : Pass) (name : Text), s.passes[p]? = some pass →
    s.passes[p']? = some pass' → pass.phase.holding = some name →
      pass'.phase.holding = some name → p = p'
  requests : ∀ q, some q ∈ s.requests → q.Sound s.store
  sessions : ∀ id, s.store.holdsOpen id = true → ∃ name, s.store.repoByName name = some id
  committed : ∀ name id, (name, id) ∈ s.committed →
    s.store.repoByName name = some id ∧ Furnished s.store id

section Names
variable {s t : Store} {name : Text} {id : RepoId}

theorem holdsOpen_congr (same : ∀ k, k.aboutNames = false → t.get k = s.get k) (id : RepoId) :
    t.holdsOpen id = s.holdsOpen id := by
  have session (key : UploadKey) : t.uploadSession key = s.uploadSession key :=
    Store.uploadSession_congr (same _ rfl)
  rw [Bool.eq_iff_iff, Store.holdsOpen_iff, Store.holdsOpen_iff]
  simp only [session]

theorem furnished_congr (same : ∀ k, k.aboutNames = false → t.get k = s.get k) (id : RepoId) :
    Furnished t id ↔ Furnished s id := by
  have has (d : Digest) : t.has (.repoBlob id d) = s.has (.repoBlob id d) := by
    rw [Store.has, Store.has, same _ rfl]
  simp only [Furnished, has]

theorem interned_mono (interned : s.Interned name id t) {n : Text} {i : RepoId}
    (h : s.repoByName n = some i) : t.repoByName n = some i := by
  cases interned with
  | known stored => exact h
  | new absent room next =>
    rw [Store.internBatch_repoByName]
    split
    · rename_i hn
      rw [hn, absent] at h
      cases h
    · exact h

theorem interned_of (interned : s.Interned name id t) {n : Text} {i : RepoId}
    (h : t.repoByName n = some i) : s.repoByName n = some i ∨ s.nextId ≤ i := by
  cases interned with
  | known stored => exact Or.inl h
  | new absent room next =>
    rw [Store.internBatch_repoByName] at h
    split at h
    · cases h
      exact Or.inr (UInt32.le_of_eq next.symm)
    · exact Or.inl h

theorem interned_nextId (interned : s.Interned name id t) : s.nextId ≤ t.nextId := by
  cases interned with
  | known stored => exact UInt32.le_refl _
  | new absent room next =>
    subst next
    obtain ⟨-, succ, -⟩ := Names.succ_of_room room
    rw [Store.internBatch_nextId]
    exact UInt32.le_of_lt succ

/-- What a phase has found, a new name does not change: its id is past every watermark. -/
theorem Phase.Sound.interned {phase : Phase} {watermark : RepoId}
    (sound : phase.Sound s watermark) (interned : s.Interned name id t)
    (before : watermark ≤ s.nextId) : phase.Sound t watermark := by
  have same (k : Key) (hk : k.aboutNames = false) : t.get k = s.get k := interned.kept hk
  cases phase with
  | start current => exact UInt32.le_trans sound (interned_nextId interned)
  | relisted n live =>
    intro i mapped lt held
    rw [holdsOpen_congr same] at held
    obtain mapped | fresh := interned_of interned mapped
    · exact sound i mapped lt held
    · exact absurd (UInt32.lt_of_lt_of_le lt before) (UInt32.not_lt.mpr fresh)
  | checked n i =>
    obtain ⟨mapped, unheld, bare⟩ := sound
    rw [Phase.Sound, holdsOpen_congr same, furnished_congr same]
    exact ⟨interned_mono interned mapped, unheld, bare⟩
  | list | page | names | locked | ended => trivial

end Names

/-! ## What each step keeps -/

section Steps
variable {s t : Stage} {q : Upload}

/-- A step that only reads leaves the caches right. -/
theorem Tidy.reading (inv : Tidy s) (store : t.store = s.store) (cached : t.registry.Cached)
    (purgeMark : t.purgeMark = s.purgeMark) (requests : t.requests = s.requests)
    (passes : t.passes = s.passes) (committed : t.committed = s.committed) : Tidy t := by
  constructor
  case cached => exact cached
  case named => exact store ▸ inv.named
  case marked => exact store ▸ purgeMark ▸ inv.marked
  case passes => exact store ▸ passes ▸ inv.passes
  case locks => exact passes ▸ inv.locks
  case requests => exact store ▸ requests ▸ inv.requests
  case sessions => exact store ▸ inv.sessions
  case committed => exact store ▸ committed ▸ inv.committed

/-- A request is planned: its name is interned, and the rest stays. -/
theorem Tidy.plan (inv : Tidy s) (name : Text) (commits : Bool)
    (batch : Store → RepoId → WriteBatch) (sound : ∀ (store : Store) id, id < store.nextId →
      Upload.Sound { name, id, batch := batch store id, commits } store) :
    Tidy (s.plan name commits batch) := by
  obtain ⟨interned, failed, -, cached⟩ := Registry.internRepo_spec inv.cached name
  unfold Stage.plan
  rcases hintern : s.registry.internRepo name with ⟨e | id, registry⟩ <;>
    rw [hintern] at interned failed cached
  · exact inv.reading (failed e rfl) cached rfl rfl rfl rfl
  · have interned : s.store.Interned name id registry.store := interned id rfl
    have same (k : Key) (hk : k.aboutNames = false) : registry.store.get k = s.store.get k :=
      interned.kept hk
    have nextId := interned_nextId interned
    have named := interned.named inv.named
    constructor
    case named => exact named
    case cached => exact cached
    case marked => exact fun w h => UInt32.le_trans (inv.marked w h) nextId
    case passes =>
      intro pass hp
      obtain ⟨before, found⟩ := inv.passes pass hp
      exact ⟨UInt32.le_trans before nextId, found.interned interned before⟩
    case locks => exact inv.locks
    case requests =>
      intro q hq
      obtain hq | hq := List.mem_append.mp hq
      · exact (inv.requests q hq).mono nextId fun id => (furnished_congr same id).mpr
      · cases List.mem_singleton.mp hq
        exact sound registry.store id (named.issued name id interned.live)
    case sessions =>
      intro i held
      obtain ⟨n, mapped⟩ := inv.sessions i ((holdsOpen_congr same i).symm.trans held)
      exact ⟨n, interned_mono interned mapped⟩
    case committed =>
      intro n i h
      obtain ⟨mapped, furnished⟩ := inv.committed n i h
      exact ⟨interned_mono interned mapped, (furnished_congr same i).mpr furnished⟩

/-- A pass that does not miss a batch has found nothing it changes. -/
theorem Upload.Sound.found (sound : q.Sound s.store) (names : s.store.SameNames (s.store.apply q.batch))
    {phase : Phase} {watermark : RepoId} (seen : phase.misses s watermark q = false)
    (found : phase.Sound s.store watermark) : phase.Sound (s.store.apply q.batch) watermark := by
  cases phase with
  | start current =>
    rw [Phase.Sound, names.nextId]
    exact found
  | relisted name live =>
    intro id mapped lt held
    rw [names.repoByName] at mapped
    obtain held | ⟨rfl, opens⟩ := sound.of_holdsOpen held
    · exact found id mapped lt held
    · simpa [Phase.misses, opens, mapped, lt] using seen
  | checked name id =>
    obtain ⟨mapped, unheld, bare⟩ := found
    have other : id ≠ q.id := of_decide_eq_false seen
    refine ⟨(names.repoByName name).trans mapped, ?_, ?_⟩
    · rw [Bool.eq_false_iff]
      intro held
      obtain held | ⟨own, -⟩ := sound.of_holdsOpen held
      · rw [unheld] at held
        cases held
      · exact other own
    · intro furnished
      obtain furnished | ⟨own, -⟩ := sound.of_furnished furnished
      · exact bare furnished
      · exact other own
  | list | page | names | locked | ended => trivial

theorem Tidy.apply (inv : Tidy s) {r : Nat} (h : s.requests[r]? = some (some q))
    (resolved : s.store.repoByName q.name = some q.id)
    (seen : ∀ pass ∈ s.passes, pass.phase.misses s pass.watermark q = false) :
    Tidy (s.apply r q) := by
  have sound : q.Sound s.store := inv.requests q (List.mem_of_getElem? h)
  have names := sound.sameNames
  have nextId : s.store.nextId = (s.store.apply q.batch).nextId := names.nextId.symm
  constructor
  case named => exact sound.named inv.named
  case cached => exact Registry.cached_apply inv.cached names
  case marked => exact fun w h => nextId ▸ inv.marked w h
  case passes =>
    intro pass hp
    obtain ⟨before, found⟩ := inv.passes pass hp
    exact ⟨nextId ▸ before, sound.found names (seen pass hp) found⟩
  case locks => exact inv.locks
  case requests =>
    intro q' hq
    obtain hq | hq := List.mem_or_eq_of_mem_set hq
    · exact (inv.requests q' hq).mono (nextId ▸ UInt32.le_refl _) fun id => sound.furnished
    · cases hq
  case sessions =>
    intro id held
    change ∃ name, (s.store.apply q.batch).repoByName name = some id
    simp only [names.repoByName]
    obtain held | ⟨rfl, -⟩ := sound.of_holdsOpen held
    · exact inv.sessions id held
    · exact ⟨q.name, resolved⟩
  case committed =>
    intro n i hc
    change (s.store.apply q.batch).repoByName n = some i ∧ Furnished (s.store.apply q.batch) i
    rw [names.repoByName]
    obtain old | ⟨commits, hnew⟩ : (n, i) ∈ s.committed ∨ q.commits = true ∧ (n, i) = (q.name, q.id) := by
      change (n, i) ∈ (if q.commits then s.committed ++ [(q.name, q.id)] else s.committed) at hc
      split at hc
      · rename_i commits
        exact (List.mem_append.mp hc).imp_right fun h => ⟨commits, List.mem_singleton.mp h⟩
      · exact Or.inl hc
    · obtain ⟨mapped, furnished⟩ := inv.committed n i old
      exact ⟨mapped, sound.furnished furnished⟩
    · cases hnew
      exact ⟨resolved, sound.committed commits⟩

theorem isLocked_eq_false {name : Text} (h : s.isLocked name = false) {pass : Pass}
    (hp : pass ∈ s.passes) : pass.phase.holding ≠ some name := by
  have := List.any_eq_false.mp h pass hp
  simpa using this

/-- A pass goes on: what it has found holds, and it takes no lock that is taken. -/
theorem Tidy.turn (inv : Tidy s) {p : Nat} {before after : Pass} (h : s.passes[p]? = some before)
    (store : t.store = s.store) (cached : t.registry.Cached)
    (marked : ∀ watermark, t.purgeMark = some watermark → watermark ≤ s.store.nextId)
    (requests : t.requests = s.requests) (committed : t.committed = s.committed)
    (passes : t.passes = s.passes.set p after) (watermark : after.watermark ≤ s.store.nextId)
    (found : after.phase.Sound s.store after.watermark)
    (locks : ∀ name, after.phase.holding = some name →
      before.phase.holding = some name ∨ s.isLocked name = false) : Tidy t := by
  constructor
  case cached => exact cached
  case named => exact store ▸ inv.named
  case marked => exact store ▸ marked
  case requests => exact store ▸ requests ▸ inv.requests
  case sessions => exact store ▸ inv.sessions
  case committed => exact store ▸ committed ▸ inv.committed
  case passes =>
    rw [store, passes]
    intro pass hp
    obtain hp | rfl := List.mem_or_eq_of_mem_set hp
    · exact inv.passes pass hp
    · exact ⟨watermark, found⟩
  case locks =>
    have alone {q : Nat} {name : Text} {pass : Pass} (hq : s.passes[q]? = some pass)
        (hold : after.phase.holding = some name) (holds : pass.phase.holding = some name) :
        q = p := by
      obtain held | free := locks name hold
      · exact inv.locks q p pass before name hq h holds held
      · exact absurd holds (isLocked_eq_false free (List.mem_of_getElem? hq))
    rw [passes]
    intro q q' pass pass' name hq hq' hold hold'
    obtain ⟨hr, hx⟩ | ⟨-, old⟩ := Pool.of_set h hq <;>
      obtain ⟨hr', hx'⟩ | ⟨-, old'⟩ := Pool.of_set h hq'
    · rw [hr, hr']
    · rw [hx] at hold
      rw [hr]
      exact (alone old' hold hold').symm
    · rw [hx'] at hold'
      rw [hr']
      exact alone old hold' hold
    · exact inv.locks q q' pass pass' name old old' hold hold'

theorem Tidy.purgeNames (inv : Tidy s) : Tidy { s with
    passes := s.passes ++ [{ watermark := 0, phase := .start s.store.nextId }] } := by
  constructor
  case cached => exact inv.cached
  case named => exact inv.named
  case marked => exact inv.marked
  case requests => exact inv.requests
  case sessions => exact inv.sessions
  case committed => exact inv.committed
  case passes =>
    intro pass hp
    obtain hp | hp := List.mem_append.mp hp
    · exact inv.passes pass hp
    · cases List.mem_singleton.mp hp
      exact ⟨UInt32.zero_le, UInt32.le_refl _⟩
  case locks =>
    intro q q' pass pass' name hq hq' hold hold'
    obtain ⟨-, rfl⟩ | hq := Pool.of_add hq
    · cases hold
    · obtain ⟨-, rfl⟩ | hq' := Pool.of_add hq'
      · cases hold'
      · exact inv.locks q q' pass pass' name hq hq' hold hold'

/-- What `retire_repo` finds before it releases a name. -/
theorem retireCheck_spec {r : Registry} (cached : r.Cached) (name : Text) (live : List RepoId)
    (internedBefore : RepoId) :
    (∀ id, (r.retireCheck name live internedBefore).1 = some id →
      r.store.repoByName name = some id ∧ id < internedBefore ∧ id ∉ live ∧ ¬ Furnished r.store id) ∧
    (r.retireCheck name live internedBefore).2.store = r.store ∧
    (r.retireCheck name live internedBefore).2.Cached := by
  obtain ⟨found, store, -, kept⟩ := Registry.lookupRepo_spec cached name
  unfold Registry.retireCheck
  rcases hlookup : r.lookupRepo name with ⟨id | id, r'⟩ <;> rw [hlookup] at found store kept
  · exact ⟨fun id h => (by cases h), store, kept⟩
  · dsimp only at found store kept ⊢
    split
    · exact ⟨fun id h => (by cases h), store, kept⟩
    · rename_i passed
      obtain ⟨before, empty⟩ := not_or.mp passed
      refine ⟨?_, store, kept⟩
      rintro _ ⟨⟩
      rw [store, Bool.not_eq_false, Store.repoIsEmpty] at empty
      simp only [Bool.and_eq_true, Bool.not_eq_true'] at empty
      obtain ⟨⟨⟨⟨⟨⟨⟨⟨unlisted, -⟩, bare⟩, -⟩, -⟩, -⟩, -⟩, -⟩, -⟩ := empty
      refine ⟨found.symm, UInt32.not_le.mp before, by simpa using unlisted, ?_⟩
      rw [← furnished_iff, bare]
      exact Bool.false_ne_true

/-- A name and its id released: nothing else changes. -/
structure Released (s : Store) (name : Text) (id : RepoId) (u : Store) : Prop where
  unmapped : s.Unmapped name id u
  same : ∀ k, k.aboutNames = false → u.get k = s.get k

theorem released_retire (s : Store) (name : Text) (id : RepoId) :
    Released s name id (s.apply (Store.retireBatch name id)) where
  unmapped := Store.unmapped_retire name id
  same k hk := by
    apply Store.get_apply_of_effect
    cases k <;> first | rfl | cases hk

section Released
variable {s u : Store} {name : Text} {id : RepoId} (released : Released s name id u)
  (mapped : s.repoByName name = some id)
include released mapped

theorem Released.named (named : s.Named) : u.Named := by
  refine named.unmapped mapped released.unmapped ?_ ?_
  · intro i hi
    rw [Store.has, released.same (.deadRepo i) rfl] at hi
    exact Or.inl hi
  · intro k i hk
    rw [Store.has, Store.has, released.same k (by cases k <;> first | rfl | cases hk)]

theorem Released.nextId (named : s.Named) : u.nextId = s.nextId :=
  released.unmapped.nextId (Names.ne_nextId_key (named.issued name id mapped))

/-- Every other id keeps its name. -/
theorem Released.kept {n : Text} {i : RepoId} (hn : s.repoByName n = some i) (hi : i ≠ id) :
    u.repoByName n = some i := by
  rw [released.unmapped.repoByName, if_neg, hn]
  rintro rfl
  rw [mapped] at hn
  exact hi (Option.some.inj hn).symm

/-- What a pass has found of another name. -/
theorem Released.found {phase : Phase} {watermark : RepoId} (named : s.Named)
    (sound : phase.Sound s watermark) (other : phase.holding ≠ some name) :
    phase.Sound u watermark := by
  cases phase with
  | start current =>
    rw [Phase.Sound, released.nextId mapped named]
    exact sound
  | relisted n live =>
    intro i hn lt held
    rw [released.unmapped.repoByName] at hn
    rw [holdsOpen_congr released.same] at held
    split at hn
    · cases hn
    · exact sound i hn lt held
  | checked n i =>
    obtain ⟨hn, unheld, bare⟩ := sound
    rw [Phase.Sound, holdsOpen_congr released.same, furnished_congr released.same,
      released.unmapped.repoByName, if_neg fun h => other (congrArg some h)]
    exact ⟨hn, unheld, bare⟩
  | list | page | names | locked | ended => trivial

end Released

/-- A name that was found empty is released: nothing needs it. -/
theorem Tidy.retire (inv : Tidy s) {p : Nat} {before after : Pass} {name : Text} {id : RepoId}
    (h : s.passes[p]? = some before) (checked : before.phase = .checked name id)
    (released : Released s.store name id t.store) (cached : t.registry.Cached)
    (purgeMark : t.purgeMark = s.purgeMark) (requests : t.requests = s.requests)
    (committed : t.committed = s.committed) (passes : t.passes = s.passes.set p after)
    (watermark : after.watermark = before.watermark) (phase : after.phase = .names) : Tidy t := by
  obtain ⟨le, found⟩ := inv.passes before (List.mem_of_getElem? h)
  rw [checked] at found
  obtain ⟨mapped, unheld, bare⟩ := found
  have nextId := released.nextId mapped inv.named
  have holding : before.phase.holding = some name := by rw [checked]; rfl
  constructor
  case named => exact released.named mapped inv.named
  case cached => exact cached
  case marked =>
    rw [nextId, purgeMark]
    exact inv.marked
  case passes =>
    rw [nextId, passes]
    intro pass hp
    obtain ⟨q, hq⟩ := List.getElem?_of_mem hp
    obtain ⟨-, rfl⟩ | ⟨hr, hq⟩ := Pool.of_set h hq
    · rw [watermark, phase]
      exact ⟨le, trivial⟩
    · obtain ⟨le, sound⟩ := inv.passes pass (List.mem_of_getElem? hq)
      refine ⟨le, released.found mapped inv.named sound ?_⟩
      exact fun hold => hr (inv.locks q p pass before name hq h hold holding)
  case locks =>
    rw [passes]
    intro q q' pass pass' n hq hq' hold hold'
    obtain ⟨-, rfl⟩ | ⟨-, hq⟩ := Pool.of_set h hq
    · rw [phase] at hold
      cases hold
    · obtain ⟨-, rfl⟩ | ⟨-, hq'⟩ := Pool.of_set h hq'
      · rw [phase] at hold'
        cases hold'
      · exact inv.locks q q' pass pass' n hq hq' hold hold'
  case requests =>
    rw [requests]
    intro q hq
    exact (inv.requests q hq).mono (nextId ▸ UInt32.le_refl _)
      fun i => (furnished_congr released.same i).mpr
  case sessions =>
    intro i held
    rw [holdsOpen_congr released.same] at held
    obtain ⟨n, hn⟩ := inv.sessions i held
    refine ⟨n, released.kept mapped hn ?_⟩
    rintro rfl
    rw [unheld] at held
    cases held
  case committed =>
    rw [committed]
    intro n i hc
    obtain ⟨hn, furnished⟩ := inv.committed n i hc
    refine ⟨released.kept mapped hn ?_, (furnished_congr released.same i).mpr furnished⟩
    rintro rfl
    exact bare furnished

theorem tidy_advance (inv : Tidy s) {p : Nat} {pass : Pass} (h : s.passes[p]? = some pass)
    (heeds : ∀ name ∈ pass.phase.relisting, Listed s name) (hs : s.advance p pass = some t) :
    Tidy t := by
  have bound := (inv.passes pass (List.mem_of_getElem? h)).1
  have found := (inv.passes pass (List.mem_of_getElem? h)).2
  unfold Stage.advance at hs
  split at hs
  case h_1 current phase =>
    rw [phase] at found
    have marked : ∀ watermark, some current = some watermark → watermark ≤ s.store.nextId := by
      rintro _ ⟨⟩
      exact found
    cases mark : s.purgeMark with
    | none =>
      rw [mark] at hs
      cases hs
      exact inv.turn h rfl inv.cached marked rfl rfl rfl bound trivial fun _ hold => by cases hold
    | some watermark =>
      rw [mark] at hs
      cases hs
      exact inv.turn h rfl inv.cached marked rfl rfl rfl (inv.marked watermark mark) trivial
        fun _ hold => by cases hold
  case h_2 | h_3 =>
    cases hs
    exact inv.turn h rfl inv.cached inv.marked rfl rfl rfl bound trivial fun _ hold => by cases hold
  case h_4 =>
    split at hs
    · split at hs
      · cases hs
      · rename_i unlocked
        cases hs
        refine inv.turn h rfl inv.cached inv.marked rfl rfl rfl bound trivial ?_
        rintro _ ⟨⟩
        exact Or.inr (Bool.eq_false_iff.mpr unlocked)
    · cases hs
      refine inv.turn h rfl inv.cached inv.marked rfl rfl rfl bound ?_ ?_
      · dsimp only
        split <;> trivial
      · intro _ hold
        dsimp only at hold
        split at hold <;> cases hold
  case h_5 name phase =>
    -- the list taken under the lock has the name's sessions
    cases hs
    rw [phase] at heeds
    refine inv.turn h rfl inv.cached inv.marked rfl rfl rfl bound ?_ ?_
    · intro id mapped _ held
      exact heeds name rfl id mapped held
    · rintro _ ⟨⟩
      exact Or.inl (by rw [phase]; rfl)
  case h_6 name live phase =>
    rw [phase] at found
    obtain ⟨empty, store, cached⟩ := retireCheck_spec inv.cached name live pass.watermark
    rcases hcheck : s.registry.retireCheck name live pass.watermark with ⟨id | id, registry⟩ <;>
      rw [hcheck] at hs empty store cached <;> cases hs
    · exact inv.turn h store cached inv.marked rfl rfl rfl bound trivial fun _ hold => by cases hold
    · obtain ⟨mapped, lt, unlisted, bare⟩ := empty id rfl
      refine inv.turn h store cached inv.marked rfl rfl rfl bound ⟨mapped, ?_, bare⟩ ?_
      · rw [Bool.eq_false_iff]
        exact fun held => unlisted (found id mapped lt held)
      · rintro _ ⟨⟩
        exact Or.inl (by rw [phase]; rfl)
  case h_7 name id phase =>
    cases hs
    have released : Released s.store name id (s.store.apply (Store.retireBatch name id)) :=
      released_retire s.store name id
    refine inv.retire h phase released ?_ rfl rfl rfl rfl rfl rfl
    exact cached_forget inv.cached released.unmapped fun n i hp => peek_forget hp
  case h_8 => cases hs

theorem tidy_step {a : Action} (inv : Tidy s) (heeds : Heeds s a) (hs : step s a = some t) :
    Tidy t := by
  have put {name : Text} {digest : Digest} {size : Nat} {now : Timestamp} {s : Stage}
      (inv : Tidy s) : Tidy (s.putBlob name digest size now) := by
    refine inv.plan name true _ fun store id issued => ?_
    rw [← List.append_nil (store.blobCommitBatch id digest size now)]
    exact sound_commit issued digest size now fun k => Or.inl rfl
  cases a with
  | createUpload name key algorithm now =>
    cases hs
    exact inv.plan name false _ fun store id issued => sound_create issued key algorithm now
  | finishUpload name key digest size now =>
    cases hs
    refine inv.plan name true _ fun store id issued => sound_commit issued digest size now ?_
    intro k
    by_cases hk : Key.upload key = k
    · exact Or.inr ⟨by simp [Store.deleteUploadBatch, MetaOp.effect, hk], key, hk.symm⟩
    · exact Or.inl (by simp [Store.deleteUploadBatch, MetaOp.effect, hk])
  | putBlob name digest size now =>
    cases hs
    exact put inv
  | mountBlob name digest from_ now =>
    cases hs
    obtain ⟨store, -, cached⟩ := mountEntitled_spec inv.cached digest from_
    rw [Stage.mountBlob]
    rcases hsource : s.registry.mountEntitled digest from_ with ⟨entitled, registry⟩
    rw [hsource] at store cached
    have read : Tidy { s with registry } := inv.reading store cached rfl rfl rfl rfl
    cases entitled with
    | false => exact read
    | true =>
      dsimp only
      split
      · exact read
      · exact put read
  | apply r =>
    obtain ⟨x, h, hs⟩ := Option.bind_eq_some_iff.mp hs
    obtain ⟨q, rfl, rfl⟩ := Option.map_eq_some_iff.mp hs
    obtain ⟨resolved, seen⟩ := heeds (some q) h q rfl
    refine inv.apply h resolved fun pass hp => ?_
    simpa using List.all_eq_true.mp seen pass hp
  | purgeNames =>
    cases hs
    exact inv.purgeNames
  | advance p =>
    obtain ⟨pass, h, hs⟩ := Option.bind_eq_some_iff.mp hs
    exact tidy_advance inv h (heeds pass h) hs

end Steps

/-! ## Names do not move -/

/-- An issued id is not given to a name that did not have it. -/
structure Aged (s t : Store) : Prop where
  nextId : s.nextId ≤ t.nextId
  names : ∀ name id, id < s.nextId → t.repoByName name = some id → s.repoByName name = some id

section Aged
variable {s t u : Store} {name : Text} {id : RepoId}

theorem Aged.refl (s : Store) : Aged s s where
  nextId := UInt32.le_refl _
  names _ _ _ h := h

theorem aged_of_eq (same : t = s) : Aged s t := same ▸ Aged.refl t

theorem Aged.trans (first : Aged s t) (second : Aged t u) : Aged s u where
  nextId := UInt32.le_trans first.nextId second.nextId
  names name id issued h := first.names name id issued
    (second.names name id (UInt32.lt_of_lt_of_le issued first.nextId) h)

theorem aged_interned (interned : s.Interned name id t) : Aged s t where
  nextId := interned_nextId interned
  names n i issued h := by
    obtain old | fresh := interned_of interned h
    · exact old
    · exact absurd issued (UInt32.not_lt.mpr fresh)

theorem aged_sameNames (names : s.SameNames t) : Aged s t where
  nextId := names.nextId ▸ UInt32.le_refl _
  names n _ _ h := (names.repoByName n).symm.trans h

theorem aged_released (named : s.Named) (mapped : s.repoByName name = some id)
    (released : Released s name id t) : Aged s t where
  nextId := released.nextId mapped named ▸ UInt32.le_refl _
  names n i _ h := by
    rw [released.unmapped.repoByName] at h
    split at h
    · cases h
    · exact h

end Aged

section Runs
variable {s t : Stage}

theorem aged_plan (inv : Tidy s) (name : Text) (commits : Bool) (batch : Store → RepoId → WriteBatch) :
    Aged s.store (s.plan name commits batch).store := by
  obtain ⟨interned, failed, -⟩ := Registry.internRepo_spec inv.cached name
  unfold Stage.plan
  rcases hintern : s.registry.internRepo name with ⟨e | id, registry⟩ <;>
    rw [hintern] at interned failed
  · exact aged_of_eq (failed e rfl)
  · exact aged_interned (interned id rfl)

theorem aged_advance (inv : Tidy s) {p : Nat} {pass : Pass} (h : s.passes[p]? = some pass)
    (hs : s.advance p pass = some t) : Aged s.store t.store := by
  have found := (inv.passes pass (List.mem_of_getElem? h)).2
  unfold Stage.advance at hs
  split at hs
  case h_4 =>
    split at hs
    · split at hs
      · cases hs
      · cases hs
        exact Aged.refl s.store
    · cases hs
      exact Aged.refl s.store
  case h_6 name live phase =>
    obtain ⟨-, store, -⟩ := retireCheck_spec inv.cached name live pass.watermark
    rcases hcheck : s.registry.retireCheck name live pass.watermark with ⟨id | id, registry⟩ <;>
      rw [hcheck] at hs store <;> cases hs <;> exact aged_of_eq store
  case h_7 name id phase =>
    cases hs
    rw [phase] at found
    exact aged_released inv.named found.1 (released_retire s.store name id)
  case h_8 => cases hs
  case h_1 | h_2 | h_3 | h_5 =>
    cases hs
    exact Aged.refl s.store

theorem aged_step {a : Action} (inv : Tidy s) (hs : step s a = some t) : Aged s.store t.store := by
  cases a with
  | createUpload | finishUpload | putBlob =>
    cases hs
    exact aged_plan inv _ _ _
  | mountBlob name digest from_ now =>
    cases hs
    obtain ⟨store, -, cached⟩ := mountEntitled_spec inv.cached digest from_
    rw [Stage.mountBlob]
    rcases hsource : s.registry.mountEntitled digest from_ with ⟨entitled, registry⟩
    rw [hsource] at store cached
    have read : Aged s.store registry.store := aged_of_eq store
    have tidy : Tidy { s with registry } := inv.reading store cached rfl rfl rfl rfl
    cases entitled with
    | false => exact read
    | true =>
      dsimp only
      split
      · exact read
      · exact read.trans (aged_plan tidy _ _ _)
  | apply r =>
    obtain ⟨x, h, hs⟩ := Option.bind_eq_some_iff.mp hs
    obtain ⟨q, rfl, rfl⟩ := Option.map_eq_some_iff.mp hs
    exact aged_sameNames (inv.requests q (List.mem_of_getElem? h)).sameNames
  | purgeNames =>
    cases hs
    exact Aged.refl s.store
  | advance p =>
    obtain ⟨pass, h, hs⟩ := Option.bind_eq_some_iff.mp hs
    exact aged_advance inv h hs

/-- A registry before its first request: whatever a session holds open is a
live name, and the mark is a value the id counter has had. -/
structure Settled (s : Stage) : Prop where
  named : s.store.Named
  cached : s.registry.Cached
  marked : ∀ watermark, s.purgeMark = some watermark → watermark ≤ s.store.nextId
  quiet : s.requests = [] ∧ s.passes = [] ∧ s.committed = []
  sessions : ∀ id, s.store.holdsOpen id = true → ∃ name, s.store.repoByName name = some id

theorem Settled.tidy (settled : Settled s) : Tidy s := by
  obtain ⟨requests, passes, committed⟩ := settled.quiet
  constructor
  case named => exact settled.named
  case cached => exact settled.cached
  case marked => exact settled.marked
  case sessions => exact settled.sessions
  case passes => rw [passes]; exact fun _ h => by cases h
  case locks => rw [passes]; exact fun _ _ _ _ _ h => by cases h
  case requests => rw [requests]; exact fun _ h => by cases h
  case committed => rw [committed]; exact fun _ _ h => by cases h

/-- Along a run in which every batch is applied under the name it was planned
for and no pass misses it, and every list a pass takes under a name's lock has
the name's sessions, a name that a stored session holds open and a name a blob
was committed under still resolve. -/
theorem uploads_keep_names {u : Stage} {before after : List Action} (settled : Settled s)
    (heeds : Transition.Meets step Heeds s (before ++ after))
    (first : Transition.exec step s before = some u)
    (second : Transition.exec step u after = some t) :
    (∀ name id, u.store.repoByName name = some id → t.store.holdsOpen id = true →
      t.store.repoByName name = some id) ∧
    (∀ id, t.store.holdsOpen id = true → ∃ name, t.store.repoByName name = some id) ∧
    ∀ name id, (name, id) ∈ t.committed → t.store.repoByName name = some id := by
  have keep (s : Stage) (a : Action) (t : Stage) (inv : Tidy s) (ok : Heeds s a)
      (hs : step s a = some t) : Tidy t := tidy_step inv ok hs
  have middle : Tidy u := Transition.exec_invariant keep settled.tidy
    (Transition.meets_prefix (List.prefix_append before after) heeds) first
  have rest := Transition.meets_suffix heeds first
  have last : Tidy t := Transition.exec_invariant keep middle rest second
  have aged : Aged u.store t.store := Transition.exec_preorder
    (R := fun s t => Aged s.store t.store) (fun s => Aged.refl s.store)
    (fun _ _ _ => Aged.trans) keep (fun _ _ _ inv _ hs => aged_step inv hs) middle rest second
  refine ⟨?_, last.sessions, fun name id h => (last.committed name id h).1⟩
  intro name id mapped held
  obtain ⟨n, hn⟩ := last.sessions id held
  have there := aged.names n id (middle.named.issued name id mapped) hn
  have same : some name = some n :=
    ((middle.named.inverse name id).mp mapped).symm.trans ((middle.named.inverse n id).mp there)
  cases same
  exact hn

end Runs

/-- An empty store, and caches that hold `entries` names. -/
def start (options : RegistryOptions) (entries : Nat) : Stage where
  registry := (System.start options entries).registry

theorem settled_start (options : RegistryOptions) (entries : Nat) :
    Settled (start options entries) where
  named := Store.named_empty
  cached := (System.coherent_start options entries).cached
  marked _ h := by cases h
  quiet := ⟨rfl, rfl, rfl⟩
  sessions id h := by
    obtain ⟨key, session, stored, -⟩ := Store.holdsOpen_iff.mp h
    cases stored

def someKey : UploadKey := ⟨List.replicate 16 0, List.length_replicate⟩

/-- A request has its name and not applied its batch while two passes begin:
the second finds the name empty and takes its lock. -/
def untilLocked (request : Action) : List Action :=
  [request, .purgeNames, .advance 0, .purgeNames, .advance 1, .advance 1, .advance 1, .advance 1]

def opening : Action := .createUpload "app".toList someKey "sha256".toList (.fromSecs 1)

def committing : Action := .putBlob "app".toList (.sha256 (List.Vector.replicate 32 0)) 3 (.fromSecs 1)

/-- The session is stored before the pass lists it under the lock. -/
theorem uploads_keep_names_relisted :
    ∃ u t, Transition.exec step (start {} 1) (untilLocked opening) = some u ∧
      Transition.exec step u [.apply 0, .advance 1, .advance 1, .advance 1] = some t ∧
      t.store.repoByName "app".toList = some 0 := by
  have heeds : Transition.Meets step Heeds (start {} 1)
      (untilLocked opening ++ [Action.apply 0, Action.advance 1, Action.advance 1,
        Action.advance 1]) := by decide +kernel
  have before : (Transition.exec step (start {} 1) (untilLocked opening)).map
      (fun u => u.store.repoByName "app".toList) = some (some 0) := by decide +kernel
  have after : (Transition.exec step (start {} 1)
      (untilLocked opening ++ [Action.apply 0, Action.advance 1, Action.advance 1,
        Action.advance 1])).map
      (fun t => t.store.holdsOpen 0) = some true := by decide +kernel
  obtain ⟨u, first, mapped⟩ := Option.map_eq_some_iff.mp before
  obtain ⟨t, whole, held⟩ := Option.map_eq_some_iff.mp after
  rw [Transition.exec_append, first] at whole
  exact ⟨u, t, first, whole,
    (uploads_keep_names (settled_start {} 1) heeds first whole).1 _ _ mapped held⟩

/-- The session is stored after the list is taken, the blob after the name is
found empty; the name is retired all the same. -/
theorem name_retired_under_upload :
    (∃ before after u t name id, Transition.exec step (start {} 1) before = some u ∧
      Transition.exec step u after = some t ∧ u.store.repoByName name = some id ∧
      t.store.holdsOpen id = true ∧ t.store.repoByName name ≠ some id) ∧
    ∃ actions t name id, Transition.exec step (start {} 1) actions = some t ∧
      (name, id) ∈ t.committed ∧ t.store.repoByName name ≠ some id := by
  constructor
  · have before : (Transition.exec step (start {} 1) (untilLocked opening)).map
        (fun u => u.store.repoByName "app".toList) = some (some 0) := by decide +kernel
    have after : (Transition.exec step (start {} 1)
        (untilLocked opening ++ [Action.advance 1, Action.apply 0, Action.advance 1,
          Action.advance 1])).map
        (fun t => (t.store.holdsOpen 0, t.store.repoByName "app".toList)) = some (true, none) := by
      decide +kernel
    obtain ⟨u, first, mapped⟩ := Option.map_eq_some_iff.mp before
    obtain ⟨t, whole, now⟩ := Option.map_eq_some_iff.mp after
    obtain ⟨held, gone⟩ := Prod.mk.inj now
    rw [Transition.exec_append, first] at whole
    exact ⟨_, _, u, t, _, _, first, whole, mapped, held, by rw [gone]; simp⟩
  · have after : (Transition.exec step (start {} 1)
        (untilLocked committing ++ [Action.advance 1, Action.advance 1, Action.apply 0,
          Action.advance 1])).map
        (fun t => (t.committed, t.store.repoByName "app".toList)) =
        some ([("app".toList, 0)], none) := by
      decide +kernel
    obtain ⟨t, run, now⟩ := Option.map_eq_some_iff.mp after
    obtain ⟨committed, gone⟩ := Prod.mk.inj now
    refine ⟨_, t, "app".toList, 0, run, ?_, by rw [gone]; simp⟩
    rw [committed]
    exact List.mem_singleton.mpr rfl

end Retiring

end Summ
