import Summ.Storage.UploadIds
import Summ.Storage.Uploads

/-!
# Upload sessions, one request after the other

A session's key, its record, and its staging file under the text of an upload
id. Bodies arrive in frames and can break at any of them; what was written by
then stays in the file and is cut off at the next resume. A finish renames the
file and then retires the session: the process can end before, between and after.
-/

namespace Summ.Resume

open Uploads (Session writeAllAt)

/-- What a body's stream yields next. -/
inductive Frame
  | data (chunk : Bytes)
  /-- A frame whose write fails after `n` bytes. -/
  | short (chunk : Bytes) (n : Nat)
  | broken
  /-- The process ends here. -/
  | crash

def Frame.bytes : Frame → Bytes
  | data chunk | short chunk _ => chunk
  | broken | crash => []

structure UploadBody where
  frames : List Frame
  declared : Option Nat
  limit : Option Nat

/-- All that a body carries. -/
def UploadBody.bytes (body : UploadBody) : Bytes := body.frames.flatMap Frame.bytes

/-- Why a request was not accepted. -/
inductive Failure
  | uploadUnknown
  | offsetMismatch (current : Nat)
  | bodyTooLarge (limit : Nat)
  | bodyIncomplete
  | sizeMismatch (declared actual : Nat)
  | digestMismatch
  | blobUnknown
  | internal
  /-- No answer at all. -/
  | crashed
  deriving DecidableEq

inductive Answer
  | created
  | appended (offset : Nat)
  | finished
  | cancelled
  | failed (e : Failure)
  /-- None: the process ended between the rename and the batch of a finish. -/
  | interrupted
  deriving DecidableEq

def Answer.isFailure : Answer → Bool
  | failed _ | interrupted => true
  | created | appended _ | finished | cancelled => false

/-- An upload that is open. -/
structure Upload where
  path : Text
  algorithm : DigestAlgorithm
  offset : Nat
  hasher : Hasher

/-- Where the process ends in a finish that has read its body. -/
inductive Crash
  | written
  /-- Between the rename and the batch that retires the session. -/
  | renamed
  deriving DecidableEq

inductive Request (D : Type)
  | create (repo : RepoId) (uuid : UploadKey) (algorithm : DigestAlgorithm)
  /-- With `crash`, the process ends when the body has been written. -/
  | append (repo : RepoId) (id : Text) (expectedOffset : Nat) (body : UploadBody) (crash : Bool)
  | finish (repo : RepoId) (id : Text) (expectedOffset : Nat) (body : UploadBody) (digest : D)
    (crash : Option Crash)
  | cancel (repo : RepoId) (id : Text)

structure State (D : Type) where
  files : Text → Option Bytes := fun _ => none
  sessions : UploadKey → Option Session := fun _ => none
  blobs : D → Option Bytes := fun _ => none

variable {D : Type}

namespace State

variable (s : State D)

def putFile (path : Text) (content : Option Bytes) : State D :=
  { s with files := Function.update s.files path content }

def putSession (key : UploadKey) (session : Option Session) : State D :=
  { s with sessions := Function.update s.sessions key session }

@[simp] theorem putFile_self (path : Text) (content : Option Bytes) :
    (s.putFile path content).files path = content := Function.update_self ..

theorem putFile_of_ne {path other : Text} (h : other ≠ path) (content : Option Bytes) :
    (s.putFile path content).files other = s.files other := Function.update_of_ne h ..

@[simp] theorem putFile_putFile (path : Text) (a b : Option Bytes) :
    (s.putFile path a).putFile path b = s.putFile path b := by
  rw [putFile, putFile, putFile, Function.update_idem]

@[simp] theorem putSession_self (key : UploadKey) (session : Option Session) :
    (s.putSession key session).sessions key = session := Function.update_self ..

theorem putSession_of_ne {key other : UploadKey} (h : other ≠ key) (session : Option Session) :
    (s.putSession key session).sessions other = s.sessions other := Function.update_of_ne h ..

/-- What an open upload's file holds. -/
def content (u : Upload) : Bytes := (s.files u.path).getD []

/-- `get_upload_in`. -/
def getUploadIn (repo : RepoId) (key : UploadKey) : Option Session :=
  (s.sessions key).filter fun session => decide (session.repo = repo)

/-- `create_upload` of the backend: staging file first, session record second. -/
def createUpload (repo : RepoId) (id : Text) (algorithm : DigestAlgorithm) : Answer × State D :=
  match parseUploadId id, UploadId.new id with
  | some key, some path =>
    match s.files path.text with
    | some _ => (.failed .internal, s)
    | none =>
      (.created, (s.putFile path.text (some [])).putSession key
        (some { repo, offset := 0, algorithm, hasherState := none }))
  | _, _ => (.failed .uploadUnknown, s)

/-- `resume_upload`. -/
def resumeUpload (path : UploadId) (session : Session) : Except Failure (State D × Upload) :=
  match Uploads.State.resumeHasher session with
  | none => .error .internal
  | some hasher =>
    match s.files path.text with
    | none => .error .blobUnknown
    | some content =>
      if content.length < session.offset then .error .internal
      else .ok (s.putFile path.text (some (content.take session.offset)),
        { path := path.text, algorithm := session.algorithm, offset := session.offset, hasher })

/-- `resume`. -/
def resume (id : Text) (session : Session) : Except Failure (State D × Upload) :=
  match UploadId.new id with
  | none => .error .uploadUnknown
  | some path => s.resumeUpload path session

/-- `drain_into`, frame by frame: what came of it, the files, and the upload. -/
def drain (limit : Option Nat) (s : State D) (u : Upload) (written : Nat) :
    List Frame → Except Failure Nat × State D × Upload
  | [] => (.ok written, s, u)
  | .broken :: _ => (.error .bodyIncomplete, s, u)
  | .crash :: _ => (.error .crashed, s, u)
  | .data chunk :: frames =>
    if chunk.isEmpty then drain limit s u written frames
    else
      match limit.filter fun limit => decide (limit < written + chunk.length) with
      | some limit => (.error (.bodyTooLarge limit), s, u)
      | none =>
        drain limit (s.putFile u.path (some (writeAllAt (s.content u) u.offset chunk)))
          { u with offset := u.offset + chunk.length, hasher := u.hasher.update chunk }
          (written + chunk.length) frames
  | .short chunk n :: frames =>
    if chunk.isEmpty then drain limit s u written frames
    else
      match limit.filter fun limit => decide (limit < written + chunk.length) with
      | some limit => (.error (.bodyTooLarge limit), s, u)
      | none =>
        (.error .internal, s.putFile u.path (some (writeAllAt (s.content u) u.offset (chunk.take n))), u)

/-- A declared length above the ceiling is refused before the first frame. -/
def refusedLength (body : UploadBody) : Option Nat :=
  match body.declared, body.limit with
  | some declared, some limit => if limit < declared then some limit else none
  | _, _ => none

/-- `drain_into`. -/
def drainInto (s : State D) (u : Upload) (body : UploadBody) : Except Failure Nat × State D × Upload :=
  match refusedLength body with
  | some limit => (.error (.bodyTooLarge limit), s, u)
  | none =>
    match drain body.limit s u 0 body.frames with
    | (.error e, t) => (.error e, t)
    | (.ok written, t) =>
      match body.declared.filter fun declared => decide (declared ≠ written) with
      | some declared => (.error (.sizeMismatch declared written), t)
      | none => (.ok written, t)

/-- `append_upload`. -/
def appendUpload (repo : RepoId) (id : Text) (expectedOffset : Nat) (body : UploadBody)
    (crash : Bool) : Answer × State D :=
  match parseUploadId id with
  | none => (.failed .uploadUnknown, s)
  | some key =>
    match s.getUploadIn repo key with
    | none => (.failed .uploadUnknown, s)
    | some session =>
      if session.offset ≠ expectedOffset then (.failed (.offsetMismatch session.offset), s)
      else
        match s.resume id session with
        | .error e => (.failed e, s)
        | .ok (t, u) =>
          match drainInto t u body with
          | (.error e, t, _) => (.failed e, t)
          | (.ok _, t, u) =>
            if crash then (.failed .crashed, t)
            else (.appended u.offset, t.putSession key (some { session with
              offset := u.offset
              hasherState := some u.hasher }))

variable [DecidableEq D] (hash : DigestAlgorithm → Bytes → D) (algorithmOf : D → DigestAlgorithm)

/-- `rehash_as`. -/
def rehashAs (u : Upload) (algorithm : DigestAlgorithm) : Except Failure Upload :=
  if algorithm = u.algorithm then .ok u
  else if (s.content u).length < u.offset then .error .internal
  else .ok { u with
    algorithm
    hasher := (Hasher.new algorithm).update ((s.content u).take u.offset) }

/-- `commit_upload`: a mismatch creates nothing and leaves the staging file. -/
def commitUpload (u : Upload) (digest : D) : Except Failure (State D) :=
  if hash u.hasher.algorithm u.hasher.absorbed ≠ digest then .error .digestMismatch
  else
    match s.files u.path with
    | none => .error .internal
    | some content =>
      .ok { s.putFile u.path none with blobs := Function.update s.blobs digest (some content) }

/-- `finish_upload`. -/
def finishUpload (repo : RepoId) (id : Text) (expectedOffset : Nat) (body : UploadBody) (digest : D)
    (crash : Option Crash) : Answer × State D :=
  match parseUploadId id with
  | none => (.failed .uploadUnknown, s)
  | some key =>
    match s.getUploadIn repo key with
    | none => (.failed .uploadUnknown, s)
    | some session =>
      if session.offset ≠ expectedOffset then (.failed (.offsetMismatch session.offset), s)
      else
        match s.resume id session with
        | .error e => (.failed e, s)
        | .ok (t, u) =>
          match t.rehashAs u (algorithmOf digest) with
          | .error e => (.failed e, t)
          | .ok u =>
            match drainInto t u body with
            | (.error e, t, _) => (.failed e, t)
            | (.ok _, t, u) =>
              if crash = some .written then (.failed .crashed, t)
              else
                match t.commitUpload hash u digest with
                | .error e => (.failed e, t)
                | .ok t =>
                  if crash = some .renamed then (.interrupted, t)
                  else (.finished, t.putSession key none)

/-- `cancel_upload`: the session record first. -/
def cancelUpload (repo : RepoId) (id : Text) : Answer × State D :=
  match parseUploadId id with
  | none => (.failed .uploadUnknown, s)
  | some key =>
    match s.getUploadIn repo key with
    | none => (.failed .uploadUnknown, s)
    | some _ =>
      match UploadId.new id with
      | none => (.failed .uploadUnknown, s.putSession key none)
      | some path => (.cancelled, (s.putSession key none).putFile path.text none)

/-- One request. The id of a new session is minted in its text form. -/
def handle : Request D → Answer × State D
  | .create repo uuid algorithm => s.createUpload repo (formatUploadId uuid) algorithm
  | .append repo id expectedOffset body crash => s.appendUpload repo id expectedOffset body crash
  | .finish repo id expectedOffset body digest crash =>
    s.finishUpload hash algorithmOf repo id expectedOffset body digest crash
  | .cancel repo id => s.cancelUpload repo id

end State

/-- What has come of the sessions since they were opened. -/
structure Ledger where
  /-- The bodies accepted, in order. -/
  received : UploadKey → Bytes := fun _ => []
  /-- A finish has renamed the staging file, and the process ended. -/
  moved : UploadKey → Bool := fun _ => false

namespace Ledger

variable (l : Ledger) (key : UploadKey)

def opened : Ledger where
  received := Function.update l.received key []
  moved := Function.update l.moved key false

def accepted (bytes : Bytes) : Ledger :=
  { l with received := Function.update l.received key (l.received key ++ bytes) }

def renamed : Ledger := { l with moved := Function.update l.moved key true }

@[simp] theorem opened_self : (l.opened key).received key = [] ∧ (l.opened key).moved key = false :=
  ⟨Function.update_self .., Function.update_self ..⟩

@[simp] theorem accepted_self (bytes : Bytes) :
    (l.accepted key bytes).received key = l.received key ++ bytes := Function.update_self ..

@[simp] theorem renamed_self : (l.renamed key).moved key = true := Function.update_self ..

variable {key} {other : UploadKey}

theorem opened_of_ne (h : other ≠ key) : (l.opened key).received other = l.received other ∧
    (l.opened key).moved other = l.moved other :=
  ⟨Function.update_of_ne h .., Function.update_of_ne h ..⟩

theorem accepted_of_ne (h : other ≠ key) (bytes : Bytes) :
    (l.accepted key bytes).received other = l.received other := Function.update_of_ne h ..

theorem renamed_of_ne (h : other ≠ key) : (l.renamed key).moved other = l.moved other :=
  Function.update_of_ne h ..

end Ledger

def account (l : Ledger) (q : Request D) (answer : Answer) : Ledger :=
  match q, answer with
  | .create _ uuid _, .created => l.opened uuid
  | .append _ id _ body _, .appended _ =>
    match parseUploadId id with
    | some key => l.accepted key body.bytes
    | none => l
  | .finish _ id .., .interrupted =>
    match parseUploadId id with
    | some key => l.renamed key
    | none => l
  | _, _ => l

theorem account_failed (l : Ledger) (q : Request D) (e : Failure) : account l q (.failed e) = l := by
  cases q <;> rfl

/-- Requests one after the other, and what has come of the sessions by then. -/
def serve [DecidableEq D] (hash : DigestAlgorithm → Bytes → D) (algorithmOf : D → DigestAlgorithm)
    (history : List (Request D)) : State D × Ledger :=
  history.foldl (fun (s, l) q =>
    ((s.handle hash algorithmOf q).2, account l q (s.handle hash algorithmOf q).1)) ({}, {})

/-! ## What a session records -/

/-- The recorded offset and hasher state are those of the bytes. -/
structure Noted (session : Session) (bytes : Bytes) : Prop where
  offset : bytes.length = session.offset
  state : session.hasherState = some ((Hasher.new session.algorithm).update bytes) ∨
    session.hasherState = none ∧ bytes = []

/-- And the bytes are the first that are staged. -/
structure Recorded (s : State D) (key : UploadKey) (session : Session) (bytes : Bytes) : Prop
    extends Noted session bytes where
  staged : ∃ content, s.files (formatUploadId key) = some content ∧
    content.take session.offset = bytes

/-- And the session can be gone on with. -/
structure Resumable (s : State D) (key : UploadKey) (session : Session) (bytes : Bytes) : Prop
    extends Recorded s key session bytes where
  resumes : ∃ t u, s.resume (formatUploadId key) session = .ok (t, u) ∧ u.offset = session.offset ∧
    u.hasher = (Hasher.new session.algorithm).update bytes

/-- Staging files have minted names, and every session is recorded as it was
accepted; its file is there until a finish has renamed it. -/
structure Kept (s : State D) (l : Ledger) : Prop where
  named : ∀ path content, s.files path = some content → ∃ key, path = formatUploadId key
  noted : ∀ key session, s.sessions key = some session → Noted session (l.received key)
  staged : ∀ key session, s.sessions key = some session → l.moved key = false →
    ∃ content, s.files (formatUploadId key) = some content ∧
      content.take session.offset = l.received key
  moved : ∀ key session, s.sessions key = some session → l.moved key = true →
    s.files (formatUploadId key) = none

variable {s t : State D} {u v : Upload} {key : UploadKey} {session : Session}
  {l : Ledger} {bytes more : Bytes}

theorem Kept.recorded (kept : Kept s l) (stored : s.sessions key = some session)
    (there : l.moved key = false) : Recorded s key session (l.received key) :=
  ⟨kept.noted key session stored, kept.staged key session stored there⟩

theorem Noted.resumeHasher (h : Noted session bytes) :
    Uploads.State.resumeHasher session = some ((Hasher.new session.algorithm).update bytes) := by
  have offset := h.offset
  rw [Uploads.State.resumeHasher]
  rcases h.state with state | ⟨state, rfl⟩
  · rw [state]
    exact if_pos rfl
  · rw [state]
    exact if_pos offset.symm

theorem Recorded.resumeUpload (h : Recorded s key session bytes) {path : UploadId}
    (named : path.text = formatUploadId key) :
    s.resumeUpload path session = .ok (s.putFile path.text (some bytes),
      { path := path.text, algorithm := session.algorithm, offset := session.offset,
        hasher := (Hasher.new session.algorithm).update bytes }) := by
  obtain ⟨content, file, first⟩ := h.staged
  have offset := h.offset
  have enough : ¬content.length < session.offset := by
    rw [← first, List.length_take] at offset
    omega
  rw [State.resumeUpload, h.resumeHasher, named, file]
  dsimp only
  rw [if_neg enough, first]

theorem Recorded.resumable (h : Recorded s key session bytes) : Resumable s key session bytes := by
  obtain ⟨path, minted, named⟩ := new_format key
  have resumed : s.resume (formatUploadId key) session = .ok (s.putFile path.text (some bytes),
      { path := path.text, algorithm := session.algorithm, offset := session.offset,
        hasher := (Hasher.new session.algorithm).update bytes }) := by
    rw [State.resume, minted]
    exact h.resumeUpload named
  exact ⟨h, _, _, resumed, rfl, rfl⟩

/-- Only a minted name is a file's name. -/
theorem Kept.minted (kept : Kept s l) {id : Text} {content : Bytes}
    (parsed : parseUploadId id = some key) (file : s.files id = some content) :
    id = formatUploadId key := by
  obtain ⟨key', minted⟩ := kept.named id content file
  have read := parse_format key'
  rw [← minted, parsed] at read
  cases read
  exact minted

/-- So only the minted id is resumed. -/
theorem Kept.of_resume (kept : Kept s l) (stored : s.sessions key = some session) {id : Text}
    (parsed : parseUploadId id = some key) (h : s.resume id session = .ok (t, u)) :
    l.moved key = false ∧ id = formatUploadId key ∧ t = s.putFile id (some (l.received key)) ∧ u =
      { path := id, algorithm := session.algorithm, offset := session.offset,
        hasher := (Hasher.new session.algorithm).update (l.received key) } := by
  rw [State.resume] at h
  cases hid : UploadId.new id with
  | none =>
    rw [hid] at h
    cases h
  | some path =>
    rw [hid] at h
    have text := UploadId.text_of_new hid
    dsimp only at h
    have opened : ∃ content, s.files id = some content := by
      rw [State.resumeUpload, (kept.noted key session stored).resumeHasher, text] at h
      dsimp only at h
      cases file : s.files id with
      | none =>
        rw [file] at h
        cases h
      | some content => exact ⟨content, rfl⟩
    obtain ⟨content, file⟩ := opened
    have same : id = formatUploadId key := kept.minted parsed file
    have there : l.moved key = false := by
      cases moved : l.moved key with
      | false => rfl
      | true =>
        rw [same, kept.moved key session stored moved] at file
        cases file
    rw [(kept.recorded stored there).resumeUpload (text.trans same), text] at h
    cases h
    exact ⟨there, same, rfl, rfl⟩

/-- Once its file has been renamed, a session cannot be gone on with. -/
theorem Kept.not_resumed (kept : Kept s l) (stored : s.sessions key = some session)
    (moved : l.moved key = true) {id : Text} (parsed : parseUploadId id = some key) :
    ∃ e, s.resume id session = .error e := by
  cases resumed : s.resume id session with
  | error e => exact ⟨e, rfl⟩
  | ok opened =>
    obtain ⟨there, -⟩ := kept.of_resume stored parsed resumed
    rw [moved] at there
    cases there

/-! ## What a body leaves behind -/

/-- The first staged bytes of an open upload. -/
def Holds (s : State D) (u : Upload) (bytes : Bytes) : Prop :=
  ∃ content, s.files u.path = some content ∧ content.take u.offset = bytes ∧ bytes.length = u.offset

/-- The staged bytes of an open upload, with nothing after them. -/
def Whole (s : State D) (u : Upload) (bytes : Bytes) : Prop :=
  s.files u.path = some bytes ∧ bytes.length = u.offset

/-- From one moment of a body to a later one: so much more has been written. -/
structure Drained (s : State D) (u : Upload) (t : State D) (v : Upload) (more : Bytes) : Prop where
  files : ∃ content, t = s.putFile u.path content
  path : v.path = u.path
  algorithm : v.algorithm = u.algorithm
  hasher : v.hasher = u.hasher.update more
  holds : ∀ bytes, Holds s u bytes → Holds t v (bytes ++ more)

theorem Hasher.update_update (h : Hasher) (a b : Bytes) : (h.update a).update b = h.update (a ++ b) := by
  rw [Hasher.update, Hasher.update, Hasher.update, List.append_assoc]

theorem Hasher.update_nil (h : Hasher) : h.update [] = h := by
  rw [Hasher.update, List.append_nil]

theorem Drained.refl (s : State D) (u : Upload) : Drained s u s u [] where
  files := ⟨s.files u.path, by rw [State.putFile, Function.update_eq_self]⟩
  path := rfl
  algorithm := rfl
  hasher := (Hasher.update_nil _).symm
  holds := fun bytes h => by rw [List.append_nil]; exact h

theorem Drained.trans {s' : State D} {u' : Upload} {more' : Bytes} (h : Drained s u t v more)
    (h' : Drained t v s' u' more') : Drained s u s' u' (more ++ more') where
  files := by
    obtain ⟨content, rfl⟩ := h.files
    obtain ⟨content', rfl⟩ := h'.files
    refine ⟨content', ?_⟩
    rw [h.path, State.putFile_putFile]
  path := h'.path.trans h.path
  algorithm := h'.algorithm.trans h.algorithm
  hasher := by rw [h'.hasher, h.hasher, Hasher.update_update]
  holds := fun bytes held => by
    rw [← List.append_assoc]
    exact h'.holds _ (h.holds bytes held)

theorem writeAllAt_of_le {content chunk : Bytes} {offset : Nat} (h : offset ≤ content.length) :
    writeAllAt content offset chunk =
      content.take offset ++ chunk ++ content.drop (offset + chunk.length) := by
  rw [writeAllAt, Nat.sub_eq_zero_of_le h, List.replicate_zero, List.append_nil]

theorem Holds.content (h : Holds s u bytes) :
    u.offset ≤ (s.content u).length ∧ (s.content u).take u.offset = bytes := by
  obtain ⟨content, file, first, length⟩ := h
  have same : s.content u = content := by rw [State.content, file]; rfl
  rw [same]
  refine ⟨?_, first⟩
  rw [← first, List.length_take] at length
  omega

/-- A frame is written where the one before it ended. -/
theorem drained_write (s : State D) (u : Upload) (chunk : Bytes) :
    Drained s u (s.putFile u.path (some (writeAllAt (s.content u) u.offset chunk)))
      { u with offset := u.offset + chunk.length, hasher := u.hasher.update chunk } chunk where
  files := ⟨_, rfl⟩
  path := rfl
  algorithm := rfl
  hasher := rfl
  holds := fun bytes held => by
    obtain ⟨enough, first⟩ := held.content
    obtain ⟨-, -, -, length⟩ := held
    refine ⟨_, s.putFile_self .., ?_, by rw [List.length_append, length]⟩
    rw [writeAllAt_of_le enough, first, List.append_assoc]
    have whole : u.offset + chunk.length = (bytes ++ chunk).length := by
      rw [List.length_append, length]
    dsimp only
    rw [whole, ← List.append_assoc, List.take_left]

theorem Whole.write {chunk : Bytes} (h : Whole s u bytes) :
    Whole (s.putFile u.path (some (writeAllAt (s.content u) u.offset chunk)))
      { u with offset := u.offset + chunk.length, hasher := u.hasher.update chunk }
      (bytes ++ chunk) := by
  obtain ⟨file, length⟩ := h
  have content : s.content u = bytes := by rw [State.content, file]; rfl
  refine ⟨?_, by rw [List.length_append, length]⟩
  rw [content, writeAllAt_of_le (Nat.le_of_eq length.symm), ← length, List.take_length,
    List.drop_eq_nil_of_le (Nat.le_add_right _ _), List.append_nil]
  exact s.putFile_self _ _

/-- A write that fails does not touch what was there before it. -/
theorem drained_short (s : State D) (u : Upload) (chunk : Bytes) :
    Drained s u (s.putFile u.path (some (writeAllAt (s.content u) u.offset chunk))) u [] where
  files := ⟨_, rfl⟩
  path := rfl
  algorithm := rfl
  hasher := (Hasher.update_nil _).symm
  holds := fun bytes held => by
    obtain ⟨enough, first⟩ := held.content
    obtain ⟨-, -, -, length⟩ := held
    refine ⟨_, s.putFile_self .., ?_, by rw [List.append_nil, length]⟩
    rw [writeAllAt_of_le enough, first, List.append_assoc, ← length, List.take_left, List.append_nil]

theorem drain_drained (limit : Option Nat) (frames : List Frame) (s : State D) (u : Upload)
    (written : Nat) :
    ∃ more, Drained s u (State.drain limit s u written frames).2.1
      (State.drain limit s u written frames).2.2 more ∧
      ∀ n, (State.drain limit s u written frames).1 = .ok n → more = frames.flatMap Frame.bytes ∧
        ∀ bytes, Whole s u bytes → Whole (State.drain limit s u written frames).2.1
          (State.drain limit s u written frames).2.2 (bytes ++ more) := by
  induction frames generalizing s u written with
  | nil =>
    exact ⟨[], .refl s u, fun _ _ => ⟨rfl, fun bytes h => by rw [List.append_nil]; exact h⟩⟩
  | cons frame frames ih =>
    cases frame with
    | broken | crash => exact ⟨[], .refl s u, fun n h => by cases h⟩
    | data chunk =>
      rw [State.drain, List.flatMap_cons]
      split
      · rename_i empty
        obtain rfl := List.isEmpty_iff.mp empty
        exact ih s u written
      · split
        · exact ⟨[], .refl s u, fun n h => by cases h⟩
        · obtain ⟨more, drained, all⟩ := ih _ _ (written + chunk.length)
          refine ⟨chunk ++ more, (drained_write s u chunk).trans drained, fun n h => ?_⟩
          obtain ⟨same, whole⟩ := all n h
          refine ⟨by rw [same]; rfl, fun bytes held => ?_⟩
          rw [← List.append_assoc]
          exact whole _ held.write
    | short chunk n =>
      rw [State.drain, List.flatMap_cons]
      split
      · rename_i empty
        obtain rfl := List.isEmpty_iff.mp empty
        exact ih s u written
      · split
        · exact ⟨[], .refl s u, fun n h => by cases h⟩
        · exact ⟨[], drained_short s u _, fun n h => by cases h⟩

/-- Whatever becomes of a body, what the file held before it is still there; an
accepted one is there whole. -/
theorem drainInto_drained (s : State D) (u : Upload) (body : UploadBody) :
    ∃ more, Drained s u (State.drainInto s u body).2.1 (State.drainInto s u body).2.2 more ∧
      ∀ n, (State.drainInto s u body).1 = .ok n → more = body.bytes ∧
        ∀ bytes, Whole s u bytes → Whole (State.drainInto s u body).2.1
          (State.drainInto s u body).2.2 (bytes ++ more) := by
  obtain ⟨more, drained, all⟩ := drain_drained body.limit body.frames s u 0
  rw [State.drainInto]
  split
  · exact ⟨[], .refl s u, fun n h => by cases h⟩
  · split
    · rename_i outcome
      rw [outcome] at drained
      exact ⟨more, drained, fun n h => by cases h⟩
    · rename_i outcome
      rw [outcome] at drained all
      split
      · exact ⟨more, drained, fun n h => by cases h⟩
      · exact ⟨more, drained, fun n _ => all _ rfl⟩

/-! ## One request -/

theorem putFile_other {key' : UploadKey} (different : key' ≠ key) (content : Option Bytes) :
    (s.putFile (formatUploadId key) content).files (formatUploadId key') =
      s.files (formatUploadId key') :=
  s.putFile_of_ne (fun same => different (format_injective same)) content

theorem Kept.restaged (kept : Kept s l) (there : l.moved key = false) {content : Bytes}
    (held : ∀ session, s.sessions key = some session → content.take session.offset = l.received key) :
    Kept (s.putFile (formatUploadId key) (some content)) l where
  named := fun path c h => by
    by_cases same : path = formatUploadId key
    · exact ⟨key, same⟩
    · rw [State.putFile_of_ne s same] at h
      exact kept.named path c h
  noted := kept.noted
  staged := fun key' session stored unmoved => by
    by_cases same : key' = key
    · subst same
      exact ⟨content, s.putFile_self .., held session stored⟩
    · obtain ⟨c, file, first⟩ := kept.staged key' session stored unmoved
      exact ⟨c, (putFile_other same _).trans file, first⟩
  moved := fun key' session stored moved => by
    have different : key' ≠ key := fun same => by
      rw [same, there] at moved
      cases moved
    exact (putFile_other different _).trans (kept.moved key' session stored moved)

/-- A session's record, once its body has been written as far as it came. -/
structure Written (s : State D) (l : Ledger) (key : UploadKey) (t : State D) (v : Upload)
    (more : Bytes) : Prop where
  files : ∃ content, t = s.putFile (formatUploadId key) (some content)
  path : v.path = formatUploadId key
  holds : Holds t v (l.received key ++ more)
  kept : Kept t l

theorem Kept.written (kept : Kept s l) (stored : s.sessions key = some session)
    (there : l.moved key = false) {s' : State D} (opened : s' = s.putFile (formatUploadId key) (some (l.received key)))
    (path : u.path = formatUploadId key) (offset : u.offset = session.offset)
    (drained : Drained s' u t v more) : Written s l key t v more := by
  have length := (kept.noted key session stored).offset
  have start : Holds s' u (l.received key) := by
    refine ⟨l.received key, ?_, ?_, by rw [length, offset]⟩
    · rw [opened, path, State.putFile_self]
    · rw [offset, ← length, List.take_length]
  obtain ⟨content, file, first, whole⟩ := drained.holds _ start
  obtain ⟨content', rfl⟩ := drained.files
  rw [drained.path, State.putFile_self] at file
  subst file
  have files : s'.putFile u.path (some content) = s.putFile (formatUploadId key) (some content) := by
    rw [opened, path, State.putFile_putFile]
  refine ⟨⟨content, files⟩, drained.path.trans path, drained.holds _ start, ?_⟩
  rw [files]
  refine kept.restaged there fun session' stored' => ?_
  rw [stored] at stored'
  cases stored'
  have longer : session.offset ≤ v.offset := by
    rw [← whole, List.length_append, length]
    exact Nat.le_add_right _ _
  rw [← Nat.min_eq_left longer, ← List.take_take, first, ← length, List.take_left]

theorem of_getUploadIn {repo : RepoId} (h : s.getUploadIn repo key = some session) :
    s.sessions key = some session := (Option.filter_eq_some_iff.mp h).1

/-- A request that is not accepted changes no record, and every session can be gone on with. -/
structure Refused (s : State D) (l : Ledger) (outcome : Answer × State D) : Prop where
  failed : ∃ e, outcome.1 = .failed e
  sessions : outcome.2.sessions = s.sessions
  blobs : outcome.2.blobs = s.blobs
  kept : Kept outcome.2 l

theorem Kept.refused (kept : Kept s l) (e : Failure) : Refused s l (.failed e, s) :=
  ⟨⟨e, rfl⟩, rfl, rfl, kept⟩

theorem Written.refused {more : Bytes} (written : Written s l key t v more) (e : Failure) :
    Refused s l (.failed e, t) := by
  obtain ⟨content, rfl⟩ := written.files
  exact ⟨⟨e, rfl⟩, rfl, rfl, written.kept⟩

/-- The record is saved once the bytes it describes are there. -/
theorem Written.saved {more : Bytes} (written : Written s l key t v more) (there : l.moved key = false)
    (hasher : v.hasher = (Hasher.new session.algorithm).update (l.received key ++ more)) :
    Kept (t.putSession key (some { session with
        offset := v.offset
        hasherState := some v.hasher }))
      (l.accepted key more) where
  named := written.kept.named
  noted := fun key' session' stored => by
    by_cases same : key' = key
    · subst same
      obtain rfl := Option.some.inj ((t.putSession_self ..).symm.trans stored)
      obtain ⟨content, -, -, whole⟩ := written.holds
      rw [Ledger.accepted_self]
      exact ⟨whole, Or.inl (by rw [hasher])⟩
    · rw [l.accepted_of_ne same]
      exact written.kept.noted key' session' ((t.putSession_of_ne same _).symm.trans stored)
  staged := fun key' session' stored unmoved => by
    by_cases same : key' = key
    · subst same
      obtain rfl := Option.some.inj ((t.putSession_self ..).symm.trans stored)
      obtain ⟨content, file, first, -⟩ := written.holds
      rw [written.path] at file
      rw [Ledger.accepted_self]
      exact ⟨content, file, first⟩
    · rw [l.accepted_of_ne same]
      exact written.kept.staged key' session' ((t.putSession_of_ne same _).symm.trans stored) unmoved
  moved := fun key' session' stored moved => by
    by_cases same : key' = key
    · subst same
      cases there.symm.trans moved
    · exact written.kept.moved key' session' ((t.putSession_of_ne same _).symm.trans stored) moved

theorem Kept.append (kept : Kept s l) (repo : RepoId) (id : Text) (expectedOffset : Nat)
    (body : UploadBody) (crash : Bool) :
    Refused s l (s.appendUpload repo id expectedOffset body crash) ∨
    ∃ key, parseUploadId id = some key ∧
      (∃ offset, (s.appendUpload repo id expectedOffset body crash).1 = .appended offset) ∧
      Kept (s.appendUpload repo id expectedOffset body crash).2
        (l.accepted key body.bytes) := by
  rw [State.appendUpload]
  split
  · exact Or.inl (kept.refused _)
  · rename_i key parsed
    split
    · exact Or.inl (kept.refused _)
    · rename_i session found
      have stored := of_getUploadIn found
      split
      · exact Or.inl (kept.refused _)
      · split
        · exact Or.inl (kept.refused _)
        · rename_i t u resumed
          obtain ⟨there, same, opened, hu⟩ := kept.of_resume stored parsed resumed
          obtain ⟨more, drained, all⟩ := drainInto_drained t u body
          rw [same] at opened hu
          have written := kept.written stored there opened (by rw [hu]) (by rw [hu]) drained
          have hasher : (State.drainInto t u body).2.2.hasher =
              (Hasher.new session.algorithm).update (l.received key ++ more) := by
            rw [drained.hasher, hu, Hasher.update_update]
          split
          · rename_i outcome
            rw [outcome] at written
            exact Or.inl (written.refused _)
          · rename_i outcome
            rw [outcome] at written hasher all
            obtain ⟨rfl, -⟩ := all _ rfl
            split
            · exact Or.inl (written.refused _)
            · refine Or.inr ⟨key, parsed, ⟨_, rfl⟩, ?_⟩
              exact written.saved there hasher

/-- A session and what was staged for it are gone, and nothing else is touched. -/
theorem Kept.closed (kept : Kept s l)
    (files : ∀ path, t.files path = s.files path ∨ t.files path = none)
    (others : ∀ other, other ≠ key → t.files (formatUploadId other) = s.files (formatUploadId other))
    (sessions : t.sessions = Function.update s.sessions key none) : Kept t l := by
  have other (key' : UploadKey) (session : Session) (stored : t.sessions key' = some session) :
      key' ≠ key ∧ s.sessions key' = some session := by
    rw [sessions] at stored
    by_cases same : key' = key
    · subst same
      rw [Function.update_self] at stored
      cases stored
    · rw [Function.update_of_ne same] at stored
      exact ⟨same, stored⟩
  refine ⟨fun path c h => ?_, fun key' session stored => ?_, fun key' session stored unmoved => ?_,
    fun key' session stored moved => ?_⟩
  · rcases files path with same | gone
    · exact kept.named path c (same ▸ h)
    · rw [gone] at h
      cases h
  · exact kept.noted key' session (other key' session stored).2
  · obtain ⟨different, stored⟩ := other key' session stored
    rw [others key' different]
    exact kept.staged key' session stored unmoved
  · obtain ⟨different, stored⟩ := other key' session stored
    rw [others key' different]
    exact kept.moved key' session stored moved

theorem removed_or_same (s : State D) (path other : Text) :
    (s.putFile path none).files other = s.files other ∨ (s.putFile path none).files other = none := by
  by_cases same : other = path
  · subst same
    exact Or.inr (s.putFile_self _ _)
  · exact Or.inl (s.putFile_of_ne same _)

/-- A commit takes the staging file away, and the session with it. -/
theorem Kept.committed (kept : Kept s l) {more : Bytes}
    (written : Written s l key t v more) (blobs : D → Option Bytes) :
    Kept (({ t.putFile v.path none with blobs } : State D).putSession key none) l := by
  obtain ⟨content, rfl⟩ := written.files
  have path := written.path
  have files (other : Text) :
      ((s.putFile (formatUploadId key) (some content)).putFile v.path none).files other =
        (s.putFile (formatUploadId key) none).files other := by rw [path, State.putFile_putFile]
  refine kept.closed (fun other => ?_) (fun other different => ?_) rfl
  · exact (files other).symm ▸ removed_or_same s _ other
  · exact (files _).trans (putFile_other different none)

/-- Between the rename and the batch the session is there without its file. -/
theorem Kept.renamed (kept : Kept s l) {more : Bytes} (written : Written s l key t v more)
    (blobs : D → Option Bytes) :
    Kept ({ t.putFile v.path none with blobs } : State D) (l.renamed key) := by
  obtain ⟨content, rfl⟩ := written.files
  have path := written.path
  have files (other : Text) :
      ((s.putFile (formatUploadId key) (some content)).putFile v.path none).files other =
        (s.putFile (formatUploadId key) none).files other := by rw [path, State.putFile_putFile]
  refine ⟨fun path c h => ?_, kept.noted, fun key' session stored unmoved => ?_,
    fun key' session stored moved => ?_⟩
  · rcases removed_or_same s (formatUploadId key) path with same | gone
    · exact kept.named path c (same.symm.trans ((files path).symm.trans h))
    · cases ((files path).symm.trans h).symm.trans gone
  · have different : key' ≠ key := by
      rintro rfl
      cases (l.renamed_self key').symm.trans unmoved
    rw [l.renamed_of_ne different] at unmoved
    obtain ⟨c, file, first⟩ := kept.staged key' session stored unmoved
    exact ⟨c, (files _).trans ((putFile_other different none).trans file), first⟩
  · refine (files _).trans ?_
    by_cases same : key' = key
    · rw [same]
      exact s.putFile_self _ _
    · rw [l.renamed_of_ne same] at moved
      exact (putFile_other same none).trans (kept.moved key' session stored moved)

theorem Kept.cancel (kept : Kept s l) (repo : RepoId) (id : Text) :
    Kept (s.cancelUpload repo id).2 l := by
  rw [State.cancelUpload]
  split
  · exact kept
  · rename_i key parsed
    split
    · exact kept
    · split
      · have same (other : UploadKey) (_ : other ≠ key) :
            s.files (formatUploadId other) = s.files (formatUploadId other) := rfl
        exact kept.closed (fun _ => Or.inl rfl) same rfl
      · rename_i path new
        have others (other : UploadKey) (different : other ≠ key) :
            (s.putFile path.text none).files (formatUploadId other) =
              s.files (formatUploadId other) := by
          refine s.putFile_of_ne (fun same => different ?_) none
          rw [UploadId.text_of_new new] at same
          have read := parse_format other
          rw [same, parsed] at read
          exact (Option.some.inj read).symm
        exact kept.closed (fun other => removed_or_same s path.text other) others rfl

theorem Kept.create (kept : Kept s l) (repo : RepoId) (uuid : UploadKey)
    (algorithm : DigestAlgorithm) :
    s.createUpload repo (formatUploadId uuid) algorithm = (.failed .internal, s) ∨
    (s.createUpload repo (formatUploadId uuid) algorithm).1 = .created ∧
      Kept (s.createUpload repo (formatUploadId uuid) algorithm).2
        (l.opened uuid) := by
  obtain ⟨path, minted, text⟩ := new_format uuid
  rw [State.createUpload, parse_format, minted]
  dsimp only
  split
  · exact Or.inl rfl
  · rw [text]
    have other {key : UploadKey} {session : Session} (different : key ≠ uuid)
        (stored : ((s.putFile (formatUploadId uuid) (some [])).putSession uuid
          (some { repo, offset := 0, algorithm, hasherState := none })).sessions key = some session) :
        s.sessions key = some session := (State.putSession_of_ne _ different _).symm.trans stored
    refine Or.inr ⟨rfl, fun path c h => ?_, fun key session stored => ?_,
      fun key session stored unmoved => ?_, fun key session stored moved => ?_⟩
    · by_cases same : path = formatUploadId uuid
      · exact ⟨uuid, same⟩
      · exact kept.named path c ((s.putFile_of_ne same _).symm.trans h)
    · by_cases same : key = uuid
      · subst same
        obtain rfl := Option.some.inj ((State.putSession_self ..).symm.trans stored)
        rw [(l.opened_self key).1]
        exact ⟨rfl, Or.inr ⟨rfl, rfl⟩⟩
      · rw [(l.opened_of_ne same).1]
        exact kept.noted key session (other same stored)
    · by_cases same : key = uuid
      · subst same
        rw [(l.opened_self key).1]
        exact ⟨[], s.putFile_self .., List.take_nil⟩
      · rw [(l.opened_of_ne same).2] at unmoved
        rw [(l.opened_of_ne same).1]
        obtain ⟨c, file, first⟩ := kept.staged key session (other same stored) unmoved
        exact ⟨c, (putFile_other same _).trans file, first⟩
    · by_cases same : key = uuid
      · subst same
        cases (l.opened_self key).2.symm.trans moved
      · rw [(l.opened_of_ne same).2] at moved
        exact (putFile_other same _).trans (kept.moved key session (other same stored) moved)

/-- The staged bytes are hashed again under another algorithm. -/
theorem of_rehashAs {algorithm : DigestAlgorithm} (opened : t = s.putFile u.path (some bytes))
    (offset : bytes.length = u.offset) (hasher : u.hasher = (Hasher.new u.algorithm).update bytes)
    (h : t.rehashAs u algorithm = .ok v) :
    v.path = u.path ∧ v.offset = u.offset ∧ v.hasher = (Hasher.new algorithm).update bytes := by
  rw [State.rehashAs] at h
  split at h
  · rename_i same
    cases h
    exact ⟨rfl, rfl, by rw [hasher, same]⟩
  · have content : t.content u = bytes := by rw [opened, State.content, State.putFile_self]; rfl
    split at h
    · cases h
    · cases h
      refine ⟨rfl, rfl, ?_⟩
      dsimp only
      rw [content, ← offset, List.take_length]

section Finish

variable [DecidableEq D] {hash : DigestAlgorithm → Bytes → D} {algorithmOf : D → DigestAlgorithm}
  {q : Request D}

theorem of_commitUpload {a : DigestAlgorithm} {digest : D} (staged : Whole s u bytes)
    (hasher : u.hasher = (Hasher.new a).update bytes) (h : s.commitUpload hash u digest = .ok t) :
    hash a bytes = digest ∧ t =
      { s.putFile u.path none with blobs := Function.update s.blobs digest (some bytes) } := by
  rw [State.commitUpload] at h
  split at h
  · cases h
  · rename_i verified
    rw [staged.1] at h
    cases h
    rw [hasher] at verified
    exact ⟨of_not_not verified, rfl⟩

variable (hash algorithmOf) in
/-- A finish that has renamed its staging file: what is at the blob's path then. -/
structure Renamed (s : State D) (l : Ledger) (id : Text) (body : UploadBody) (digest : D)
    (key : UploadKey) (blobs : D → Option Bytes) : Prop where
  parsed : parseUploadId id = some key
  verified : hash (algorithmOf digest) (l.received key ++ body.bytes) = digest
  blobs : blobs = Function.update s.blobs digest (some (l.received key ++ body.bytes))

theorem commitUpload_files {digest : D} (h : s.commitUpload hash u digest = .ok t) :
    t.files = (s.putFile u.path none).files := by
  rw [State.commitUpload] at h
  split at h
  · cases h
  · split at h <;> cases h
    rfl

theorem Kept.finish (kept : Kept s l) (repo : RepoId) (id : Text) (expectedOffset : Nat)
    (body : UploadBody) (digest : D) (crash : Option Crash) :
    Refused s l (s.finishUpload hash algorithmOf repo id expectedOffset body digest crash) ∨
    ∃ key t, Renamed hash algorithmOf s l id body digest key t.blobs ∧
      (s.finishUpload hash algorithmOf repo id expectedOffset body digest crash = (.finished, t) ∧
          Kept t l ∨
        s.finishUpload hash algorithmOf repo id expectedOffset body digest crash =
            (.interrupted, t) ∧
          crash = some .renamed ∧ t.sessions = s.sessions ∧ Kept t (l.renamed key)) := by
  rw [State.finishUpload]
  split
  · exact Or.inl (kept.refused _)
  · rename_i key parsed
    split
    · exact Or.inl (kept.refused _)
    · rename_i session found
      have stored := of_getUploadIn found
      split
      · exact Or.inl (kept.refused _)
      · split
        · exact Or.inl (kept.refused _)
        · rename_i t u resumed
          obtain ⟨there, same, opened, hu⟩ := kept.of_resume stored parsed resumed
          rw [same] at opened hu
          have whole := (kept.noted key session stored).offset
          have untouched := kept.written stored there opened (by rw [hu]) (by rw [hu]) (.refl t u)
          split
          · exact Or.inl (untouched.refused _)
          · rename_i v rehashed
            obtain ⟨path, offset, hasher⟩ := of_rehashAs (by rw [opened, hu]) (by rw [whole, hu])
              (by rw [hu]) rehashed
            obtain ⟨more, drained, all⟩ := drainInto_drained t v body
            have written :=
              kept.written stored there opened (by rw [path, hu]) (by rw [offset, hu]) drained
            have running : (State.drainInto t v body).2.2.hasher =
                (Hasher.new (algorithmOf digest)).update (l.received key ++ more) := by
              rw [drained.hasher, hasher, Hasher.update_update]
            split
            · rename_i outcome
              rw [outcome] at written
              exact Or.inl (written.refused _)
            · rename_i outcome
              rw [outcome] at written running all
              obtain ⟨rfl, staged⟩ := all _ rfl
              split
              · exact Or.inl (written.refused _)
              · split
                · exact Or.inl (written.refused _)
                · rename_i committed
                  obtain ⟨content, files⟩ := written.files
                  obtain ⟨verified, moved⟩ := of_commitUpload (staged (l.received key) ⟨by
                    rw [path, opened, hu, State.putFile_self], by rw [offset, hu, whole]⟩)
                    running committed
                  subst moved
                  have blobs : Renamed hash algorithmOf s l id body digest key
                      (Function.update s.blobs digest (some (l.received key ++ body.bytes))) :=
                    ⟨parsed, verified, rfl⟩
                  rw [files]
                  rw [files] at written
                  split
                  · rename_i cut
                    exact Or.inr ⟨key, _, blobs, Or.inr ⟨rfl, cut, rfl, kept.renamed written _⟩⟩
                  · exact Or.inr ⟨key, _, blobs, Or.inl ⟨rfl, kept.committed written _⟩⟩

/-- Every request keeps the records true to what the sessions have accepted. -/
theorem Kept.handle (kept : Kept s l) (q : Request D) :
    Kept (s.handle hash algorithmOf q).2 (account l q (s.handle hash algorithmOf q).1) := by
  cases q with
  | create repo uuid algorithm =>
    rw [State.handle]
    rcases kept.create repo uuid algorithm with refused | ⟨created, kept⟩
    · rw [refused]
      exact kept
    · rw [created]
      exact kept
  | append repo id expectedOffset body crash =>
    rw [State.handle]
    rcases kept.append repo id expectedOffset body crash with refused | ⟨key, parsed, ⟨_, appended⟩, kept⟩
    · obtain ⟨e, failed⟩ := refused.failed
      rw [failed]
      exact refused.kept
    · rw [appended, account, parsed]
      exact kept
  | finish repo id expectedOffset body digest crash =>
    rw [State.handle]
    rcases kept.finish repo id expectedOffset body digest crash with
      refused | ⟨key, t, renamed, ⟨finished, kept⟩ | ⟨interrupted, -, -, kept⟩⟩
    · obtain ⟨e, failed⟩ := refused.failed
      rw [failed]
      exact refused.kept
    · rw [finished]
      exact kept
    · rw [interrupted, account, renamed.parsed]
      exact kept
  | cancel repo id => exact kept.cancel repo id

variable (hash) (algorithmOf) in
theorem kept_serve (history : List (Request D)) :
    Kept (serve hash algorithmOf history).1 (serve hash algorithmOf history).2 := by
  have start : Kept ({} : State D) {} := ⟨nofun, nofun, nofun, nofun⟩
  have run (history : List (Request D)) (s : State D) (l : Ledger) (kept : Kept s l) : Kept
        (history.foldl (fun (s, l) q => ((s.handle hash algorithmOf q).2,
          account l q (s.handle hash algorithmOf q).1)) (s, l)).1
        (history.foldl (fun (s, l) q => ((s.handle hash algorithmOf q).2,
          account l q (s.handle hash algorithmOf q).1)) (s, l)).2 := by
    induction history generalizing s l with
    | nil => exact kept
    | cons q history ih => exact ih _ _ (kept.handle q)
  exact run history _ _ start

variable (hash) (algorithmOf) in
/-- What the next request owes to the sessions that are open, those in `moved` before
it and in `moved'` after it left out. -/
structure Honest (s : State D) (received : UploadKey → Bytes) (moved moved' : UploadKey → Bool)
    (q : Request D) : Prop where
  recorded : ∀ key session, s.sessions key = some session → moved key = false →
    Resumable s key session (received key)
  failed : (s.handle hash algorithmOf q).1.isFailure = true → (∀ repo id, q ≠ .cancel repo id) →
    (s.handle hash algorithmOf q).2.sessions = s.sessions ∧
    ∀ key session, s.sessions key = some session → moved' key = false →
      Resumable (s.handle hash algorithmOf q).2 key session (received key)
  finished : ∀ repo id offset body digest crash, q = .finish repo id offset body digest crash →
    (s.handle hash algorithmOf q).1 = .finished →
    ∃ key, Renamed hash algorithmOf s { received, moved } id body digest key
      (s.handle hash algorithmOf q).2.blobs

variable (hash) (algorithmOf) in
/-- What a finish that ended between its rename and its batch has left. -/
structure Interrupted (s : State D) (l : Ledger) (q : Request D) : Prop where
  renamed : (s.handle hash algorithmOf q).1 = .interrupted →
    ∃ repo id offset body digest key, q = .finish repo id offset body digest (some .renamed) ∧
      Renamed hash algorithmOf s l id body digest key (s.handle hash algorithmOf q).2.blobs
  noted : ∀ key session, s.sessions key = some session → l.moved key = true →
    Noted session (l.received key) ∧ s.files (formatUploadId key) = none
  refused : ∀ key session, s.sessions key = some session → l.moved key = true →
    ∀ id, parseUploadId id = some key → ∃ e, s.resume id session = .error e

theorem Kept.failed (kept : Kept s l) (q : Request D)
    (failure : (s.handle hash algorithmOf q).1.isFailure = true)
    (cancels : ∀ repo id, q ≠ .cancel repo id) :
    (s.handle hash algorithmOf q).2.sessions = s.sessions ∧
    ∀ key session, s.sessions key = some session →
      (account l q (s.handle hash algorithmOf q).1).moved key = false →
      Resumable (s.handle hash algorithmOf q).2 key session (l.received key) := by
  have refused {outcome : Answer × State D} (refused : Refused s l outcome)
      (h : s.handle hash algorithmOf q = outcome) :
      (s.handle hash algorithmOf q).2.sessions = s.sessions ∧
      ∀ key session, s.sessions key = some session →
        (account l q (s.handle hash algorithmOf q).1).moved key = false →
        Resumable (s.handle hash algorithmOf q).2 key session (l.received key) := by
    obtain ⟨e, failed⟩ := refused.failed
    rw [h, failed, account_failed]
    refine ⟨refused.sessions, fun key session stored there => ?_⟩
    exact (refused.kept.recorded (by rw [refused.sessions]; exact stored) there).resumable
  cases q with
  | create repo uuid algorithm =>
    rw [State.handle] at failure
    rcases kept.create repo uuid algorithm with same | ⟨created, -⟩
    · exact refused (kept.refused _) same
    · rw [created] at failure
      cases failure
  | append repo id expectedOffset body crash =>
    rw [State.handle] at failure
    rcases kept.append repo id expectedOffset body crash with failed | ⟨_, _, ⟨_, appended⟩, _⟩
    · exact refused failed rfl
    · rw [appended] at failure
      cases failure
  | finish repo id expectedOffset body digest crash =>
    rw [State.handle] at failure ⊢
    rcases kept.finish repo id expectedOffset body digest crash with
      failed | ⟨key, t, renamed, ⟨finished, -⟩ | ⟨interrupted, -, sessions, kept⟩⟩
    · exact refused failed rfl
    · rw [finished] at failure
      cases failure
    · rw [interrupted, account, renamed.parsed]
      refine ⟨sessions, fun key session stored there => ?_⟩
      exact (kept.recorded (by rw [sessions]; exact stored) there).resumable
  | cancel repo id => exact absurd rfl (cancels repo id)

theorem Kept.finished (kept : Kept s l) (repo : RepoId) (id : Text) (offset : Nat)
    (body : UploadBody) (digest : D) (crash : Option Crash)
    (hq : q = .finish repo id offset body digest crash)
    (finished : (s.handle hash algorithmOf q).1 = .finished) :
    ∃ key, Renamed hash algorithmOf s l id body digest key (s.handle hash algorithmOf q).2.blobs := by
  subst hq
  rw [State.handle] at finished ⊢
  rcases kept.finish repo id offset body digest crash with
    refused | ⟨key, t, renamed, ⟨outcome, -⟩ | ⟨interrupted, -⟩⟩
  · obtain ⟨e, failed⟩ := refused.failed
    cases failed.symm.trans finished
  · rw [outcome]
    exact ⟨key, renamed⟩
  · rw [interrupted] at finished
    cases finished

/-- Only a finish is interrupted, and its bytes are committed. -/
theorem Kept.interrupted (kept : Kept s l) (interrupted : (s.handle hash algorithmOf q).1 = .interrupted) :
    ∃ repo id offset body digest key, q = .finish repo id offset body digest (some .renamed) ∧
      Renamed hash algorithmOf s l id body digest key (s.handle hash algorithmOf q).2.blobs := by
  cases q with
  | create repo uuid algorithm =>
    rw [State.handle] at interrupted
    rcases kept.create repo uuid algorithm with same | ⟨created, -⟩
    · rw [same] at interrupted
      cases interrupted
    · cases created.symm.trans interrupted
  | append repo id expectedOffset body crash =>
    rw [State.handle] at interrupted
    rcases kept.append repo id expectedOffset body crash with refused | ⟨_, _, ⟨_, appended⟩, _⟩
    · obtain ⟨e, failed⟩ := refused.failed
      cases failed.symm.trans interrupted
    · cases appended.symm.trans interrupted
  | finish repo id offset body digest crash =>
    rw [State.handle] at interrupted ⊢
    rcases kept.finish repo id offset body digest crash with
      refused | ⟨key, t, renamed, ⟨outcome, -⟩ | ⟨outcome, cut, -⟩⟩
    · obtain ⟨e, failed⟩ := refused.failed
      cases failed.symm.trans interrupted
    · rw [outcome] at interrupted
      cases interrupted
    · rw [outcome, cut]
      exact ⟨repo, id, offset, body, digest, key, rfl, renamed⟩
  | cancel repo id =>
    rw [State.handle, State.cancelUpload] at interrupted
    split at interrupted
    · cases interrupted
    · split at interrupted
      · cases interrupted
      · split at interrupted <;> cases interrupted

variable (hash) (algorithmOf) in
/-- After any requests, every session whose file no finish has renamed records what it
has accepted and nothing else; a request that fails leaves it so, and one that
finishes commits it. A finish that ends between its rename and its batch has committed
the bytes too, and its session is listed and never resumed. -/
theorem uploads_resume (history : List (Request D)) (q : Request D) :
    Honest hash algorithmOf (serve hash algorithmOf history).1
      (serve hash algorithmOf history).2.received (serve hash algorithmOf history).2.moved
      (serve hash algorithmOf (history ++ [q])).2.moved q ∧
    Interrupted hash algorithmOf (serve hash algorithmOf history).1
      (serve hash algorithmOf history).2 q := by
  have next : (serve hash algorithmOf (history ++ [q])).2 =
      account (serve hash algorithmOf history).2 q
        ((serve hash algorithmOf history).1.handle hash algorithmOf q).1 := by
    rw [serve, List.foldl_append]
    rfl
  rw [next]
  have kept := kept_serve hash algorithmOf history
  generalize (serve hash algorithmOf history).1 = s at kept ⊢
  generalize (serve hash algorithmOf history).2 = l at kept ⊢
  exact ⟨⟨fun key session stored there => (kept.recorded stored there).resumable, kept.failed q,
    kept.finished⟩, ⟨kept.interrupted,
    fun key session stored moved => ⟨kept.noted key session stored, kept.moved key session stored moved⟩,
    fun key session stored moved id parsed => kept.not_resumed stored moved parsed⟩⟩

end Finish

/-- An id of sixteen times the byte `ab`. -/
def abKey : UploadKey := List.Vector.replicate 16 0xab

/-- A session without a byte, finished up to the rename: its file is gone. -/
theorem rename_strands : ¬∀ (history : List (Request Bytes)) (q : Request Bytes),
    Honest (fun _ content => content) (fun _ => .sha256)
      (serve (fun _ content => content) (fun _ => .sha256) history).1
      (serve (fun _ content => content) (fun _ => .sha256) history).2.received
      (fun _ => false) (fun _ => false) q := by
  intro resumable
  have honest := resumable [.create 1 abKey .sha256]
    (.finish 1 (formatUploadId abKey) 0 ⟨[], none, none⟩ [] (some .renamed))
  obtain ⟨-, sessions⟩ := honest.failed (by decide +kernel) nofun
  have open_ : (serve (fun _ content => content) (fun _ => DigestAlgorithm.sha256)
      [.create (D := Bytes) 1 abKey .sha256]).1.sessions abKey =
        some { repo := 1, offset := 0, algorithm := .sha256, hasherState := none } := by
    decide +kernel
  obtain ⟨content, file, -⟩ := (sessions abKey _ open_ rfl).staged
  have gone : ((serve (fun _ content => content) (fun _ => DigestAlgorithm.sha256)
      [.create 1 abKey .sha256]).1.handle (fun _ content => content) (fun _ => .sha256)
      (.finish 1 (formatUploadId abKey) 0 ⟨[], none, none⟩ [] (some .renamed))).2.files
        (formatUploadId abKey) = (none : Option Bytes) := by
    decide +kernel
  exact absurd (gone.symm.trans file) nofun

end Summ.Resume
