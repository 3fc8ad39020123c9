import Summ.Core.Types
import Summ.Lib.Transition

/-!
# Upload sessions over staging files

Every request is its own steps: read the session record, open the staging file
at the recorded offset, write frames, save the record, seal, rename, and the
metadata batch. An open file is an inode, so a write through it still reaches
the file after a rename or a removal. The digest lock is left out: it only
takes interleavings away.
-/

namespace Summ

inductive DigestAlgorithm
  | sha256
  | sha512
  deriving DecidableEq

/-- The hash functions: a digest names its algorithm, and nothing collides. -/
structure Hashing (D : Type) where
  hash : DigestAlgorithm → Bytes → D
  algorithmOf : D → DigestAlgorithm
  of_hash : ∀ a content, algorithmOf (hash a content) = a
  injective : ∀ a, Function.Injective (hash a)

/-- A running hash is what it has absorbed. Its serialised state is itself. -/
structure Hasher where
  algorithm : DigestAlgorithm
  absorbed : Bytes
  deriving DecidableEq

namespace Hasher

def new (algorithm : DigestAlgorithm) : Hasher := ⟨algorithm, []⟩

def update (h : Hasher) (bytes : Bytes) : Hasher := { h with absorbed := h.absorbed ++ bytes }

def finalize {D : Type} (H : Hashing D) (h : Hasher) : D := H.hash h.algorithm h.absorbed

/-- A state of the other algorithm has the wrong length. -/
def restore (algorithm : DigestAlgorithm) (state : Hasher) : Option Hasher :=
  if state.algorithm = algorithm then some state else none

end Hasher

namespace Uploads

/-- The part of an upload session record that requests read. -/
structure Session where
  repo : RepoId
  offset : Nat
  algorithm : DigestAlgorithm
  hasherState : Option Hasher
  deriving DecidableEq

/-- The bytes a session's hasher has absorbed. -/
def Session.absorbed (session : Session) : Bytes :=
  (session.hasherState.map Hasher.absorbed).getD []

/-- A staging file's name: a session's id, or one that a single push made up. -/
inductive StagingPath
  | session (id : Nat)
  | single (request : Nat)
  deriving DecidableEq

/-- An upload that is open. -/
structure Upload where
  inode : Nat
  algorithm : DigestAlgorithm
  offset : Nat
  hasher : Hasher
  deriving DecidableEq

/-- `write_all_at`: a gap before the offset reads as zeros. -/
def writeAllAt (content : Bytes) (offset : Nat) (chunk : Bytes) : Bytes :=
  (content ++ List.replicate (offset - content.length) 0).take offset ++ chunk ++
    content.drop (offset + chunk.length)

inductive Request (D : Type)
  | createUpload (repo : RepoId) (algorithm : DigestAlgorithm)
  | appendUpload (repo : RepoId) (id expectedOffset : Nat)
  | finishUpload (repo : RepoId) (id expectedOffset : Nat) (digest : D)
  | putBlob (digest : D)
  | cancelUpload (repo : RepoId) (id : Nat)

/-- How far a request has come. -/
inductive Progress {D : Type} (H : Hashing D)
  | start
  /-- The session record has been read, and the client's offset agrees. -/
  | looked (session : Session)
  /-- The staging file is open, before the rehash. -/
  | resumed (session : Session) (upload : Upload)
  | draining (session : Option Session) (upload : Upload)
  /-- The accumulated digest is the declared one. -/
  | sealed (upload : Upload) (digest : D) (verified : upload.hasher.finalize H = digest)
  | renamed
  /-- The staging file of a new session is there, its record not yet. -/
  | staged (id : Nat)
  /-- A cancelled session's record is gone. -/
  | unlisted
  /-- A failed single push still has to remove its staging file. -/
  | failed
  | done

variable {D : Type} [DecidableEq D] {H : Hashing D}

/-- The staging file a request works on. -/
def Request.path (request : Nat) : Request D → StagingPath
  | .appendUpload _ id _ | .finishUpload _ id _ _ | .cancelUpload _ id => .session id
  | .putBlob _ | .createUpload .. => .single request

/-- Where a request goes whose body could not be written. -/
def Request.failure : Request D → Progress H
  | .putBlob _ => .failed
  | _ => .done

def Progress.upload : Progress H → Option Upload
  | .resumed _ upload | .draining _ upload | .sealed upload _ _ => some upload
  | _ => none

def Progress.isStart : Progress H → Bool
  | .start => true
  | _ => false

structure State (H : Hashing D) where
  files : Nat → Bytes := fun _ => []
  staging : StagingPath → Option Nat := fun _ => none
  blobs : D → Option Nat := fun _ => none
  sessions : Nat → Option Session := fun _ => none
  /-- Inodes and session ids from here on have not been handed out. -/
  nextInode : Nat := 0
  nextId : Nat := 0
  requests : List (Request D × Progress H) := []

namespace State

variable (s : State H)

def goto (r : Nat) (q : Request D) (pc : Progress H) : State H :=
  { s with requests := s.requests.set r (q, pc) }

/-- The file at a digest's blob path. -/
def blobContent (d : D) : Option Bytes := (s.blobs d).map s.files

/-- Whether some request has the file open. -/
def inUse (inode : Nat) : Bool :=
  s.requests.any fun q => q.2.upload.any fun u => decide (u.inode = inode)

/-- `get_upload_in`. -/
def getUploadIn (repo : RepoId) (id : Nat) : Option Session :=
  (s.sessions id).filter fun session => decide (session.repo = repo)

/-- `open_staging` of a new file. -/
def createFile (path : StagingPath) : State H :=
  { s with
    files := Function.update s.files s.nextInode []
    staging := Function.update s.staging path (some s.nextInode)
    nextInode := s.nextInode + 1 }

def writeFile (inode : Nat) (content : Bytes) : State H :=
  { s with files := Function.update s.files inode content }

def removeFile (path : StagingPath) : State H :=
  { s with staging := Function.update s.staging path none }

def putSession (id : Nat) (session : Option Session) : State H :=
  { s with sessions := Function.update s.sessions id session }

/-- The hasher `resume_upload` carries on with. -/
def resumeHasher (session : Session) : Option Hasher :=
  match session.hasherState with
  | some state => Hasher.restore session.algorithm state
  | none => if session.offset = 0 then some (Hasher.new session.algorithm) else none

/-- `resume_upload`: a file shorter than its session's offset is refused, a
longer one is cut back. -/
def resumeUpload (id : Nat) (session : Session) : Option (State H × Upload) :=
  match resumeHasher session, s.staging (.session id) with
  | some hasher, some inode =>
    if (s.files inode).length < session.offset then none
    else some (s.writeFile inode ((s.files inode).take session.offset),
      { inode, algorithm := session.algorithm, offset := session.offset, hasher })
  | _, _ => none

/-- `rehash_as`: a read of the first `offset` staged bytes. -/
def rehashAs (upload : Upload) (algorithm : DigestAlgorithm) : Option Upload :=
  if algorithm = upload.algorithm then some upload
  else if (s.files upload.inode).length < upload.offset then none
  else some { upload with
    algorithm
    hasher := (Hasher.new algorithm).update ((s.files upload.inode).take upload.offset) }

/-- `rename` of a staging file to a blob path. -/
def renameFile (path : StagingPath) (digest : D) : Option (State H) :=
  (s.staging path).map fun inode =>
    { s.removeFile path with blobs := Function.update s.blobs digest (some inode) }

/-- `append_upload` and `finish_upload` read the session first. -/
def look (r : Nat) (q : Request D) (repo : RepoId) (id expectedOffset : Nat) : State H :=
  match s.getUploadIn repo id with
  | some session =>
    if session.offset = expectedOffset then s.goto r q (.looked session) else s.goto r q .done
  | none => s.goto r q .done

/-- `seal` and the comparison; a mismatch creates nothing. -/
def sealUpload (r : Nat) (q : Request D) (upload : Upload) (digest : D) (otherwise : Progress H) :
    State H :=
  if verified : upload.hasher.finalize H = digest then s.goto r q (.sealed upload digest verified)
  else s.goto r q otherwise

/-- The next step of a request, frames apart. -/
def advance (r : Nat) (q : Request D) (pc : Progress H) : Option (State H) :=
  match q, pc with
  | .createUpload _ _, .start =>
    some ({ s.createFile (.session s.nextId) with nextId := s.nextId + 1 }.goto r q
      (.staged s.nextId))
  | .createUpload repo algorithm, .staged id =>
    some ((s.putSession id (some { repo, offset := 0, algorithm, hasherState := none })).goto r q
      .done)
  | .appendUpload repo id expectedOffset, .start
  | .finishUpload repo id expectedOffset _, .start => some (s.look r q repo id expectedOffset)
  | .appendUpload _ id _, .looked session =>
    match s.resumeUpload id session with
    | some (t, upload) => some (t.goto r q (.draining (some session) upload))
    | none => some (s.goto r q .done)
  | .appendUpload _ id _, .draining (some session) upload =>
    some ((s.putSession id (some { session with
      offset := upload.offset
      hasherState := some upload.hasher })).goto r q .done)
  | .finishUpload _ id _ _, .looked session =>
    match s.resumeUpload id session with
    | some (t, upload) => some (t.goto r q (.resumed session upload))
    | none => some (s.goto r q .done)
  | .finishUpload _ _ _ digest, .resumed session upload =>
    match s.rehashAs upload (H.algorithmOf digest) with
    | some upload => some (s.goto r q (.draining (some session) upload))
    | none => some (s.goto r q .done)
  | .finishUpload _ _ _ digest, .draining _ upload => some (s.sealUpload r q upload digest q.failure)
  | .finishUpload _ id _ _, .sealed _ digest _ =>
    match s.renameFile (.session id) digest with
    | some t => some (t.goto r q .renamed)
    | none => some (s.goto r q .done)
  | .finishUpload _ id _ _, .renamed => some ((s.putSession id none).goto r q .done)
  | .putBlob digest, .start =>
    let algorithm := H.algorithmOf digest
    some ((s.createFile (.single r)).goto r q (.draining none
      { inode := s.nextInode, algorithm, offset := 0, hasher := Hasher.new algorithm }))
  | .putBlob digest, .draining _ upload => some (s.sealUpload r q upload digest q.failure)
  | .putBlob _, .sealed _ digest _ =>
    match s.renameFile (.single r) digest with
    | some t => some (t.goto r q .renamed)
    | none => some (s.goto r q .failed)
  | .putBlob _, .renamed => some (s.goto r q .done)
  | .putBlob _, .failed => some ((s.removeFile (.single r)).goto r q .done)
  | .cancelUpload repo id, .start =>
    match s.getUploadIn repo id with
    | some session => some (s.goto r q (.looked session))
    | none => some (s.goto r q .done)
  | .cancelUpload _ id, .looked _ => some ((s.putSession id none).goto r q .unlisted)
  | .cancelUpload _ id, .unlisted => some ((s.removeFile (.session id)).goto r q .done)
  | _, _ => none

end State

inductive Action (D : Type)
  | arrive (q : Request D)
  | advance (r : Nat)
  /-- One frame of a body: the positioned write, then the hasher. -/
  | frame (r : Nat) (chunk : Bytes)
  /-- A frame whose write fails after `n` bytes. -/
  | shortWrite (r : Nat) (chunk : Bytes) (n : Nat)
  /-- The request ends where it is: its body is cut short, or it is dropped. A drop
  takes effect once the blocking step then running, a frame's write or a rename, has
  landed, so that step comes before this one. -/
  | abandon (r : Nat)

def step (s : State H) : Action D → Option (State H)
  | .arrive q => some { s with requests := s.requests ++ [(q, .start)] }
  | .advance r => s.requests[r]?.bind fun (q, pc) => s.advance r q pc
  | .frame r chunk =>
    match s.requests[r]? with
    | some (q, .draining session upload) =>
      some ((s.writeFile upload.inode
          (writeAllAt (s.files upload.inode) upload.offset chunk)).goto r q
        (.draining session { upload with
          offset := upload.offset + chunk.length
          hasher := upload.hasher.update chunk }))
    | _ => none
  | .shortWrite r chunk n =>
    match s.requests[r]? with
    | some (q, .draining _ upload) =>
      some ((s.writeFile upload.inode
          (writeAllAt (s.files upload.inode) upload.offset (chunk.take n))).goto r q q.failure)
    | _ => none
  | .abandon r => s.requests[r]?.map fun (q, _) => s.goto r q .done

end Uploads

end Summ
