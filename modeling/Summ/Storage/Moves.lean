import Summ.Storage.Uploads

/-!
# What a step of a request does to sessions

`Moves` is the inversion of `step`: it says of every branch which record it
writes or retires and which session's staging file it creates or takes away.
Everything else a step does (frames, reads, single pushes) is `aside`.
-/

namespace Summ

namespace Uploads

variable {D : Type} {H : Hashing D}

/-- The session a request names. -/
def Request.session : Request D → Option Nat
  | .appendUpload _ id _ | .finishUpload _ id _ _ | .cancelUpload _ id => some id
  | .createUpload .. | .putBlob _ => none

/-- A request under way on a session it has read. -/
def Progress.isUnderWay : Progress H → Bool
  | .looked _ | .resumed .. | .draining .. | .sealed .. | .renamed | .unlisted => true
  | .start | .staged _ | .failed | .done => false

def Progress.isDone : Progress H → Bool
  | .done => true
  | _ => false

/-- A staging file without a record: not yet, or not any more. -/
def Progress.isUnlisted : Progress H → Bool
  | .staged _ | .unlisted => true
  | _ => false

/-- The session whose record a request has read. -/
def watching (q : Request D) (pc : Progress H) : Option Nat :=
  if pc.isUnderWay then q.session else none

/-- The session whose staging file is renamed and whose record is not retired yet. -/
def committing : Request D → Progress H → Option Nat
  | .finishUpload _ id _ _, .renamed => some id
  | _, _ => none

/-- The session an append is about to save. -/
def saving : Request D → Progress H → Option Nat
  | .appendUpload _ id _, .draining (some _) _ => some id
  | _, _ => none

/-- The session whose record the next step writes. -/
def writing : Request D → Progress H → Option Nat
  | .createUpload _ _, .staged id => some id
  | q, pc => saving q pc

/-- What a step of a request does to records and staging files. -/
inductive Moves (s t : State H) (a : Action D) (r : Nat) :
    Request D → Progress H → Progress H → Prop
  | aside {q : Request D} {pc pc' : Progress H}
      (sessions : t.sessions = s.sessions)
      (staging : ∀ id, t.staging (.session id) = s.staging (.session id))
      (nextId : t.nextId = s.nextId)
      (read : ∀ id, watching q pc' = some id → watching q pc = some id ∨ (s.sessions id).isSome)
      (committed : committing q pc = none)
      (listed : pc'.isUnlisted = false) : Moves s t a r q pc pc'
  | create {repo : RepoId} {algorithm : DigestAlgorithm}
      (sessions : t.sessions = s.sessions)
      (staging : t.staging = Function.update s.staging (.session s.nextId) (some s.nextInode))
      (nextId : t.nextId = s.nextId + 1) :
      Moves s t a r (.createUpload repo algorithm) .start (.staged s.nextId)
  | record {repo : RepoId} {algorithm : DigestAlgorithm} {id : Nat} (session : Session)
      (sessions : t.sessions = Function.update s.sessions id (some session))
      (staging : t.staging = s.staging) (nextId : t.nextId = s.nextId) :
      Moves s t a r (.createUpload repo algorithm) (.staged id) .done
  | save {repo : RepoId} {id expectedOffset : Nat} {session : Session} {upload : Upload}
      (advances : a = .advance r) (saved : Session)
      (sessions : t.sessions = Function.update s.sessions id (some saved))
      (staging : t.staging = s.staging) (nextId : t.nextId = s.nextId) :
      Moves s t a r (.appendUpload repo id expectedOffset) (.draining (some session) upload) .done
  | rename {repo : RepoId} {id expectedOffset : Nat} {digest : D} {pc : Progress H}
      (sessions : t.sessions = s.sessions)
      (staging : t.staging = Function.update s.staging (.session id) none)
      (nextId : t.nextId = s.nextId) (underWay : pc.isUnderWay) :
      Moves s t a r (.finishUpload repo id expectedOffset digest) pc .renamed
  | retire {repo : RepoId} {id expectedOffset : Nat} {digest : D}
      (sessions : t.sessions = Function.update s.sessions id none)
      (staging : t.staging = s.staging) (nextId : t.nextId = s.nextId) :
      Moves s t a r (.finishUpload repo id expectedOffset digest) .renamed .done
  | unlist {repo : RepoId} {id : Nat} {session : Session}
      (sessions : t.sessions = Function.update s.sessions id none)
      (staging : t.staging = s.staging) (nextId : t.nextId = s.nextId) :
      Moves s t a r (.cancelUpload repo id) (.looked session) .unlisted
  | unlink {repo : RepoId} {id : Nat}
      (sessions : t.sessions = s.sessions)
      (staging : t.staging = Function.update s.staging (.session id) none)
      (nextId : t.nextId = s.nextId) :
      Moves s t a r (.cancelUpload repo id) .unlisted .done
  | lost {repo : RepoId} {id expectedOffset : Nat} {digest : D}
      (abandoned : a = .abandon r) (sessions : t.sessions = s.sessions)
      (staging : t.staging = s.staging) (nextId : t.nextId = s.nextId) :
      Moves s t a r (.finishUpload repo id expectedOffset digest) .renamed .done

/-- A request's step and where it leads. -/
def Advances (s t : State H) (a : Action D) (r : Nat) (q : Request D) (pc : Progress H) : Prop :=
  ∃ pc', t.requests = s.requests.set r (q, pc') ∧ Moves s t a r q pc pc'

section Steps
variable {s t : State H} {a : Action D} {r : Nat} {q : Request D} {pc pc' : Progress H}

theorem State.getUploadIn_isSome {repo : RepoId} {id : Nat} {session : Session}
    (h : s.getUploadIn repo id = some session) : (s.sessions id).isSome := by
  obtain ⟨stored, -⟩ := Option.filter_eq_some_iff.mp h
  rw [stored]
  rfl

theorem State.resumeUpload_same {id : Nat} {session : Session} {upload : Upload}
    (h : s.resumeUpload id session = some (t, upload)) :
    t.sessions = s.sessions ∧ t.staging = s.staging ∧ t.nextId = s.nextId ∧
      t.requests = s.requests := by
  unfold State.resumeUpload at h
  split at h
  · split at h
    · cases h
    · cases h
      exact ⟨rfl, rfl, rfl, rfl⟩
  · cases h

theorem State.renameFile_same [DecidableEq D] {path : StagingPath} {digest : D}
    (h : s.renameFile path digest = some t) :
    t.sessions = s.sessions ∧ t.staging = Function.update s.staging path none ∧
      t.nextId = s.nextId ∧ t.requests = s.requests := by
  obtain ⟨inode, -, rfl⟩ := Option.map_eq_some_iff.mp h
  exact ⟨rfl, rfl, rfl, rfl⟩

theorem committing_draining {session : Option Session} {upload : Upload} :
    committing q (Progress.draining session upload : Progress H) = none := by
  cases q <;> rfl

theorem failure_isUnlisted (q : Request D) : (q.failure : Progress H).isUnlisted = false := by
  cases q <;> rfl

theorem of_committing {id : Nat} (h : committing q pc = some id) :
    ∃ repo expectedOffset digest, q = .finishUpload repo id expectedOffset digest ∧
      pc = .renamed := by
  unfold committing at h
  split at h
  · cases h
    exact ⟨_, _, _, rfl, rfl⟩
  · cases h

/-- A single push works on a staging file that belongs to no session. -/
theorem update_single (staging : StagingPath → Option Nat) (n : Nat) (inode : Option Nat)
    (id : Nat) : Function.update staging (.single n) inode (.session id) = staging (.session id) :=
  Function.update_of_ne (fun h => by cases h) _ _

/-- A step that leaves records and sessions' files alone, and reads no record. -/
theorem advances_of_same (requests : t.requests = s.requests.set r (q, pc'))
    (sessions : t.sessions = s.sessions)
    (staging : ∀ id, t.staging (.session id) = s.staging (.session id))
    (nextId : t.nextId = s.nextId) (committed : committing q pc = none)
    (read : ∀ id, watching q pc' = some id → watching q pc = some id)
    (listed : pc'.isUnlisted = false) : Advances s t a r q pc :=
  ⟨pc', requests, .aside sessions staging nextId (fun id h => Or.inl (read id h)) committed listed⟩

theorem watching_of (read : pc'.isUnderWay = true → pc.isUnderWay = true) (id : Nat)
    (h : watching q pc' = some id) : watching q pc = some id := by
  unfold watching at h ⊢
  split at h
  · rename_i underWay
    rw [if_pos (read underWay)]
    exact h
  · cases h

/-- A request goes on without touching a record or a session's file. -/
theorem advances_goto (committed : committing q pc = none)
    (read : pc'.isUnderWay = true → pc.isUnderWay = true) (listed : pc'.isUnlisted = false) :
    Advances s (s.goto r q pc') a r q pc :=
  advances_of_same rfl rfl (fun _ => rfl) rfl committed (watching_of read) listed

/-- A request ends where it has nothing to lose. -/
theorem advances_done (committed : committing q pc = none) :
    Advances s (s.goto r q .done) a r q pc := by
  refine advances_goto committed ?_ rfl
  intro h
  cases h

/-- A request reads the record its name belongs to, or ends. -/
theorem advances_look {repo : RepoId} {id expectedOffset : Nat} (named : q.session = some id)
    (committed : committing q pc = none) :
    Advances s (s.look r q repo id expectedOffset) a r q pc := by
  unfold State.look
  split
  · rename_i session h
    split
    · refine ⟨_, rfl, .aside rfl (fun _ => rfl) rfl ?_ committed rfl⟩
      intro id' h'
      change q.session = some id' at h'
      rw [named] at h'
      cases h'
      exact Or.inr (State.getUploadIn_isSome h)
    · exact advances_done committed
  · exact advances_done committed

/-- A request that has looked opens the staging file. -/
theorem advances_resume {id : Nat} {session : Session} {upload : Upload}
    (h : s.resumeUpload id session = some (t, upload)) (committed : committing q pc = none)
    (read : pc'.isUnderWay = true → pc.isUnderWay = true) (listed : pc'.isUnlisted = false) :
    Advances s (t.goto r q pc') a r q pc := by
  obtain ⟨sessions, staging, nextId, requests⟩ := State.resumeUpload_same h
  refine advances_of_same ?_ sessions (fun _ => congrFun staging _) nextId committed
    (watching_of read) listed
  rw [State.goto, requests]

theorem advances_seal [DecidableEq D] {upload : Upload} {digest : D} {otherwise : Progress H}
    (underWay : pc.isUnderWay) (committed : committing q pc = none)
    (listed : otherwise.isUnlisted = false) :
    Advances s (s.sealUpload r q upload digest otherwise) a r q pc := by
  unfold State.sealUpload
  split
  · exact advances_goto committed (fun _ => underWay) rfl
  · exact advances_goto committed (fun _ => underWay) listed

variable [DecidableEq D]

/-- Every branch of `advance` is one of the moves. -/
theorem advances_advance (hs : s.advance r q pc = some t) : Advances s t (.advance r) r q pc := by
  unfold State.advance at hs
  split at hs
  case h_1 =>
    cases hs
    exact ⟨_, rfl, .create rfl rfl rfl⟩
  case h_2 =>
    cases hs
    exact ⟨_, rfl, .record _ rfl rfl rfl⟩
  case h_3 | h_4 =>
    cases hs
    exact advances_look rfl rfl
  case h_5 | h_7 =>
    split at hs
    · rename_i h
      cases hs
      exact advances_resume h rfl (fun _ => rfl) rfl
    · cases hs
      exact advances_done rfl
  case h_6 =>
    cases hs
    exact ⟨_, rfl, .save rfl _ rfl rfl rfl⟩
  case h_8 =>
    split at hs
    · cases hs
      exact advances_goto rfl (fun _ => rfl) rfl
    · cases hs
      exact advances_done rfl
  case h_9 =>
    cases hs
    exact advances_seal rfl rfl rfl
  case h_10 =>
    split at hs
    · rename_i h
      obtain ⟨sessions, staging, nextId, requests⟩ := State.renameFile_same h
      cases hs
      exact ⟨.renamed, by rw [State.goto, requests], .rename sessions staging nextId rfl⟩
    · cases hs
      exact advances_done rfl
  case h_11 =>
    cases hs
    exact ⟨_, rfl, .retire rfl rfl rfl⟩
  case h_12 =>
    cases hs
    exact advances_of_same rfl rfl (update_single s.staging r (some s.nextInode)) rfl rfl
      (fun _ h => by cases h) rfl
  case h_13 =>
    cases hs
    exact advances_seal rfl rfl rfl
  case h_14 =>
    split at hs
    · rename_i h
      obtain ⟨sessions, staging, nextId, requests⟩ := State.renameFile_same h
      cases hs
      refine ⟨.renamed, ?_, .aside sessions ?_ nextId (fun _ h => by cases h) rfl rfl⟩
      · rw [State.goto, requests]
      · intro id
        rw [State.goto, staging, update_single]
    · cases hs
      exact advances_goto rfl (fun _ => rfl) rfl
  case h_15 =>
    cases hs
    exact advances_done rfl
  case h_16 =>
    cases hs
    exact advances_of_same rfl rfl (update_single s.staging r none) rfl rfl
      (fun _ h => by cases h) rfl
  case h_17 =>
    split at hs
    · rename_i h
      cases hs
      refine ⟨_, rfl, .aside rfl (fun _ => rfl) rfl ?_ rfl rfl⟩
      intro id' h'
      cases h'
      exact Or.inr (State.getUploadIn_isSome h)
    · cases hs
      exact advances_done rfl
  case h_18 =>
    cases hs
    exact ⟨_, rfl, .unlist rfl rfl rfl⟩
  case h_19 =>
    cases hs
    exact ⟨_, rfl, .unlink rfl rfl rfl⟩
  case h_20 => cases hs

/-- A step is an arrival or one of the moves of the request it names. -/
theorem step_advances (hs : step s a = some t) :
    (∃ q, a = .arrive q ∧ t = { s with requests := s.requests ++ [(q, .start)] }) ∨
      ∃ r q pc, s.requests[r]? = some (q, pc) ∧ Advances s t a r q pc := by
  cases a with
  | arrive q =>
    cases hs
    exact Or.inl ⟨q, rfl, rfl⟩
  | advance r =>
    obtain ⟨⟨q, pc⟩, h, hs⟩ := Option.bind_eq_some_iff.mp hs
    exact Or.inr ⟨r, q, pc, h, advances_advance hs⟩
  | frame r chunk =>
    rw [step] at hs
    split at hs
    · rename_i q session upload h
      cases hs
      exact Or.inr ⟨r, q, _, h, advances_of_same rfl rfl (fun _ => rfl) rfl
        committing_draining (watching_of fun _ => rfl) rfl⟩
    · cases hs
  | shortWrite r chunk n =>
    rw [step] at hs
    split at hs
    · rename_i q session upload h
      cases hs
      exact Or.inr ⟨r, q, _, h, advances_of_same rfl rfl (fun _ => rfl) rfl
        committing_draining (watching_of fun _ => rfl) (failure_isUnlisted q)⟩
    · cases hs
  | abandon r =>
    obtain ⟨⟨q, pc⟩, h, rfl⟩ := Option.map_eq_some_iff.mp hs
    refine Or.inr ⟨r, q, pc, h, ?_⟩
    cases committed : committing q pc with
    | none => exact advances_done committed
    | some id =>
      obtain ⟨repo, expectedOffset, digest, rfl, rfl⟩ := of_committing committed
      exact ⟨_, rfl, .lost rfl rfl rfl rfl⟩

end Steps

section Moves
variable {s t : State H} {a : Action D} {r : Nat} {q : Request D} {pc pc' : Progress H} {id : Nat}

theorem isSome_update {α β : Type} [DecidableEq α] {f : α → Option β} {x y : α} {b : Option β}
    (h : (Function.update f x b y).isSome) : (f y).isSome ∨ y = x ∧ b.isSome := by
  by_cases hy : y = x
  · rw [hy, Function.update_self] at h
    exact Or.inr ⟨hy, h⟩
  · rw [Function.update_of_ne hy] at h
    exact Or.inl h

/-- Only the batch of a create or of an append stores a session. -/
theorem Moves.stored (moves : Moves s t a r q pc pc') (h : (t.sessions id).isSome) :
    (s.sessions id).isSome ∨ pc = .staged id ∨ a = .advance r ∧ saving q pc = some id := by
  cases moves with
  | aside sessions | create sessions | rename sessions | unlink sessions | lost _ sessions =>
    rw [sessions] at h
    exact Or.inl h
  | record session sessions =>
    rw [sessions] at h
    obtain stored | ⟨rfl, -⟩ := isSome_update h
    · exact Or.inl stored
    · exact Or.inr (Or.inl rfl)
  | save advances saved sessions =>
    rw [sessions] at h
    obtain stored | ⟨rfl, -⟩ := isSome_update h
    · exact Or.inl stored
    · exact Or.inr (Or.inr ⟨advances, rfl⟩)
  | retire sessions | unlist sessions =>
    rw [sessions] at h
    obtain stored | ⟨-, none⟩ := isSome_update h
    · exact Or.inl stored
    · cases none

/-- A session's staging file goes with its rename, or once its record has. -/
theorem Moves.staged (moves : Moves s t a r q pc pc') (h : (s.staging (.session id)).isSome) :
    (t.staging (.session id)).isSome ∨ committing q pc' = some id ∨
      pc = .unlisted ∧ q.session = some id := by
  cases moves with
  | aside _ staging =>
    rw [staging]
    exact Or.inl h
  | create _ staging =>
    rw [staging, Function.update_apply]
    split
    · exact Or.inl rfl
    · exact Or.inl h
  | record _ _ staging | save _ _ _ staging | retire _ staging | unlist _ staging
  | lost _ _ staging =>
    rw [staging]
    exact Or.inl h
  | @rename repo id' expectedOffset digest pc _ staging =>
    by_cases hid : id = id'
    · exact Or.inr (Or.inl (by rw [hid]; rfl))
    · rw [staging, Function.update_of_ne (fun e => hid (StagingPath.session.inj e))]
      exact Or.inl h
  | @unlink repo id' _ staging =>
    by_cases hid : id = id'
    · exact Or.inr (Or.inr ⟨rfl, by rw [hid]; rfl⟩)
    · rw [staging, Function.update_of_ne (fun e => hid (StagingPath.session.inj e))]
      exact Or.inl h

theorem Moves.nextId_le (moves : Moves s t a r q pc pc') : s.nextId ≤ t.nextId := by
  cases moves <;> omega

theorem Moves.read (moves : Moves s t a r q pc pc') (h : watching q pc' = some id) :
    watching q pc = some id ∨ (s.sessions id).isSome := by
  cases moves with
  | aside _ _ _ read => exact read id h
  | create | record | save | retire | unlink | lost => cases h
  | rename _ _ _ underWay =>
    rw [watching, if_pos underWay]
    exact Or.inl h
  | unlist => exact Or.inl h

/-- The batch of a finish retires the session its rename took the file of. -/
theorem Moves.committed (moves : Moves s t a r q pc pc') (h : committing q pc = some id) :
    committing q pc' = some id ∨ t.sessions id = none ∨ a = .abandon r := by
  cases moves with
  | aside _ _ _ _ committed =>
    rw [committed] at h
    cases h
  | create | record | save | unlist | unlink => cases h
  | rename =>
    obtain ⟨_, _, _, hq, -⟩ := of_committing h
    cases hq
    exact Or.inl rfl
  | retire sessions =>
    cases h
    rw [sessions, Function.update_self]
    exact Or.inr (Or.inl rfl)
  | lost abandoned => exact Or.inr (Or.inr abandoned)

theorem Moves.unlisted (moves : Moves s t a r q pc .unlisted) (h : q.session = some id) :
    t.sessions id = none := by
  cases moves with
  | aside _ _ _ _ _ listed => cases listed
  | unlist sessions =>
    cases h
    rw [sessions, Function.update_self]

/-- A session's id is made up together with its staging file. -/
theorem Moves.minted (moves : Moves s t a r q pc (.staged id)) :
    id = s.nextId ∧ t.nextId = s.nextId + 1 ∧ t.sessions = s.sessions ∧
      (t.staging (.session id)).isSome := by
  cases moves with
  | aside _ _ _ _ _ listed => cases listed
  | create sessions staging nextId =>
    refine ⟨rfl, nextId, sessions, ?_⟩
    rw [staging, Function.update_self]
    rfl

end Moves

end Uploads

end Summ
