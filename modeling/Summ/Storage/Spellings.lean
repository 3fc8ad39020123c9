import Summ.Storage.Resume

/-!
# Spellings of an upload id

A session is found under every text that decodes to its key, and its staging
file under the minted one alone.
-/

namespace Summ.Resume

open Uploads (Session)

variable {D : Type} [DecidableEq D] (hash : DigestAlgorithm → Bytes → D)
  (algorithmOf : D → DigestAlgorithm)

/-- The text a request names its session by. -/
def Request.id : Request D → Option Text
  | create .. => none
  | append _ id .. | finish _ id .. | cancel _ id => some id

/-- The session, the text and the offset that an append or a finish goes on from. -/
def Request.resumes : Request D → Option (RepoId × Text × Nat)
  | append repo id offset .. | finish repo id offset .. => some (repo, id, offset)
  | create .. | cancel .. => none

/-- The request finds the session of `key`, and goes on from where it is. -/
def Request.Finds (q : Request D) (s : State D) (id : Text) (key : UploadKey) : Prop :=
  parseUploadId id = some key ∧
    ((∃ repo, q = .cancel repo id ∧ (s.getUploadIn repo key).isSome = true) ∨
      ∃ repo offset session, q.resumes = some (repo, id, offset) ∧
        s.getUploadIn repo key = some session ∧ session.offset = offset)

/-- Every spelling of a session's id is the session, with its record and its file:
a request touches no other staging file, an append or a finish opens the session's
with the bytes staged in it, and a cancel leaves none. -/
structure OneSession (s : State D) (q : Request D) : Prop where
  apart : ∀ id key path, q.id = some id → parseUploadId id = some key →
    path ≠ formatUploadId key → (s.handle hash algorithmOf q).2.files path = s.files path
  found : ∀ repo id offset key session content, q.resumes = some (repo, id, offset) →
    parseUploadId id = some key → s.getUploadIn repo key = some session →
    session.offset = offset → s.files (formatUploadId key) = some content →
    ∃ t u, s.resume id session = .ok (t, u) ∧ u.path = formatUploadId key ∧
      t.files u.path = some (content.take offset)
  cancelled : ∀ repo id key, q = .cancel repo id → parseUploadId id = some key →
    (s.getUploadIn repo key).isSome = true → ∀ t, parseUploadId t = some key →
      (s.handle hash algorithmOf q).2.files t = none

/-- The text is the one that was minted, where the request finds a session whose
staging file is there. -/
def Request.Minted (q : Request D) (s : State D) : Prop :=
  ∀ id key, q.Finds s id key → (s.files (formatUploadId key)).isSome = true →
    id = formatUploadId key

variable {hash algorithmOf} {s : State D} {l : Ledger} {key : UploadKey} {id : Text} {repo : RepoId}
  {session : Session} {q : Request D} {t s' : State D} {u v : Upload}

/-! ## The file under the text that was sent -/

/-- Of the staging files at most the one of that name is changed, and none is made. -/
def Within (s : State D) (id : Text) (t : State D) : Prop :=
  ∃ content, t.files = (s.putFile id content).files ∧ (s.files id = none → content = none)

omit [DecidableEq D] in
theorem Within.same (files : t.files = s.files) : Within s id t :=
  ⟨s.files id, files.trans (Function.update_eq_self ..).symm, fun absent => absent⟩

omit [DecidableEq D] in
theorem Within.of_ne (within : Within s id t) {path : Text} (other : path ≠ id) :
    t.files path = s.files path := by
  obtain ⟨content, files, -⟩ := within
  rw [files]
  exact s.putFile_of_ne other content

omit [DecidableEq D] in
theorem Within.none (within : Within s id t) {path : Text} (absent : s.files path = none) :
    t.files path = none := by
  by_cases same : path = id
  · obtain ⟨content, files, removes⟩ := within
    subst same
    rw [files, removes absent]
    exact s.putFile_self _ _
  · rw [within.of_ne same, absent]

omit [DecidableEq D] in
theorem resume_opens (h : s.resume id session = .ok (t, u)) :
    s.files id ≠ none ∧ u.path = id ∧ ∃ content, t = s.putFile id content := by
  rw [State.resume] at h
  split at h
  · cases h
  · rename_i path new
    have text := UploadId.text_of_new new
    rw [State.resumeUpload] at h
    split at h
    · cases h
    · split at h
      · cases h
      · rename_i file
        split at h
        · cases h
        · cases h
          rw [text] at file
          exact ⟨by rw [file]; exact Option.some_ne_none _, text, _, by rw [text]⟩

omit [DecidableEq D] in
theorem rehashAs_path {algorithm : DigestAlgorithm} (h : s.rehashAs u algorithm = .ok v) :
    v.path = u.path := by
  rw [State.rehashAs] at h
  split at h
  · cases h
    rfl
  · split at h <;> cases h
    rfl

omit [DecidableEq D] in
/-- What is written of a body is in the open file. -/
theorem drained_files {more : Bytes} {content : Option Bytes} (opened : t = s.putFile id content)
    (path : u.path = id) (drained : Drained t u s' v more) :
    v.path = id ∧ ∃ content, s' = s.putFile id content := by
  obtain ⟨written, rfl⟩ := drained.files
  exact ⟨drained.path.trans path, written, by rw [opened, path, State.putFile_putFile]⟩

omit [DecidableEq D] in
theorem within_append (repo : RepoId) (offset : Nat) (body : UploadBody) (crash : Bool) :
    Within s id (s.appendUpload repo id offset body crash).2 := by
  rw [State.appendUpload]
  split
  · exact .same rfl
  · split
    · exact .same rfl
    · split
      · exact .same rfl
      · split
        · exact .same rfl
        · rename_i t u resumed
          obtain ⟨there, path, content, opened⟩ := resume_opens resumed
          obtain ⟨more, drained, -⟩ := drainInto_drained t u body
          obtain ⟨-, written, files⟩ := drained_files opened path drained
          split
          · rename_i outcome
            rw [outcome] at files
            exact ⟨written, congrArg State.files files, fun absent => absurd absent there⟩
          · rename_i outcome
            rw [outcome] at files
            have kept := congrArg State.files files
            split <;> exact ⟨written, kept, fun absent => absurd absent there⟩

theorem within_finish (repo : RepoId) (offset : Nat) (body : UploadBody) (digest : D)
    (crash : Option Crash) :
    Within s id (s.finishUpload hash algorithmOf repo id offset body digest crash).2 := by
  rw [State.finishUpload]
  split
  · exact .same rfl
  · split
    · exact .same rfl
    · split
      · exact .same rfl
      · split
        · exact .same rfl
        · rename_i t u resumed
          obtain ⟨there, path, content, opened⟩ := resume_opens resumed
          split
          · exact ⟨content, congrArg State.files opened, fun absent => absurd absent there⟩
          · rename_i v rehashed
            obtain ⟨more, drained, -⟩ := drainInto_drained t v body
            obtain ⟨last, written, files⟩ :=
              drained_files opened ((rehashAs_path rehashed).trans path) drained
            split
            · rename_i outcome
              rw [outcome] at files
              exact ⟨written, congrArg State.files files, fun absent => absurd absent there⟩
            · rename_i outcome
              rw [outcome] at files last
              dsimp only at files last
              split
              · exact ⟨written, congrArg State.files files, fun absent => absurd absent there⟩
              · split
                · exact ⟨written, congrArg State.files files, fun absent => absurd absent there⟩
                · rename_i committed
                  have moved := commitUpload_files committed
                  rw [last, files, State.putFile_putFile] at moved
                  split <;> exact ⟨none, moved, fun _ => rfl⟩

omit [DecidableEq D] in
theorem within_cancel (repo : RepoId) : Within s id (s.cancelUpload repo id).2 := by
  rw [State.cancelUpload]
  split
  · exact .same rfl
  · split
    · exact .same rfl
    · split
      · exact .same rfl
      · rename_i path new
        exact ⟨none, by rw [UploadId.text_of_new new]; rfl, fun _ => rfl⟩

theorem within_handle (named : q.id = some id) : Within s id (s.handle hash algorithmOf q).2 := by
  cases q with
  | create => cases named
  | append repo id' offset body crash =>
    cases named
    exact within_append repo offset body crash
  | finish repo id' offset body digest crash =>
    cases named
    exact within_finish repo offset body digest crash
  | cancel repo id' =>
    cases named
    exact within_cancel repo

/-- Under any spelling a request leaves the staging files of the other sessions alone. -/
theorem Kept.apart (kept : Kept s l) {path : Text} (named : q.id = some id)
    (parsed : parseUploadId id = some key) (other : path ≠ formatUploadId key) :
    (s.handle hash algorithmOf q).2.files path = s.files path := by
  have within : Within s id (s.handle hash algorithmOf q).2 := within_handle named
  by_cases same : path = id
  · subst same
    have absent : s.files path = none := by
      cases file : s.files path with
      | none => rfl
      | some content => exact absurd (kept.minted parsed file) other
    rw [within.none absent, absent]
  · exact within.of_ne same

/-! ## What a request finds -/

omit [DecidableEq D] in
/-- With the minted text a cancel leaves nothing under any spelling. -/
theorem Kept.cancelled (kept : Kept s l) (found : (s.getUploadIn repo key).isSome = true) {t : Text}
    (ht : parseUploadId t = some key) :
    (s.cancelUpload repo (formatUploadId key)).2.files t = none := by
  obtain ⟨session, stored⟩ := Option.isSome_iff_exists.mp found
  obtain ⟨path, minted, text⟩ := new_format key
  rw [State.cancelUpload, parse_format]
  dsimp only
  rw [stored, minted]
  dsimp only
  rw [text]
  by_cases same : t = formatUploadId key
  · subst same
    exact State.putFile_self _ _ _
  · rw [State.putFile_of_ne _ same]
    cases file : (s.putSession key none).files t with
    | none => rfl
    | some content => exact absurd (kept.minted ht file) same

variable (hash algorithmOf) in
/-- After any requests, a request finds one session and one file if and only if
its text is the minted one, where it finds a session that has its file. -/
theorem spellings_agree_iff (history : List (Request D)) (q : Request D) :
    OneSession hash algorithmOf (serve hash algorithmOf history).1 q ↔
      q.Minted (serve hash algorithmOf history).1 := by
  have kept := kept_serve hash algorithmOf history
  generalize (serve hash algorithmOf history).1 = s at kept ⊢
  generalize (serve hash algorithmOf history).2 = l at kept
  constructor
  · rintro one id key ⟨parsed, ⟨repo, rfl, found⟩ | ⟨repo, offset, session, resumes, found, reached⟩⟩ there
    · -- Under another spelling the file is left where it was.
      by_contra other
      have left := one.cancelled repo id key rfl parsed found (formatUploadId key) (parse_format key)
      rw [(within_handle rfl).of_ne (Ne.symm other)] at left
      rw [left] at there
      cases there
    · obtain ⟨content, file⟩ := Option.isSome_iff_exists.mp there
      obtain ⟨t, u, resumed, -⟩ := one.found repo id offset key session content resumes parsed found
        reached file
      exact (kept.of_resume (of_getUploadIn found) parsed resumed).2.1
  · intro minted
    refine ⟨fun id key path named parsed other => kept.apart named parsed other,
      fun repo id offset key session content resumes parsed found reached file => ?_,
      fun repo id key hq parsed found t ht => ?_⟩
    · have there : (s.files (formatUploadId key)).isSome = true := by rw [file]; rfl
      have same := minted id key
        ⟨parsed, Or.inr ⟨repo, offset, session, resumes, found, reached⟩⟩ there
      have stored := of_getUploadIn found
      cases unmoved : l.moved key with
      | true =>
        rw [kept.moved key session stored unmoved] at file
        cases file
      | false =>
        obtain ⟨path, new, text⟩ := new_format key
        have resumed := (kept.recorded stored unmoved).resumeUpload text
        obtain ⟨_, file', first⟩ := kept.staged key session stored unmoved
        cases file.symm.trans file'
        rw [same, State.resume, new]
        refine ⟨_, _, resumed, text, ?_⟩
        rw [← reached, first]
        exact s.putFile_self _ _
    · subst hq
      cases file : s.files (formatUploadId key) with
      | some content =>
        have same := minted id key ⟨parsed, Or.inl ⟨repo, rfl, found⟩⟩ (by rw [file]; rfl)
        rw [State.handle, same]
        exact kept.cancelled found ht
      | none =>
        have absent : s.files t = none := by
          cases other : s.files t with
          | none => rfl
          | some content =>
            rw [kept.minted ht other, file] at other
            cases other
        exact (within_handle rfl).none absent

/-- The digits of `abKey` without the hyphens. -/
def bareId : Text := digitsOf abKey.toList

/-- Without its hyphens, the id of an open session cannot be appended to, and to
cancel under it leaves the staging file behind. -/
theorem bare_id_strands :
    ¬(∀ (history : List (Request Bytes)) (q : Request Bytes),
      OneSession (fun _ content => content) (fun _ => .sha256)
        (serve (fun _ content => content) (fun _ => .sha256) history).1 q) ∧
    ((serve (fun _ content => content) (fun _ => DigestAlgorithm.sha256)
      [.create 1 abKey .sha256]).1.handle
        (fun _ content => content) (fun _ => .sha256)
        (.append 1 bareId 0 ⟨[], none, none⟩ false)).1 = .failed .blobUnknown ∧
    ((serve (fun _ content => content) (fun _ => DigestAlgorithm.sha256)
      [.create 1 abKey .sha256]).1.handle (fun _ content => content) (fun _ => .sha256)
        (.cancel 1 bareId)).1 = .cancelled ∧
    ((serve (fun _ content => content) (fun _ => DigestAlgorithm.sha256)
      [.create 1 abKey .sha256, .cancel 1 bareId]).1.files (formatUploadId abKey)) = some [] := by
  have left : (serve (fun _ content => content) (fun _ => DigestAlgorithm.sha256)
      [.create 1 abKey .sha256, .cancel 1 bareId]).1.files (formatUploadId abKey) = some ([] : Bytes) := by
    decide +kernel
  refine ⟨fun all => ?_, by decide +kernel, by decide +kernel, left⟩
  have one := all [.create 1 abKey .sha256] (.cancel 1 bareId)
  have gone := one.cancelled 1 bareId abKey rfl (by decide +kernel) (by decide +kernel)
    (formatUploadId abKey) (parse_format abKey)
  exact absurd (left.symm.trans gone) (by decide)

end Summ.Resume
