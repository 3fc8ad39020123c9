import Summ.Storage.Immutable
import Summ.Storage.Moves
import Summ.Storage.Spellings

/-!
# Requests that do not overlap

A request served by itself is a run of its steps with no other request between
them. `Agrees` says that the two states are of the same store: a session is known
by the id it was the next to be given, a file by its inode. `handled_run`: a
request, wherever its body or the process breaks off, is such a run, and opens no
file that somebody else has open. So is a history (`served_run`), and what holds of
such runs holds of it (`served_blobs`).
-/

namespace Summ.Resume

open Uploads (Session Coherent Exclusive Progress)

variable {D : Type} {H : Hashing D}

/-- The two states of a store whose sessions were opened under these keys, in order. -/
structure Agrees (minted : List UploadKey) (s : State D) (t : Uploads.State H) : Prop where
  ids : minted.length = t.nextId
  distinct : minted.Nodup
  files : ∀ id key, minted[id]? = some key →
    s.files (formatUploadId key) = (t.staging (.session id)).map t.files
  sessions : ∀ id key, minted[id]? = some key → s.sessions key = t.sessions id
  unminted : ∀ key, key ∉ minted → s.files (formatUploadId key) = none ∧ s.sessions key = none
  blobs : ∀ d, s.blobs d = t.blobContent d

variable {minted : List UploadKey} {s s' : State D} {t t₀ u : Uploads.State H} {id : Nat}
  {key : UploadKey} {inode : Nat} {q : Uploads.Request D} {pc pc' : Progress H}

/-! ## What changes on both sides -/

namespace Agrees

theorem ne_of_id (agrees : Agrees minted s t) (hid : minted[id]? = some key) {id' : Nat}
    {key' : UploadKey} (hid' : minted[id']? = some key') (different : id' ≠ id) : key' ≠ key := by
  rintro rfl
  obtain ⟨hlt, -⟩ := List.getElem?_eq_some_iff.mp hid
  exact different ((List.getElem?_inj hlt agrees.distinct).mp (hid.trans hid'.symm)).symm

theorem ne_of_fresh (hid : minted[id]? = some key) {key' : UploadKey} (fresh : key' ∉ minted) :
    key' ≠ key :=
  fun same => fresh (same ▸ List.mem_of_getElem? hid)

theorem goto (agrees : Agrees minted s t) (r : Nat) (q : Uploads.Request D) (pc : Progress H) :
    Agrees minted s (t.goto r q pc) :=
  ⟨agrees.ids, agrees.distinct, agrees.files, agrees.sessions, agrees.unminted, agrees.blobs⟩

/-- A session is known on both sides, or on neither. -/
theorem getUploadIn (agrees : Agrees minted s t) (coherent : Coherent t) (repo : RepoId)
    (key : UploadKey) : s.getUploadIn repo key = t.getUploadIn repo (minted.idxOf key) := by
  rw [State.getUploadIn, Uploads.State.getUploadIn]
  by_cases known : key ∈ minted
  · rw [agrees.sessions _ key (List.getElem?_idxOf known)]
  · rw [(agrees.unminted key known).2, List.idxOf_eq_length known, agrees.ids]
    cases record : t.sessions t.nextId with
    | none => rfl
    | some session => exact absurd (coherent.recordedId _ session record) (Nat.lt_irrefl _)

theorem known (agrees : Agrees minted s t) {repo : RepoId} {session : Session}
    (found : s.getUploadIn repo key = some session) : minted[minted.idxOf key]? = some key := by
  refine List.getElem?_idxOf (Decidable.byContradiction fun fresh => ?_)
  rw [State.getUploadIn, (agrees.unminted key fresh).2] at found
  cases found

theorem putSession (agrees : Agrees minted s t) (hid : minted[id]? = some key)
    (session : Option Session) : Agrees minted (s.putSession key session) (t.putSession id session) where
  ids := agrees.ids
  distinct := agrees.distinct
  files := agrees.files
  sessions := fun id' key' hid' => by
    by_cases same : id' = id
    · subst same
      cases hid.symm.trans hid'
      rw [State.putSession_self]
      exact (Function.update_self id' session t.sessions).symm
    · rw [s.putSession_of_ne (agrees.ne_of_id hid hid' same), agrees.sessions id' key' hid']
      exact (Function.update_of_ne same session t.sessions).symm
  unminted := fun key' fresh =>
    ⟨(agrees.unminted key' fresh).1,
      (s.putSession_of_ne (ne_of_fresh hid fresh) _).trans (agrees.unminted key' fresh).2⟩
  blobs := agrees.blobs

/-- A staging file is written through its inode, which is no other file's. -/
theorem writeFile (agrees : Agrees minted s t) (coherent : Coherent t)
    (hid : minted[id]? = some key) (staged : t.staging (.session id) = some inode) (content : Bytes) :
    Agrees minted (s.putFile (formatUploadId key) (some content)) (t.writeFile inode content) where
  ids := agrees.ids
  distinct := agrees.distinct
  files := fun id' key' hid' => by
    by_cases same : id' = id
    · subst same
      cases hid.symm.trans hid'
      rw [State.putFile_self]
      change some content = (t.staging (.session id')).map (Function.update t.files inode content)
      rw [staged, Option.map_some, Function.update_self]
    · rw [putFile_other (agrees.ne_of_id hid hid' same), agrees.files id' key' hid']
      refine Option.map_congr fun i hi => ?_
      have apart : i ≠ inode := fun shared =>
        same (Uploads.StagingPath.session.inj (coherent.paths _ _ inode (shared ▸ hi) staged))
      exact (Function.update_of_ne apart ..).symm
  sessions := agrees.sessions
  unminted := fun key' fresh =>
    ⟨(putFile_other (ne_of_fresh hid fresh) _).trans (agrees.unminted key' fresh).1,
      (agrees.unminted key' fresh).2⟩
  blobs := fun d => by
    refine (agrees.blobs d).trans (Option.map_congr fun i hi => ?_)
    have apart : i ≠ inode := fun shared => coherent.unstaged d inode (shared ▸ hi) _ staged
    exact (Function.update_of_ne apart ..).symm

theorem removeFile (agrees : Agrees minted s t) (hid : minted[id]? = some key) :
    Agrees minted (s.putFile (formatUploadId key) none) (t.removeFile (.session id)) where
  ids := agrees.ids
  distinct := agrees.distinct
  files := fun id' key' hid' => by
    by_cases same : id' = id
    · subst same
      cases hid.symm.trans hid'
      rw [State.putFile_self]
      change none = (Function.update t.staging (.session id') none (.session id')).map t.files
      rw [Function.update_self, Option.map_none]
    · rw [putFile_other (agrees.ne_of_id hid hid' same), agrees.files id' key' hid']
      have apart : Uploads.StagingPath.session id' ≠ .session id := fun h => same (by cases h; rfl)
      exact congrArg (Option.map t.files) (Function.update_of_ne apart ..).symm
  sessions := agrees.sessions
  unminted := fun key' fresh =>
    ⟨(putFile_other (ne_of_fresh hid fresh) _).trans (agrees.unminted key' fresh).1,
      (agrees.unminted key' fresh).2⟩
  blobs := agrees.blobs

/-- A new session's staging file. -/
theorem createFile (agrees : Agrees minted s t) (coherent : Coherent t) (fresh : key ∉ minted) :
    Agrees (minted ++ [key]) (s.putFile (formatUploadId key) (some []))
      { t.createFile (.session t.nextId) with nextId := t.nextId + 1 } := by
  have old {id : Nat} {k : UploadKey} (h : (minted ++ [key])[id]? = some k) :
      id = t.nextId ∧ k = key ∨ id ≠ t.nextId ∧ k ≠ key ∧ minted[id]? = some k := by
    rcases Pool.of_add h with ⟨rfl, rfl⟩ | known
    · exact Or.inl ⟨agrees.ids, rfl⟩
    · obtain ⟨hlt, -⟩ := List.getElem?_eq_some_iff.mp known
      exact Or.inr ⟨fun last => absurd hlt (by rw [last, agrees.ids]; exact Nat.lt_irrefl _),
        fun same => fresh (same ▸ List.mem_of_getElem? known), known⟩
  have kept {i : Nat} (hi : i < t.nextInode) :
      t.files i = Function.update t.files t.nextInode [] i :=
    (Function.update_of_ne (Nat.ne_of_lt hi) [] t.files).symm
  refine ⟨?_, ?_, fun id k h => ?_, fun id k h => ?_, fun k unminted => ?_, fun d => ?_⟩
  · rw [List.length_append, agrees.ids]
    rfl
  · refine List.nodup_append.mpr ⟨agrees.distinct, List.nodup_singleton key, fun a ha b hb => ?_⟩
    rw [List.mem_singleton.mp hb]
    exact fun same => fresh (same ▸ ha)
  · rcases old h with ⟨rfl, rfl⟩ | ⟨other, different, known⟩
    · rw [State.putFile_self]
      change some [] = (Function.update t.staging (.session t.nextId) (some t.nextInode)
        (.session t.nextId)).map (Function.update t.files t.nextInode [])
      rw [Function.update_self, Option.map_some, Function.update_self]
    · rw [putFile_other different, agrees.files id k known]
      have apart : Uploads.StagingPath.session id ≠ .session t.nextId := fun h => other (by cases h; rfl)
      change _ = (Function.update t.staging (.session t.nextId) (some t.nextInode)
        (.session id)).map (Function.update t.files t.nextInode [])
      rw [Function.update_of_ne apart]
      exact Option.map_congr fun i hi => kept (coherent.stagedInode _ i hi)
  · rcases old h with ⟨rfl, rfl⟩ | ⟨-, -, known⟩
    · refine (agrees.unminted _ fresh).2.trans ?_
      cases record : t.sessions t.nextId with
      | none => exact record.symm
      | some session => exact absurd (coherent.recordedId _ session record) (Nat.lt_irrefl _)
    · exact agrees.sessions id k known
  · have apart : k ∉ minted ∧ k ≠ key := by
      rw [List.mem_append, List.mem_singleton, not_or] at unminted
      exact unminted
    exact ⟨(putFile_other apart.2 _).trans (agrees.unminted k apart.1).1,
      (agrees.unminted k apart.1).2⟩
  · exact (agrees.blobs d).trans
      (Option.map_congr fun i hi => kept (coherent.storedInode d i hi))

variable [DecidableEq D]

/-- A rename takes the inode, and with it the content, to the blob path. -/
theorem renameFile (agrees : Agrees minted s t) (hid : minted[id]? = some key)
    (inode : Nat) (digest : D) :
    Agrees minted { s.putFile (formatUploadId key) none with
        blobs := Function.update s.blobs digest (some (t.files inode)) }
      { t.removeFile (.session id) with blobs := Function.update t.blobs digest (some inode) } :=
  { agrees.removeFile hid with
    blobs := fun d => by
      rw [Uploads.State.blobContent]
      dsimp only
      by_cases same : d = digest
      · subst same
        rw [Function.update_self, Function.update_self]
        rfl
      · rw [Function.update_of_ne same, Function.update_of_ne same]
        exact agrees.blobs d }

end Agrees

/-! ## A request on its way -/

variable [DecidableEq D]

/-- No request is under way. -/
def Idle (t : Uploads.State H) : Prop := ∀ q ∈ t.requests, q.2.isDone = true

/-- Steps lead there that open no file somebody else has open. -/
def Leads (t u : Uploads.State H) : Prop :=
  ∃ actions, Transition.exec Uploads.step t actions = some u ∧
    Transition.Meets Uploads.step Exclusive t actions

/-- The request arrives and is done, and its steps lead to the store. -/
def Ends (minted : List UploadKey) (s : State D) (t : Uploads.State H) (q : Uploads.Request D) :
    Prop :=
  ∃ u, Leads t u ∧ Agrees minted s u ∧ u.requests = t.requests ++ [(q, .done)]

/-- The number the next request gets. -/
def turn (t : Uploads.State H) : Nat := t.requests.length

theorem Leads.refl (t : Uploads.State H) : Leads t t := ⟨[], rfl, trivial⟩

theorem Leads.step (leads : Leads t₀ t) {a : Uploads.Action D} (exclusive : Exclusive t a)
    (hs : Uploads.step t a = some u) : Leads t₀ u := by
  obtain ⟨actions, run, meets⟩ := leads
  have one : Transition.exec Uploads.step t [a] = some u := by
    rw [Transition.exec_cons, hs]
    rfl
  refine ⟨actions ++ [a], ?_, Transition.meets_append meets fun mid hmid => ⟨?_, ?_⟩⟩
  · rw [Transition.exec_append, run]
    exact one
  · cases run.symm.trans hmid
    exact exclusive
  · cases run.symm.trans hmid
    rw [hs]
    trivial

theorem Leads.trans (first : Leads t₀ t) (rest : Leads t u) : Leads t₀ u := by
  obtain ⟨actions, run, meets⟩ := first
  obtain ⟨later, run', meets'⟩ := rest
  refine ⟨actions ++ later, ?_, Transition.meets_append meets fun mid hmid => ?_⟩
  · rw [Transition.exec_append, run]
    exact run'
  · cases run.symm.trans hmid
    exact meets'

theorem Leads.coherent (leads : Leads t u) (coherent : Coherent t) : Coherent u := by
  obtain ⟨actions, run, meets⟩ := leads
  have keep (s : Uploads.State H) (a : Uploads.Action D) (s' : Uploads.State H) (inv : Coherent s)
      (exclusive : Exclusive s a) (hs : Uploads.step s a = some s') : Coherent s' :=
    Uploads.coherent_step inv exclusive hs
  exact Transition.exec_invariant keep coherent meets run

/-- A request on its way, all others done, in the store it has made by then. -/
structure Midway (minted : List UploadKey) (s : State D) (t₀ t : Uploads.State H)
    (q : Uploads.Request D) (pc : Progress H) : Prop where
  leads : Leads t₀ t
  agrees : Agrees minted s t
  coherent : Coherent t
  requests : t.requests = t₀.requests ++ [(q, pc)]
  idle : Idle t₀

namespace Midway

theorem here (mid : Midway minted s t₀ t q pc) : t.requests[turn t₀]? = some (q, pc) := by
  rw [mid.requests]
  exact List.getElem?_concat_length

/-- One of its steps. -/
theorem step (mid : Midway minted s t₀ t q pc) {a : Uploads.Action D} {minted' : List UploadKey}
    (exclusive : Exclusive t a) (hs : Uploads.step t a = some u)
    (moved : u.requests = t.requests.set (turn t₀) (q, pc')) (agrees : Agrees minted' s' u) :
    Midway minted' s' t₀ u q pc' where
  leads := mid.leads.step exclusive hs
  agrees := agrees
  coherent := Uploads.coherent_step mid.coherent exclusive hs
  requests := by
    rw [moved, mid.requests, turn, List.set_append_right _ _ (Nat.le_refl _), Nat.sub_self]
    rfl
  idle := mid.idle

theorem advance (mid : Midway minted s t₀ t q pc) {minted' : List UploadKey}
    (exclusive : Exclusive t (.advance (turn t₀)))
    (adv : t.advance (turn t₀) q pc = some (u.goto (turn t₀) q pc'))
    (same : u.requests = t.requests) (agrees : Agrees minted' s' u) :
    Midway minted' s' t₀ (u.goto (turn t₀) q pc') q pc' := by
  refine mid.step exclusive (a := .advance (turn t₀)) ?_ ?_ (agrees.goto (turn t₀) q pc')
  · change t.requests[turn t₀]?.bind _ = _
    rw [mid.here]
    exact adv
  · rw [← same]
    rfl

/-- It is alone, so no file is open but its own. -/
theorem exclusive (mid : Midway minted s t₀ t q pc) (closed : pc.upload = none)
    (read : ∀ x ∈ Uploads.resuming q pc, t.sessions x.1 = some x.2) :
    Exclusive t (.advance (turn t₀)) := by
  intro q' hq' x hx
  rw [mid.here] at hq'
  cases hq'
  refine ⟨read x hx, fun i _ => ?_⟩
  rw [Uploads.State.inUse, List.any_eq_false, mid.requests]
  intro p mem
  rcases List.mem_append.mp mem with before | here
  · have done := mid.idle p before
    cases hpc : p.2 <;> rw [hpc] at done <;> cases done
    exact Bool.false_ne_true
  · rw [List.mem_singleton.mp here, closed]
    exact Bool.false_ne_true

/-- What opens no file is in nobody's way. -/
theorem aside (mid : Midway minted s t₀ t q pc) (aside : Uploads.resuming q pc = none) :
    Exclusive t (.advance (turn t₀)) := by
  intro q' hq' x hx
  rw [mid.here] at hq'
  cases hq'
  rw [aside] at hx
  cases hx

theorem ends (mid : Midway minted s t₀ t q .done) : Ends minted s t₀ q :=
  ⟨t, mid.leads, mid.agrees, mid.requests⟩

/-- It may end anywhere. -/
theorem abandon (mid : Midway minted s t₀ t q pc) : Ends minted s t₀ q := by
  have hs : Uploads.step t (.abandon (turn t₀)) = some (t.goto (turn t₀) q .done) := by
    change t.requests[turn t₀]?.map _ = _
    rw [mid.here]
    rfl
  have exclusive : Exclusive t (.abandon (turn t₀)) := trivial
  have done : Midway minted s t₀ _ q .done :=
    mid.step exclusive hs rfl (mid.agrees.goto (turn t₀) q .done)
  exact done.ends

end Midway

/-- A request arrives. -/
theorem Agrees.arrive (agrees : Agrees minted s t) (coherent : Coherent t) (idle : Idle t)
    (q : Uploads.Request D) :
    Midway minted s t { t with requests := t.requests ++ [(q, .start)] } q .start where
  leads := by
    have exclusive : Exclusive t (.arrive q) := trivial
    exact (Leads.refl t).step exclusive rfl
  agrees := ⟨agrees.ids, agrees.distinct, agrees.files, agrees.sessions, agrees.unminted, agrees.blobs⟩
  coherent := Uploads.coherent_arrive coherent q
  requests := rfl
  idle := idle

/-! ## What it opens and writes -/

/-- A session's staging file, open on both sides. -/
structure Opened (t : Uploads.State H) (id : Nat) (key : UploadKey) (v : Upload)
    (upload : Uploads.Upload) : Prop where
  path : v.path = formatUploadId key
  staged : t.staging (.session id) = some upload.inode
  algorithm : v.algorithm = upload.algorithm
  offset : v.offset = upload.offset
  hasher : v.hasher = upload.hasher

variable {v : Upload} {upload : Uploads.Upload} {session : Session}

omit [DecidableEq D] in
theorem Opened.content (opened : Opened t id key v upload) (agrees : Agrees minted s t)
    (hid : minted[id]? = some key) : s.content v = t.files upload.inode := by
  rw [State.content, opened.path, agrees.files id key hid, opened.staged]
  rfl

namespace Midway

/-- The record is read. -/
theorem look (mid : Midway minted s t₀ t q .start) {repo : RepoId} {offset : Nat}
    (adv : t.advance (turn t₀) q .start = some (t.look (turn t₀) q repo (minted.idxOf key) offset)) :
    (∀ session, s.getUploadIn repo key = some session → session.offset = offset →
      ∃ u, Midway minted s t₀ u q (.looked session) ∧ u.sessions (minted.idxOf key) = some session) ∧
    ((∀ session, s.getUploadIn repo key = some session → session.offset ≠ offset) →
      Ends minted s t₀ q) := by
  have free : Exclusive t (.advance (turn t₀)) :=
    mid.exclusive rfl fun x hx => by cases q <;> cases hx
  rw [mid.agrees.getUploadIn mid.coherent, Uploads.State.look] at *
  refine ⟨fun session found there => ?_, fun refused => ?_⟩
  · rw [found] at adv
    dsimp only at adv
    rw [if_pos there] at adv
    exact ⟨_, mid.advance free adv rfl mid.agrees, (Option.filter_eq_some_iff.mp found).1⟩
  · cases found : t.getUploadIn repo (minted.idxOf key) with
    | none =>
      rw [found] at adv
      exact (mid.advance free adv rfl mid.agrees).ends
    | some session =>
      rw [found] at adv
      dsimp only at adv
      rw [if_neg (refused session found)] at adv
      exact (mid.advance free adv rfl mid.agrees).ends

/-- The staging file is opened and cut back to the recorded offset. -/
theorem resume (mid : Midway minted s t₀ t q (.looked session)) (hid : minted[id]? = some key)
    (stored : t.sessions id = some session) (next : Uploads.Upload → Progress H)
    (reads : ∀ x ∈ Uploads.resuming q (.looked session : Progress H), x = (id, session))
    (opens : ∀ u upload, t.resumeUpload id session = some (u, upload) →
      t.advance (turn t₀) q (.looked session) = some (u.goto (turn t₀) q (next upload)))
    (fails : t.resumeUpload id session = none →
      t.advance (turn t₀) q (.looked session) = some (t.goto (turn t₀) q .done)) :
    (∀ e, s.resume (formatUploadId key) session = .error e → Ends minted s t₀ q) ∧
    ∀ s' v, s.resume (formatUploadId key) session = .ok (s', v) →
      ∃ u upload, Midway minted s' t₀ u q (next upload) ∧ Opened u id key v upload := by
  obtain ⟨path, minted_, text⟩ := new_format key
  have free : Exclusive t (.advance (turn t₀)) := mid.exclusive rfl fun x hx => by
    rw [reads x hx]
    exact stored
  have refused (none_ : t.resumeUpload id session = none) : Ends minted s t₀ q :=
    (mid.advance free (fails none_) rfl mid.agrees).ends
  rw [State.resume, minted_]
  dsimp only
  rw [State.resumeUpload, text, mid.agrees.files id key hid]
  unfold Uploads.State.resumeUpload at refused opens
  cases hasher : Uploads.State.resumeHasher session with
  | none =>
    rw [hasher] at refused
    exact ⟨fun _ _ => refused rfl, fun _ _ h => (by cases h)⟩
  | some hash =>
    rw [hasher] at refused opens
    cases staged : t.staging (.session id) with
    | none =>
      rw [staged] at refused
      exact ⟨fun _ _ => refused rfl, fun _ _ h => (by cases h)⟩
    | some inode =>
      rw [staged] at refused opens
      dsimp only [Option.map_some] at refused opens ⊢
      by_cases short : (t.files inode).length < session.offset
      · rw [if_pos short] at refused ⊢
        exact ⟨fun _ _ => refused rfl, fun _ _ h => (by cases h)⟩
      · rw [if_neg short] at opens ⊢
        refine ⟨fun _ h => (by cases h), fun s' v h => ?_⟩
        cases h
        exact ⟨_, _, mid.advance free (opens _ _ rfl) rfl
          (mid.agrees.writeFile mid.coherent hid staged _), rfl, staged, rfl, rfl, rfl⟩

/-- A frame, whole or in part, goes through the inode. -/
theorem frame (mid : Midway minted s t₀ t q (.draining (some session) upload))
    (hid : minted[id]? = some key) (opened : Opened t id key v upload) (chunk : Bytes) :
    Midway minted (s.putFile v.path (some (Uploads.writeAllAt (s.content v) v.offset chunk))) t₀
      ((t.writeFile upload.inode
        (Uploads.writeAllAt (t.files upload.inode) upload.offset chunk)).goto (turn t₀) q
          (.draining (some session) { upload with
            offset := upload.offset + chunk.length
            hasher := upload.hasher.update chunk })) q
      (.draining (some session) { upload with
        offset := upload.offset + chunk.length
        hasher := upload.hasher.update chunk }) := by
  have hs : Uploads.step t (.frame (turn t₀) chunk) = some ((t.writeFile upload.inode
      (Uploads.writeAllAt (t.files upload.inode) upload.offset chunk)).goto (turn t₀) q
        (.draining (some session) { upload with
          offset := upload.offset + chunk.length
          hasher := upload.hasher.update chunk })) := by
    rw [Uploads.step, mid.here]
  have exclusive : Exclusive t (.frame (turn t₀) chunk) := trivial
  refine mid.step exclusive hs rfl (Agrees.goto ?_ (turn t₀) q _)
  rw [opened.content mid.agrees hid, opened.path, opened.offset]
  exact mid.agrees.writeFile mid.coherent hid opened.staged _

theorem shortWrite (mid : Midway minted s t₀ t q (.draining (some session) upload))
    (hid : minted[id]? = some key) (opened : Opened t id key v upload) (chunk : Bytes) (n : Nat) :
    Ends minted
      (s.putFile v.path (some (Uploads.writeAllAt (s.content v) v.offset (chunk.take n)))) t₀ q := by
  have hs : Uploads.step t (.shortWrite (turn t₀) chunk n) = some ((t.writeFile upload.inode
      (Uploads.writeAllAt (t.files upload.inode) upload.offset (chunk.take n))).goto (turn t₀) q
        q.failure) := by
    rw [Uploads.step, mid.here]
  have exclusive : Exclusive t (.shortWrite (turn t₀) chunk n) := trivial
  have failed : Midway minted
      (s.putFile v.path (some (Uploads.writeAllAt (s.content v) v.offset (chunk.take n)))) t₀
      ((t.writeFile upload.inode
        (Uploads.writeAllAt (t.files upload.inode) upload.offset (chunk.take n))).goto (turn t₀) q q.failure)
      q q.failure := by
    refine mid.step exclusive hs rfl (Agrees.goto ?_ (turn t₀) q _)
    rw [opened.content mid.agrees hid, opened.path, opened.offset]
    exact mid.agrees.writeFile mid.coherent hid opened.staged _
  exact failed.abandon

/-- What becomes of a body: it is in the file, or the request ends. -/
def Drains (minted : List UploadKey) (t₀ : Uploads.State H) (q : Uploads.Request D)
    (session : Session) (id : Nat) (key : UploadKey) : Except Failure Nat × State D × Upload → Prop
  | (.ok _, s, v) => ∃ (t : Uploads.State H) (upload : Uploads.Upload),
      Midway minted s t₀ t q (.draining (some session) upload) ∧ Opened t id key v upload
  | (.error _, s, _) => Ends minted s t₀ q

theorem drain (limit : Option Nat) (frames : List Frame) (written : Nat)
    (mid : Midway minted s t₀ t q (.draining (some session) upload))
    (hid : minted[id]? = some key) (opened : Opened t id key v upload) :
    Drains minted t₀ q session id key (State.drain limit s v written frames) := by
  induction frames generalizing s t v upload written with
  | nil => exact ⟨t, upload, mid, opened⟩
  | cons frame frames ih =>
    cases frame with
    | broken | crash => exact mid.abandon
    | data chunk =>
      rw [State.drain]
      split
      · exact ih _ mid opened
      · split
        · exact mid.abandon
        · refine ih _ (mid.frame hid opened chunk) ⟨opened.path, opened.staged, opened.algorithm, ?_, ?_⟩
          · exact congrArg (· + chunk.length) opened.offset
          · exact congrArg (Hasher.update · chunk) opened.hasher
    | short chunk n =>
      rw [State.drain]
      split
      · exact ih _ mid opened
      · split
        · exact mid.abandon
        · exact mid.shortWrite hid opened chunk n

theorem drainInto (body : UploadBody)
    (mid : Midway minted s t₀ t q (.draining (some session) upload))
    (hid : minted[id]? = some key) (opened : Opened t id key v upload) :
    Drains minted t₀ q session id key (State.drainInto s v body) := by
  have drained := mid.drain body.limit body.frames 0 hid opened
  rw [State.drainInto]
  split
  · exact mid.abandon
  · split
    · rename_i outcome
      rw [outcome] at drained
      exact drained
    · rename_i outcome
      rw [outcome] at drained
      split
      · obtain ⟨t', upload', mid', -⟩ := drained
        exact mid'.abandon
      · exact drained

end Midway

/-! ## Each request -/

/-- A request that reads a session's record and then opens its file. -/
structure Resumes (H : Hashing D) (q : Uploads.Request D) (repo : RepoId) (id offset : Nat)
    (next : Session → Uploads.Upload → Progress H) : Prop where
  looks : ∀ (t : Uploads.State H) r, t.advance r q .start = some (t.look r q repo id offset)
  reads : ∀ session, Uploads.resuming q (.looked session : Progress H) = some (id, session)
  opens : ∀ (t u : Uploads.State H) r session upload,
    t.resumeUpload id session = some (u, upload) →
    t.advance r q (.looked session) = some (u.goto r q (next session upload))
  fails : ∀ (t : Uploads.State H) r session, t.resumeUpload id session = none →
    t.advance r q (.looked session) = some (t.goto r q .done)

/-- How such a request begins: it is refused, or the session's file is open. -/
theorem Midway.begins {repo : RepoId} {offset : Nat} {next : Session → Uploads.Upload → Progress H}
    (mid : Midway minted s t₀ t q .start)
    (resumes : Resumes H q repo (minted.idxOf key) offset next) :
    (s.getUploadIn repo key = none → Ends minted s t₀ q) ∧
    ∀ session, s.getUploadIn repo key = some session →
      (session.offset ≠ offset → Ends minted s t₀ q) ∧
      (session.offset = offset →
        (∀ e, s.resume (formatUploadId key) session = .error e → Ends minted s t₀ q) ∧
        ∀ s' v, s.resume (formatUploadId key) session = .ok (s', v) → ∃ u upload,
          Midway minted s' t₀ u q (next session upload) ∧
          Opened u (minted.idxOf key) key v upload) := by
  obtain ⟨looked, refused⟩ := mid.look (resumes.looks t (turn t₀))
  refine ⟨fun absent => refused fun session found => ?_, fun session found =>
    ⟨fun elsewhere => refused fun session' found' => ?_, fun there => ?_⟩⟩
  · cases absent.symm.trans found
  · cases found.symm.trans found'
    exact elsewhere
  · obtain ⟨u, read, stored⟩ := looked session found there
    refine read.resume (mid.agrees.known found) stored (next session) (fun x hx => ?_)
      (resumes.opens u · (turn t₀) session) (resumes.fails u (turn t₀) session)
    rw [resumes.reads session] at hx
    exact (Option.some.inj hx).symm

theorem ends_append (agrees : Agrees minted s t) (coherent : Coherent t) (idle : Idle t)
    (repo : RepoId) (key : UploadKey) (offset : Nat) (body : UploadBody) (crash : Bool) :
    Ends minted (s.appendUpload repo (formatUploadId key) offset body crash).2 t
      (.appendUpload repo (minted.idxOf key) offset) := by
  have start := agrees.arrive coherent idle (.appendUpload repo (minted.idxOf key) offset)
  have resumes : Resumes H (.appendUpload repo (minted.idxOf key) offset) repo (minted.idxOf key)
      offset fun session upload => .draining (some session) upload :=
    ⟨fun _ _ => rfl, fun _ => rfl, fun t u r session upload h => by rw [Uploads.State.advance, h],
      fun t r session h => by rw [Uploads.State.advance, h]⟩
  obtain ⟨unknown, known⟩ := start.begins resumes
  rw [State.appendUpload, parse_format]
  dsimp only
  split
  · rename_i absent
    exact unknown absent
  rename_i session found
  have hid := agrees.known found
  obtain ⟨refused, opening⟩ := known session found
  split
  · rename_i elsewhere
    exact refused elsewhere
  rename_i there
  obtain ⟨failed, resumed⟩ := opening (not_not.mp there)
  split
  · rename_i e error
    exact failed e error
  rename_i s' v opens
  obtain ⟨t₂, upload, mid, opened⟩ := resumed s' v opens
  have drained := mid.drainInto body hid opened
  split
  · rename_i outcome
    rw [outcome] at drained
    exact drained
  rename_i n s'' v' outcome
  rw [outcome] at drained
  obtain ⟨t₃, upload', mid', opened'⟩ := drained
  split
  · exact mid'.abandon
  · rw [opened'.offset, opened'.hasher]
    exact (mid'.advance (mid'.aside rfl) rfl rfl (mid'.agrees.putSession hid _)).ends

/-- The digest asked for is of the other algorithm: what is staged is hashed again. -/
theorem Midway.rehash {repo : RepoId} {offset : Nat} {digest : D}
    (mid : Midway minted s t₀ t (.finishUpload repo id offset digest) (.resumed session upload))
    (hid : minted[id]? = some key) (opened : Opened t id key v upload) :
    (∀ e, s.rehashAs v (H.algorithmOf digest) = .error e →
      Ends minted s t₀ (.finishUpload repo id offset digest)) ∧
    ∀ v', s.rehashAs v (H.algorithmOf digest) = .ok v' → ∃ u upload',
      Midway minted s t₀ u (.finishUpload repo id offset digest)
        (.draining (some session) upload') ∧ Opened u id key v' upload' := by
  have rehashed (v' : Upload) (upload' : Uploads.Upload)
      (hashed : t.rehashAs upload (H.algorithmOf digest) = some upload')
      (opened' : Opened t id key v' upload') : ∃ u upload',
        Midway minted s t₀ u (.finishUpload repo id offset digest)
          (.draining (some session) upload') ∧ Opened u id key v' upload' := by
    have adv : t.advance (turn t₀) (.finishUpload repo id offset digest) (.resumed session upload) =
        some (t.goto (turn t₀) (.finishUpload repo id offset digest)
          (.draining (some session) upload')) := by
      rw [Uploads.State.advance, hashed]
    exact ⟨_, upload', mid.advance (mid.aside rfl) adv rfl mid.agrees, opened'.path, opened'.staged,
      opened'.algorithm, opened'.offset, opened'.hasher⟩
  have failed (short : t.rehashAs upload (H.algorithmOf digest) = none) :
      Ends minted s t₀ (.finishUpload repo id offset digest) := by
    have adv : t.advance (turn t₀) (.finishUpload repo id offset digest) (.resumed session upload) =
        some (t.goto (turn t₀) (.finishUpload repo id offset digest) .done) := by
      rw [Uploads.State.advance, short]
    exact (mid.advance (mid.aside rfl) adv rfl mid.agrees).ends
  rw [State.rehashAs, opened.algorithm, opened.content mid.agrees hid, opened.offset]
  unfold Uploads.State.rehashAs at rehashed failed
  by_cases same : H.algorithmOf digest = upload.algorithm
  · rw [if_pos same] at rehashed ⊢
    refine ⟨fun _ h => (by cases h), fun v' h => ?_⟩
    cases h
    exact rehashed v upload rfl opened
  · rw [if_neg same] at rehashed failed ⊢
    by_cases short : (t.files upload.inode).length < upload.offset
    · rw [if_pos short] at failed ⊢
      exact ⟨fun _ _ => failed rfl, fun _ h => (by cases h)⟩
    · rw [if_neg short] at rehashed ⊢
      refine ⟨fun _ h => (by cases h), fun v' h => ?_⟩
      cases h
      exact rehashed _ _ rfl ⟨opened.path, opened.staged, rfl, rfl, rfl⟩

theorem Midway.rename {repo : RepoId} {offset : Nat} {digest : D}
    {verified : upload.hasher.finalize H = digest}
    (mid : Midway minted s t₀ t (.finishUpload repo id offset digest)
      (.sealed upload digest verified))
    (hid : minted[id]? = some key) (staged : t.staging (.session id) = some inode) :
    ∃ u, Midway minted { s.putFile (formatUploadId key) none with
        blobs := Function.update s.blobs digest (some (t.files inode)) } t₀ u
      (.finishUpload repo id offset digest) .renamed := by
  have adv : t.advance (turn t₀) (.finishUpload repo id offset digest)
      (.sealed upload digest verified) =
      some ({ t.removeFile (.session id) with
        blobs := Function.update t.blobs digest (some inode) }.goto (turn t₀)
          (.finishUpload repo id offset digest) .renamed) := by
    rw [Uploads.State.advance, Uploads.State.renameFile, staged]
    rfl
  exact ⟨_, mid.advance (mid.aside rfl) adv rfl (mid.agrees.renameFile hid inode digest)⟩

/-- The body is sealed and its file renamed. -/
theorem Midway.commit {repo : RepoId} {offset : Nat} {digest : D}
    (mid : Midway minted s t₀ t (.finishUpload repo id offset digest)
      (.draining (some session) upload))
    (hid : minted[id]? = some key) (opened : Opened t id key v upload) :
    (∀ e, s.commitUpload H.hash v digest = .error e →
      Ends minted s t₀ (.finishUpload repo id offset digest)) ∧
    ∀ s', s.commitUpload H.hash v digest = .ok s' →
      ∃ u, Midway minted s' t₀ u (.finishUpload repo id offset digest) .renamed := by
  have file := mid.agrees.files id key hid
  rw [opened.staged, Option.map_some] at file
  rw [State.commitUpload, opened.hasher, opened.path, file]
  dsimp only
  have adv : t.advance (turn t₀) (.finishUpload repo id offset digest)
      (.draining (some session) upload) = some (t.sealUpload (turn t₀)
        (.finishUpload repo id offset digest) upload digest .done) := rfl
  rw [Uploads.State.sealUpload] at adv
  by_cases verified : upload.hasher.finalize H = digest
  · rw [dif_pos verified] at adv
    have sealed := mid.advance (mid.aside rfl) adv rfl mid.agrees
    have same : ¬H.hash upload.hasher.algorithm upload.hasher.absorbed ≠ digest :=
      not_not.mpr verified
    rw [if_neg same]
    refine ⟨fun _ h => (by cases h), fun s' h => ?_⟩
    cases h
    exact sealed.rename hid opened.staged
  · rw [dif_neg verified] at adv
    have differs : H.hash upload.hasher.algorithm upload.hasher.absorbed ≠ digest := verified
    rw [if_pos differs]
    exact ⟨fun _ _ => (mid.advance (mid.aside rfl) adv rfl mid.agrees).ends, fun _ h => (by cases h)⟩

theorem ends_finish (agrees : Agrees minted s t) (coherent : Coherent t) (idle : Idle t)
    (repo : RepoId) (key : UploadKey) (offset : Nat) (body : UploadBody) (digest : D)
    (crash : Option Crash) :
    Ends minted (s.finishUpload H.hash H.algorithmOf repo (formatUploadId key) offset body digest
      crash).2 t (.finishUpload repo (minted.idxOf key) offset digest) := by
  have start := agrees.arrive coherent idle (.finishUpload repo (minted.idxOf key) offset digest)
  have resumes : Resumes H (.finishUpload repo (minted.idxOf key) offset digest) repo
      (minted.idxOf key) offset fun session upload => .resumed session upload :=
    ⟨fun _ _ => rfl, fun _ => rfl, fun t u r session upload h => by rw [Uploads.State.advance, h],
      fun t r session h => by rw [Uploads.State.advance, h]⟩
  obtain ⟨unknown, known⟩ := start.begins resumes
  rw [State.finishUpload, parse_format]
  dsimp only
  split
  · rename_i absent
    exact unknown absent
  rename_i session found
  have hid := agrees.known found
  obtain ⟨refused, opening⟩ := known session found
  split
  · rename_i elsewhere
    exact refused elsewhere
  rename_i there
  obtain ⟨failed, resumed⟩ := opening (not_not.mp there)
  split
  · rename_i e error
    exact failed e error
  rename_i s' v opens
  obtain ⟨t₂, upload, mid, opened⟩ := resumed s' v opens
  obtain ⟨failed, rehashed⟩ := mid.rehash hid opened
  split
  · rename_i e error
    exact failed e error
  rename_i v' rehash
  obtain ⟨t₃, upload', mid', opened'⟩ := rehashed v' rehash
  have drained := mid'.drainInto body hid opened'
  split
  · rename_i outcome
    rw [outcome] at drained
    exact drained
  rename_i n s'' v'' outcome
  rw [outcome] at drained
  obtain ⟨t₄, upload'', mid'', opened''⟩ := drained
  obtain ⟨failed, committed⟩ := mid''.commit hid opened''
  split
  · exact mid''.abandon
  split
  · rename_i e error
    exact failed e error
  rename_i s₃ commit
  obtain ⟨t₅, renamed⟩ := committed s₃ commit
  split
  · exact renamed.abandon
  · exact (renamed.advance (renamed.aside rfl) rfl rfl (renamed.agrees.putSession hid none)).ends

theorem ends_cancel (agrees : Agrees minted s t) (coherent : Coherent t) (idle : Idle t)
    (repo : RepoId) (key : UploadKey) :
    Ends minted (s.cancelUpload repo (formatUploadId key)).2 t
      (.cancelUpload repo (minted.idxOf key)) := by
  obtain ⟨t₁, start⟩ : ∃ t₁ : Uploads.State H, Midway minted s t t₁
      (.cancelUpload repo (minted.idxOf key)) .start := ⟨_, agrees.arrive coherent idle _⟩
  have free := start.exclusive rfl fun x hx => by cases hx
  obtain ⟨path, minted_, text⟩ := new_format key
  rw [State.cancelUpload, parse_format]
  dsimp only
  rw [minted_]
  have same := start.agrees.getUploadIn start.coherent repo key
  cases found : s.getUploadIn repo key with
  | none =>
    have adv : t₁.advance (turn t) (.cancelUpload repo (minted.idxOf key)) .start =
        some (t₁.goto (turn t) (.cancelUpload repo (minted.idxOf key)) .done) := by
      rw [Uploads.State.advance, ← same, found]
    exact (start.advance free adv rfl start.agrees).ends
  | some session =>
    have adv : t₁.advance (turn t) (.cancelUpload repo (minted.idxOf key)) .start =
        some (t₁.goto (turn t) (.cancelUpload repo (minted.idxOf key)) (.looked session)) := by
      rw [Uploads.State.advance, ← same, found]
    dsimp only
    rw [text]
    have hid := agrees.known found
    have looked := start.advance free adv rfl start.agrees
    have unlisted := looked.advance (looked.aside rfl) rfl rfl (looked.agrees.putSession hid none)
    exact (unlisted.advance (unlisted.aside rfl) rfl rfl (unlisted.agrees.removeFile hid)).ends

theorem ends_create (agrees : Agrees minted s t) (coherent : Coherent t) (idle : Idle t)
    (repo : RepoId) (algorithm : DigestAlgorithm) (fresh : key ∉ minted) :
    Ends (minted ++ [key]) (s.createUpload repo (formatUploadId key) algorithm).2 t
      (.createUpload repo algorithm) := by
  obtain ⟨t₁, start⟩ : ∃ t₁ : Uploads.State H, Midway minted s t t₁
      (.createUpload repo algorithm) .start := ⟨_, agrees.arrive coherent idle _⟩
  obtain ⟨path, minted_, text⟩ := new_format key
  rw [State.createUpload, parse_format, minted_]
  dsimp only
  rw [text, (agrees.unminted key fresh).1]
  have staged := start.advance (start.aside rfl) rfl rfl
    (start.agrees.createFile start.coherent fresh)
  have hid : (minted ++ [key])[t₁.nextId]? = some key := by
    rw [← start.agrees.ids]
    exact List.getElem?_concat_length
  exact (staged.advance (staged.aside rfl) rfl rfl (staged.agrees.putSession hid _)).ends

/-! ## Histories -/

/-- The id is in the text it was given out in. -/
def Request.Given (q : Request D) : Prop := ∀ id ∈ q.id, ∃ key, id = formatUploadId key

/-- The session a request opens. -/
def Request.opens : Request D → Option UploadKey
  | create _ uuid _ => some uuid
  | append .. | finish .. | cancel .. => none

/-- The number of a session, or one that no session has. -/
def numbered (minted : List UploadKey) (id : Text) : Nat :=
  (parseUploadId id).elim minted.length minted.idxOf

/-- The request whose steps serve it. -/
def Request.stepwise (minted : List UploadKey) : Request D → Uploads.Request D
  | create repo _ algorithm => .createUpload repo algorithm
  | append repo id offset .. => .appendUpload repo (numbered minted id) offset
  | finish repo id offset _ digest _ => .finishUpload repo (numbered minted id) offset digest
  | cancel repo id => .cancelUpload repo (numbered minted id)

omit [DecidableEq D] in
theorem numbered_format (minted : List UploadKey) (key : UploadKey) :
    numbered minted (formatUploadId key) = minted.idxOf key := by
  rw [numbered, parse_format]
  rfl

/-- A request to a store with none under way runs to its end. -/
theorem handled_run (q : Request D) (agrees : Agrees minted s t) (coherent : Coherent t)
    (idle : Idle t) (given : q.Given) (fresh : ∀ key ∈ q.opens, key ∉ minted) :
    Ends (minted ++ q.opens.toList) (s.handle H.hash H.algorithmOf q).2 t (q.stepwise minted) := by
  cases q with
  | create repo uuid algorithm =>
    exact ends_create agrees coherent idle repo algorithm (fresh uuid rfl)
  | append repo id offset body crash =>
    obtain ⟨key, rfl⟩ := given id rfl
    rw [Request.opens, Option.toList_none, List.append_nil, Request.stepwise, numbered_format]
    exact ends_append agrees coherent idle repo key offset body crash
  | finish repo id offset body digest crash =>
    obtain ⟨key, rfl⟩ := given id rfl
    rw [Request.opens, Option.toList_none, List.append_nil, Request.stepwise, numbered_format]
    exact ends_finish agrees coherent idle repo key offset body digest crash
  | cancel repo id =>
    obtain ⟨key, rfl⟩ := given id rfl
    rw [Request.opens, Option.toList_none, List.append_nil, Request.stepwise, numbered_format]
    exact ends_cancel agrees coherent idle repo key

/-- A history whose sessions get ids of their own, which clients send as they were
given, is a run. -/
theorem served_run (history : List (Request D)) (given : ∀ q ∈ history, q.Given)
    (fresh : (history.filterMap Request.opens).Nodup) :
    ∃ t : Uploads.State H, Leads {} t ∧ Idle t ∧
      Agrees (history.filterMap Request.opens) (serve H.hash H.algorithmOf history).1 t := by
  induction history using List.reverseRecOn with
  | nil =>
    refine ⟨{}, .refl _, fun q hq => (by cases hq), rfl, List.nodup_nil, ?_, ?_, ?_, fun d => rfl⟩
    · exact fun id key h => (by cases h)
    · exact fun id key h => (by cases h)
    · exact fun key _ => ⟨rfl, rfl⟩
  | append_singleton history q ih =>
    rw [List.filterMap_append, List.nodup_append] at fresh
    obtain ⟨earlier, -, apart⟩ := fresh
    obtain ⟨t, leads, idle, agrees⟩ := ih
      (fun q' h => given q' (List.mem_append_left _ h)) earlier
    have opens : [q].filterMap Request.opens = q.opens.toList := by
      cases hq : q.opens <;> simp [hq]
    obtain ⟨u, more, agrees', requests⟩ := handled_run q agrees (leads.coherent Uploads.coherent_init)
      idle (given q (List.mem_append_right _ (List.mem_singleton.mpr rfl))) fun key hkey old =>
        apart key old key (opens ▸ Option.mem_toList.mpr hkey) rfl
    refine ⟨u, leads.trans more, fun q' hq' => ?_, ?_⟩
    · rw [requests] at hq'
      rcases List.mem_append.mp hq' with before | last
      · exact idle q' before
      · rw [List.mem_singleton.mp last]
        rfl
    · rw [List.filterMap_append, opens, serve, List.foldl_append]
      exact agrees'

/-- So a blob is what its digest says. -/
theorem served_blobs (history : List (Request D)) (given : ∀ q ∈ history, q.Given)
    (fresh : (history.filterMap Request.opens).Nodup) (d : D) (content : Bytes)
    (stored : (serve H.hash H.algorithmOf history).1.blobs d = some content) :
    H.hash (H.algorithmOf d) content = d := by
  obtain ⟨t, leads, -, agrees⟩ := served_run (H := H) history given fresh
  rw [agrees.blobs, Uploads.State.blobContent] at stored
  obtain ⟨inode, blob, rfl⟩ := Option.map_eq_some_iff.mp stored
  exact (leads.coherent Uploads.coherent_init).stored d inode blob

end Summ.Resume
