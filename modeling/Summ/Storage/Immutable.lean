import Summ.Lib.Pool
import Summ.Storage.Uploads

/-!
# Blob files do not change

`Coherent` ties an open upload to its file, a session record to a prefix of its
staging file, and a blob path to content that hashes to its digest. It survives
every step as long as a request opens a staging file only while the session is
still the one it read and nobody else has the file open (`Exclusive`).
-/

namespace Summ

namespace Uploads

variable {D : Type} {H : Hashing D}

namespace State

/-- The file a request has open, with the path it belongs to. -/
def handle (s : State H) (r : Nat) : Option (StagingPath × Upload) :=
  s.requests[r]?.bind fun q => q.2.upload.map fun u => (q.1.path r, u)

/-- The request is not there yet, or has taken no step. -/
def Unstarted (s : State H) (r : Nat) : Prop := ∀ q ∈ s.requests[r]?, q.2.isStart = true

end State

/-- What holds between requests, session records, staging files and blobs. -/
structure Coherent (s : State H) : Prop where
  written : ∀ r p u, s.handle r = some (p, u) →
    s.files u.inode = u.hasher.absorbed ∧ u.offset = u.hasher.absorbed.length
  alone : ∀ r r' p p' u u', s.handle r = some (p, u) → s.handle r' = some (p', u') →
    u.inode = u'.inode → r = r'
  staged : ∀ r p u, s.handle r = some (p, u) →
    (∀ p', s.staging p' = some u.inode → p' = p) ∧ ∀ i, s.staging p = some i → i = u.inode
  paths : ∀ p p' i, s.staging p = some i → s.staging p' = some i → p = p'
  recorded : ∀ id session i, s.sessions id = some session → s.staging (.session id) = some i →
    session.absorbed <+: s.files i ∧ session.offset = session.absorbed.length
  stored : ∀ d i, s.blobs d = some i → H.hash (H.algorithmOf d) (s.files i) = d
  unstaged : ∀ d i, s.blobs d = some i → ∀ p, s.staging p ≠ some i
  closed : ∀ d i, s.blobs d = some i → ∀ r p u, s.handle r = some (p, u) → u.inode ≠ i
  stagedInode : ∀ p i, s.staging p = some i → i < s.nextInode
  storedInode : ∀ d i, s.blobs d = some i → i < s.nextInode
  openInode : ∀ r p u, s.handle r = some (p, u) → u.inode < s.nextInode
  stagedId : ∀ id i, s.staging (.session id) = some i → id < s.nextId
  openId : ∀ r id u, s.handle r = some (.session id, u) → id < s.nextId
  recordedId : ∀ id session, s.sessions id = some session → id < s.nextId
  mintedId : ∀ (r : Nat) (q : Request D) (id : Nat), s.requests[r]? = some (q, .staged id) →
    id < s.nextId
  single : ∀ r, s.Unstarted r → s.staging (.single r) = none

theorem coherent_init : Coherent ({} : State H) := by
  constructor <;> intros <;> simp_all [State.handle]

section Goto
variable {s : State H} {r : Nat} {q : Request D} {pc : Progress H}

theorem requests_goto (h : s.requests[r]? = some (q, pc)) (pc' : Progress H) (r' : Nat) :
    (s.goto r q pc').requests[r']? = if r' = r then some (q, pc') else s.requests[r']? :=
  Pool.get_set h _ r'

theorem handle_of (h : s.requests[r]? = some (q, pc)) :
    s.handle r = pc.upload.map fun u => (q.path r, u) := by simp [State.handle, h]

theorem handle_goto (h : s.requests[r]? = some (q, pc)) (pc' : Progress H) (r' : Nat) :
    (s.goto r q pc').handle r' =
      if r' = r then pc'.upload.map fun u => (q.path r, u) else s.handle r' := by
  rw [State.handle, requests_goto h]
  split
  · rename_i hr
    rw [hr]
    rfl
  · rfl

theorem unstarted_goto (h : s.requests[r]? = some (q, pc)) {pc' : Progress H}
    (moved : pc'.isStart = false) {r' : Nat} (hr : (s.goto r q pc').Unstarted r') :
    r' ≠ r ∧ s.Unstarted r' := by
  unfold State.Unstarted at hr ⊢
  rw [requests_goto h] at hr
  split at hr
  · rw [hr _ rfl] at moved
    cases moved
  · rename_i hne
    exact ⟨hne, hr⟩

/-- What a store keeps when requests close files or keep what they have open,
and paths and records only go away. -/
theorem Coherent.shrink {t : State H} (inv : Coherent s) (files : t.files = s.files)
    (blobs : t.blobs = s.blobs) (nextInode : t.nextInode = s.nextInode)
    (nextId : t.nextId = s.nextId)
    (staging : ∀ p i, t.staging p = some i → s.staging p = some i)
    (sessions : ∀ id session, t.sessions id = some session → s.sessions id = some session)
    (handles : ∀ r p u, t.handle r = some (p, u) → ∃ v, s.handle r = some (p, v) ∧
      u.inode = v.inode ∧ u.offset = v.offset ∧ u.hasher.absorbed = v.hasher.absorbed)
    (minted : ∀ (r : Nat) (q : Request D) (id : Nat), t.requests[r]? = some (q, .staged id) →
      id < s.nextId)
    (started : ∀ r, t.Unstarted r → s.Unstarted r) : Coherent t where
  written r p u h := by
    obtain ⟨v, hv, hi, ho, ha⟩ := handles r p u h
    rw [files, hi, ho, ha]
    exact inv.written r p v hv
  alone r r' p p' u u' h h' hu := by
    obtain ⟨v, hv, hi, -⟩ := handles r p u h
    obtain ⟨v', hv', hi', -⟩ := handles r' p' u' h'
    exact inv.alone r r' p p' v v' hv hv' (by rw [← hi, ← hi', hu])
  staged r p u h := by
    obtain ⟨v, hv, hi, -⟩ := handles r p u h
    rw [hi]
    exact (inv.staged r p v hv).imp (fun k p' hp => k p' (staging _ _ hp))
      (fun k i hp => k i (staging _ _ hp))
  paths p p' i h h' := inv.paths p p' i (staging _ _ h) (staging _ _ h')
  recorded id session i h h' := by
    rw [files]
    exact inv.recorded id session i (sessions _ _ h) (staging _ _ h')
  stored d i h := by
    rw [files]
    exact inv.stored d i (blobs ▸ h)
  unstaged d i h p hp := inv.unstaged d i (blobs ▸ h) p (staging _ _ hp)
  closed d i h r p u hu := by
    obtain ⟨v, hv, hi, -⟩ := handles r p u hu
    rw [hi]
    exact inv.closed d i (blobs ▸ h) r p v hv
  stagedInode p i h := nextInode ▸ inv.stagedInode p i (staging _ _ h)
  storedInode d i h := nextInode ▸ inv.storedInode d i (blobs ▸ h)
  openInode r p u h := by
    obtain ⟨v, hv, hi, -⟩ := handles r p u h
    rw [hi, nextInode]
    exact inv.openInode r p v hv
  stagedId id i h := nextId ▸ inv.stagedId id i (staging _ _ h)
  openId r id u h := by
    obtain ⟨v, hv, -⟩ := handles r _ u h
    exact nextId ▸ inv.openId r id v hv
  recordedId id session h := nextId ▸ inv.recordedId id session (sessions _ _ h)
  mintedId r q id h := nextId ▸ minted r q id h
  single r h := by
    cases hs : t.staging (.single r) with
    | none => rfl
    | some i =>
      have := inv.single r (started r h)
      rw [staging _ _ hs] at this
      cases this

/-- A request moves on, keeping the file it has open or closing it. -/
theorem Coherent.goto (inv : Coherent s) (h : s.requests[r]? = some (q, pc)) (pc' : Progress H)
    (moved : pc'.isStart = false)
    (kept : ∀ u, pc'.upload = some u → ∃ v, pc.upload = some v ∧
      u.inode = v.inode ∧ u.offset = v.offset ∧ u.hasher.absorbed = v.hasher.absorbed)
    (minted : ∀ id, pc' = .staged id → id < s.nextId) : Coherent (s.goto r q pc') := by
  refine inv.shrink rfl rfl rfl rfl (fun _ _ h => h) (fun _ _ h => h) ?_ ?_
    (fun r' hr => (unstarted_goto h moved hr).2)
  · intro r' p u hu
    rw [handle_goto h] at hu
    split at hu
    · rename_i hr
      obtain ⟨w, hw, heq⟩ := Option.map_eq_some_iff.mp hu
      cases heq
      obtain ⟨v, hv, same⟩ := kept u hw
      exact ⟨v, by rw [hr, handle_of h, hv]; rfl, same⟩
    · exact ⟨u, hu, rfl, rfl, rfl⟩
  · intro r' q' id h'
    rw [requests_goto h] at h'
    split at h'
    · obtain ⟨-, rfl⟩ := Prod.mk.inj (Option.some.inj h')
      exact minted id rfl
    · exact inv.mintedId r' q' id h'

/-- A request ends, or goes where it has no file open. -/
theorem Coherent.close (inv : Coherent s) (h : s.requests[r]? = some (q, pc)) (pc' : Progress H)
    (moved : pc'.isStart = false) (none : pc'.upload = none)
    (minted : ∀ id, pc' = .staged id → id < s.nextId) : Coherent (s.goto r q pc') := by
  refine inv.goto h pc' moved ?_ minted
  intro u hu
  rw [none] at hu
  cases hu

/-- A request opens the file at its path, alone. -/
theorem Coherent.openFile (inv : Coherent s) (h : s.requests[r]? = some (q, pc)) {pc' : Progress H}
    {u : Upload} (upload : pc'.upload = some u)
    (written : s.files u.inode = u.hasher.absorbed ∧ u.offset = u.hasher.absorbed.length)
    (path : s.staging (q.path r) = some u.inode)
    (alone : ∀ r' p v, s.handle r' = some (p, v) → v.inode ≠ u.inode) :
    Coherent (s.goto r q pc') := by
  have moved : pc'.isStart = false := by cases pc' <;> first | rfl | cases upload
  have handle (r' : Nat) : (s.goto r q pc').handle r' =
      if r' = r then some (q.path r, u) else s.handle r' := by rw [handle_goto h, upload]; rfl
  constructor
  case written =>
    intro r' p v hv
    rw [handle] at hv
    split at hv
    · cases hv
      exact written
    · exact inv.written r' p v hv
  case alone =>
    intro r₁ r₂ p₁ p₂ v₁ v₂ h₁ h₂ hi
    rw [handle] at h₁ h₂
    split at h₁ <;> split at h₂
    · rename_i e₁ e₂
      rw [e₁, e₂]
    · cases h₁
      exact absurd hi.symm (alone _ _ _ h₂)
    · cases h₂
      exact absurd hi (alone _ _ _ h₁)
    · exact inv.alone _ _ _ _ _ _ h₁ h₂ hi
  case staged =>
    intro r' p v hv
    rw [handle] at hv
    split at hv
    · cases hv
      exact ⟨fun p' hp => inv.paths _ _ _ hp path, fun i hi => Option.some.inj (hi.symm.trans path)⟩
    · exact inv.staged r' p v hv
  case closed =>
    intro d i hd r' p v hv
    rw [handle] at hv
    split at hv
    · cases hv
      rintro rfl
      exact inv.unstaged d _ hd _ path
    · exact inv.closed d i hd r' p v hv
  case openInode =>
    intro r' p v hv
    rw [handle] at hv
    split at hv
    · cases hv
      exact inv.stagedInode _ _ path
    · exact inv.openInode r' p v hv
  case openId =>
    intro r' id v hv
    rw [handle] at hv
    split at hv
    · obtain ⟨hpath, -⟩ := Prod.mk.inj (Option.some.inj hv)
      exact inv.stagedId id _ (hpath ▸ path)
    · exact inv.openId r' id v hv
  case mintedId =>
    intro r' q' id h'
    rw [requests_goto h] at h'
    split at h'
    · obtain ⟨-, rfl⟩ := Prod.mk.inj (Option.some.inj h')
      cases upload
    · exact inv.mintedId r' q' id h'
  case single => exact fun r' hr => inv.single r' (unstarted_goto h moved hr).2
  case paths => exact inv.paths
  case recorded => exact inv.recorded
  case stored => exact inv.stored
  case unstaged => exact inv.unstaged
  case stagedInode => exact inv.stagedInode
  case storedInode => exact inv.storedInode
  case stagedId => exact inv.stagedId
  case recordedId => exact inv.recordedId

/-- A frame lands at the end of an open file, and the hasher follows it. -/
theorem Coherent.extend (inv : Coherent s) (h : s.requests[r]? = some (q, pc)) {u : Upload}
    (upload : pc.upload = some u) (chunk : Bytes) {pc' : Progress H}
    (upload' : pc'.upload = some { u with
      offset := u.offset + chunk.length
      hasher := u.hasher.update chunk }) :
    Coherent ((s.writeFile u.inode (writeAllAt (s.files u.inode) u.offset chunk)).goto r q pc') := by
  have moved : pc'.isStart = false := by cases pc' <;> first | rfl | cases upload'
  have mine : s.handle r = some (q.path r, u) := by rw [handle_of h, upload]; rfl
  obtain ⟨content, length⟩ := inv.written r _ u mine
  have handle (r' : Nat) : (s.goto r q pc').handle r' = if r' = r then some (q.path r, { u with
      offset := u.offset + chunk.length
      hasher := u.hasher.update chunk }) else s.handle r' := by rw [handle_goto h, upload']; rfl
  have appended : writeAllAt (s.files u.inode) u.offset chunk = s.files u.inode ++ chunk := by
    simp [writeAllAt, length, content]
  have same {r' : Nat} {p : StagingPath} {v : Upload} (hv : (s.goto r q pc').handle r' = some (p, v)) :
      ∃ w, s.handle r' = some (p, w) ∧ v.inode = w.inode := by
    rw [handle] at hv
    split at hv
    · rename_i hr
      cases hv
      exact ⟨u, hr ▸ mine, rfl⟩
    · exact ⟨v, hv, rfl⟩
  rw [appended]
  constructor
  case written =>
    intro r' p v hv
    rw [show ((s.writeFile u.inode (s.files u.inode ++ chunk)).goto r q pc').handle r' =
      (s.goto r q pc').handle r' from rfl, handle] at hv
    split at hv
    · cases hv
      simp [State.goto, State.writeFile, Hasher.update, content, length]
    · rename_i hr
      have other : v.inode ≠ u.inode := fun hi => hr (inv.alone _ _ _ _ _ _ hv mine hi)
      simpa [State.goto, State.writeFile, other] using inv.written r' p v hv
  case alone =>
    intro r₁ r₂ p₁ p₂ v₁ v₂ h₁ h₂ hi
    obtain ⟨w₁, hw₁, e₁⟩ := same h₁
    obtain ⟨w₂, hw₂, e₂⟩ := same h₂
    exact inv.alone _ _ _ _ _ _ hw₁ hw₂ (by rw [← e₁, ← e₂, hi])
  case staged =>
    intro r' p v hv
    obtain ⟨w, hw, e⟩ := same hv
    rw [e]
    exact inv.staged r' p w hw
  case recorded =>
    intro id session i hs hp
    refine (inv.recorded id session i hs hp).imp_left fun hpre => ?_
    by_cases hi : i = u.inode
    · subst hi
      simpa [State.goto, State.writeFile] using hpre.trans (List.prefix_append _ _)
    · simpa [State.goto, State.writeFile, hi] using hpre
  case stored =>
    intro d i hd
    have other : i ≠ u.inode := (inv.closed d i hd r _ u mine).symm
    simpa [State.goto, State.writeFile, other] using inv.stored d i hd
  case closed =>
    intro d i hd r' p v hv
    obtain ⟨w, hw, e⟩ := same hv
    rw [e]
    exact inv.closed d i hd r' p w hw
  case openInode =>
    intro r' p v hv
    obtain ⟨w, hw, e⟩ := same hv
    rw [e]
    exact inv.openInode r' p w hw
  case openId =>
    intro r' id v hv
    obtain ⟨w, hw, -⟩ := same hv
    exact inv.openId r' id w hw
  case mintedId =>
    intro r' q' id h'
    rw [show ((s.writeFile u.inode (s.files u.inode ++ chunk)).goto r q pc').requests[r']? =
      (s.goto r q pc').requests[r']? from rfl, requests_goto h] at h'
    split at h'
    · obtain ⟨-, rfl⟩ := Prod.mk.inj (Option.some.inj h')
      cases upload'
    · exact inv.mintedId r' q' id h'
  case single => exact fun r' hr => inv.single r' (unstarted_goto h moved hr).2
  case paths => exact inv.paths
  case unstaged => exact inv.unstaged
  case stagedInode => exact inv.stagedInode
  case storedInode => exact inv.storedInode
  case stagedId => exact inv.stagedId
  case recordedId => exact inv.recordedId

end Goto

section Disk
variable {s : State H}

/-- A staging file that nobody has open is cut back to what its session records. -/
theorem Coherent.truncate (inv : Coherent s) {id inode : Nat} {session : Session}
    (record : s.sessions id = some session) (path : s.staging (.session id) = some inode)
    (unused : ∀ r p u, s.handle r = some (p, u) → u.inode ≠ inode) :
    Coherent (s.writeFile inode ((s.files inode).take session.offset)) := by
  have other {i : Nat} (hi : i ≠ inode) :
      (s.writeFile inode ((s.files inode).take session.offset)).files i = s.files i := by
    simp [State.writeFile, hi]
  refine { inv with written := ?_, recorded := ?_, stored := ?_ }
  · intro r p u hu
    rw [other (unused r p u hu)]
    exact inv.written r p u hu
  · intro id' session' i hs hp
    by_cases hi : i = inode
    · subst hi
      cases inv.paths _ _ _ hp path
      cases hs.symm.trans record
      obtain ⟨hpre, hlen⟩ := inv.recorded id _ i record path
      refine ⟨?_, hlen⟩
      rw [show (s.writeFile i ((s.files i).take session.offset)).files i =
        (s.files i).take session.offset by simp [State.writeFile], hlen]
      exact (List.prefix_iff_eq_take.mp hpre) ▸ List.prefix_refl _
    · rw [other hi]
      exact inv.recorded id' session' i hs hp
  · intro d i hd
    have hne : i ≠ inode := by
      rintro rfl
      exact inv.unstaged d i hd _ path
    rw [other hne]
    exact inv.stored d i hd

/-- A new file at a path that nothing has used yet. -/
theorem Coherent.createFile (inv : Coherent s) (path : StagingPath) {n : Nat}
    (le : s.nextId ≤ n) (unopened : ∀ r u, s.handle r ≠ some (path, u))
    (unlisted : ∀ id, path = .session id → s.sessions id = none ∧ id < n)
    (single : ∀ r, path = .single r → ¬ s.Unstarted r) :
    Coherent { s.createFile path with nextId := n } := by
  have old {i : Nat} (hi : i < s.nextInode) :
      Function.update s.files s.nextInode [] i = s.files i := by
    rw [Function.update_of_ne hi.ne]
  have at_ {p : StagingPath} {i : Nat}
      (h : Function.update s.staging path (some s.nextInode) p = some i) :
      p = path ∧ i = s.nextInode ∨ p ≠ path ∧ s.staging p = some i := by
    by_cases hp : p = path
    · subst hp
      rw [Function.update_self] at h
      exact Or.inl ⟨rfl, (Option.some.inj h).symm⟩
    · rw [Function.update_of_ne hp] at h
      exact Or.inr ⟨hp, h⟩
  constructor
  case written =>
    intro r p u hu
    rw [show (State.createFile s path).files u.inode = s.files u.inode from
      old (inv.openInode r p u hu)]
    exact inv.written r p u hu
  case alone => exact inv.alone
  case staged =>
    intro r p u hu
    constructor
    · intro p' hp'
      rcases at_ hp' with ⟨-, hi⟩ | ⟨-, hp'⟩
      · exact absurd hi (inv.openInode r p u hu).ne
      · exact (inv.staged r p u hu).1 p' hp'
    · intro i hi
      rcases at_ hi with ⟨rfl, -⟩ | ⟨-, hi⟩
      · exact absurd hu (unopened r u)
      · exact (inv.staged r p u hu).2 i hi
  case paths =>
    intro p p' i h h'
    rcases at_ h with ⟨hp, hi⟩ | ⟨-, old⟩ <;> rcases at_ h' with ⟨hp', hi'⟩ | ⟨-, old'⟩
    · rw [hp, hp']
    · exact absurd hi (inv.stagedInode _ _ old').ne
    · exact absurd hi' (inv.stagedInode _ _ old).ne
    · exact inv.paths p p' i old old'
  case recorded =>
    intro id session i hs hp
    rcases at_ hp with ⟨hpath, -⟩ | ⟨-, hp⟩
    · cases (unlisted id hpath.symm).1.symm.trans hs
    · rw [show (State.createFile s path).files i = s.files i from old (inv.stagedInode _ _ hp)]
      exact inv.recorded id session i hs hp
  case stored =>
    intro d i hd
    rw [show (State.createFile s path).files i = s.files i from old (inv.storedInode d i hd)]
    exact inv.stored d i hd
  case unstaged =>
    intro d i hd p hp
    rcases at_ hp with ⟨-, hi⟩ | ⟨-, hp⟩
    · exact absurd hi (inv.storedInode d i hd).ne
    · exact inv.unstaged d i hd p hp
  case closed => exact inv.closed
  case stagedInode =>
    intro p i hp
    rcases at_ hp with ⟨-, rfl⟩ | ⟨-, hp⟩
    · exact Nat.lt_succ_self _
    · exact Nat.lt_succ_of_lt (inv.stagedInode p i hp)
  case storedInode => exact fun d i hd => Nat.lt_succ_of_lt (inv.storedInode d i hd)
  case openInode => exact fun r p u hu => Nat.lt_succ_of_lt (inv.openInode r p u hu)
  case stagedId =>
    intro id i hp
    rcases at_ hp with ⟨hpath, -⟩ | ⟨-, hp⟩
    · exact (unlisted id hpath.symm).2
    · exact (inv.stagedId id i hp).trans_le le
  case openId => exact fun r id u hu => (inv.openId r id u hu).trans_le le
  case recordedId => exact fun id session hs => (inv.recordedId id session hs).trans_le le
  case mintedId => exact fun r q id h => (inv.mintedId r q id h).trans_le le
  case single =>
    intro r hr
    have hne : StagingPath.single r ≠ path := fun h => single r h.symm hr
    rw [show (State.createFile s path).staging (.single r) = s.staging (.single r) from
      Function.update_of_ne hne _ _]
    exact inv.single r hr

theorem Coherent.removeFile (inv : Coherent s) (path : StagingPath) :
    Coherent (s.removeFile path) := by
  refine inv.shrink rfl rfl rfl rfl ?_ (fun _ _ h => h) (fun r p u h => ⟨u, h, rfl, rfl, rfl⟩)
    inv.mintedId (fun _ h => h)
  intro p i h
  by_cases hp : p = path
  · subst hp
    simp [State.removeFile] at h
  · simpa [State.removeFile, hp] using h

theorem Coherent.dropSession (inv : Coherent s) (id : Nat) : Coherent (s.putSession id none) := by
  refine inv.shrink rfl rfl rfl rfl (fun _ _ h => h) ?_ (fun r p u h => ⟨u, h, rfl, rfl, rfl⟩)
    inv.mintedId (fun _ h => h)
  intro id' session h
  by_cases hid : id' = id
  · subst hid
    simp [State.putSession] at h
  · simpa [State.putSession, hid] using h

/-- A session record that agrees with its staging file is saved. -/
theorem Coherent.saveSession (inv : Coherent s) {id : Nat} {session : Session}
    (minted : id < s.nextId)
    (agrees : ∀ i, s.staging (.session id) = some i →
      session.absorbed <+: s.files i ∧ session.offset = session.absorbed.length) :
    Coherent (s.putSession id (some session)) := by
  refine { inv with recorded := ?_, recordedId := ?_ }
  · intro id' session' i hs hp
    by_cases hid : id' = id
    · subst hid
      obtain rfl : session = session' := by simpa [State.putSession] using hs
      exact agrees i hp
    · exact inv.recorded id' session' i (by simpa [State.putSession, hid] using hs) hp
  · intro id' session' hs
    by_cases hid : id' = id
    · exact hid ▸ minted
    · exact inv.recordedId id' session' (by simpa [State.putSession, hid] using hs)

/-- A sealed file that nobody else has open takes its place as a blob. -/
theorem Coherent.renameFile (inv : Coherent s) {path : StagingPath} {digest : D}
    [DecidableEq D] {t : State H} (rename : s.renameFile path digest = some t) {inode : Nat}
    (at_ : ∀ i, s.staging path = some i → i = inode)
    (content : H.hash (H.algorithmOf digest) (s.files inode) = digest)
    (closed : ∀ r p u, s.handle r = some (p, u) → u.inode ≠ inode) : Coherent t := by
  obtain ⟨i, hpath, rfl⟩ := Option.map_eq_some_iff.mp rename
  obtain rfl := at_ i hpath
  have removed := inv.removeFile path
  have new {d : D} {j : Nat} (h : Function.update s.blobs digest (some i) d = some j) :
      d = digest ∧ j = i ∨ s.blobs d = some j := by
    by_cases hd : d = digest
    · subst hd
      rw [Function.update_self] at h
      exact Or.inl ⟨rfl, (Option.some.inj h).symm⟩
    · rw [Function.update_of_ne hd] at h
      exact Or.inr h
  refine { removed with stored := ?_, unstaged := ?_, closed := ?_, storedInode := ?_ }
  · intro d j hd
    rcases new hd with ⟨rfl, rfl⟩ | hd
    · exact content
    · exact inv.stored d j hd
  · intro d j hd p hp
    rcases new hd with ⟨rfl, rfl⟩ | hd
    · have hne : p ≠ path := by
        rintro rfl
        simp [State.removeFile] at hp
      rw [show (s.removeFile path).staging p = s.staging p from Function.update_of_ne hne _ _] at hp
      exact hne (inv.paths p path j hp hpath)
    · exact removed.unstaged d j hd p hp
  · intro d j hd r p u hu
    rcases new hd with ⟨rfl, rfl⟩ | hd
    · exact closed r p u hu
    · exact inv.closed d j hd r p u hu
  · intro d j hd
    rcases new hd with ⟨rfl, rfl⟩ | hd
    · exact inv.stagedInode path j hpath
    · exact inv.storedInode d j hd

end Disk

/-! ## What each step keeps -/

/-- The session a request is about to open the staging file of, as it read it. -/
def resuming : Request D → Progress H → Option (Nat × Session)
  | .appendUpload _ id _, .looked session | .finishUpload _ id _ _, .looked session =>
    some (id, session)
  | _, _ => none

/-- A request opens a staging file only while the session record is the one it
read and no other request has the file open. -/
def Exclusive (s : State H) : Action D → Prop
  | .advance r => ∀ q ∈ s.requests[r]?, ∀ x ∈ resuming q.1 q.2,
      s.sessions x.1 = some x.2 ∧ ∀ i ∈ s.staging (.session x.1), s.inUse i = false
  | _ => True

instance (s : State H) : ∀ a, Decidable (Exclusive s a)
  | .advance r => inferInstanceAs (Decidable (∀ q ∈ s.requests[r]?, ∀ x ∈ resuming q.1 q.2, _))
  | .arrive _ | .frame .. | .shortWrite .. | .abandon _ => isTrue trivial

section Steps
variable {s t : State H} {r : Nat}

theorem ne_of_inUse {i : Nat} (h : s.inUse i = false) (r : Nat) (p : StagingPath) (u : Upload)
    (hu : s.handle r = some (p, u)) : u.inode ≠ i := by
  rintro rfl
  obtain ⟨q, hq, hmap⟩ := Option.bind_eq_some_iff.mp hu
  obtain ⟨v, hv, heq⟩ := Option.map_eq_some_iff.mp hmap
  obtain rfl : v = u := congrArg Prod.snd heq
  have used : s.inUse v.inode = true := by
    rw [State.inUse, List.any_eq_true]
    exact ⟨q, List.mem_of_getElem? hq, by simp [hv]⟩
  rw [h] at used
  cases used

theorem path_single {p : Nat} {u : Upload} (h : s.handle r = some (.single p, u)) : r = p := by
  obtain ⟨⟨q, pc⟩, -, hmap⟩ := Option.bind_eq_some_iff.mp h
  obtain ⟨v, -, heq⟩ := Option.map_eq_some_iff.mp hmap
  have path : q.path r = .single p := congrArg Prod.fst heq
  cases q <;> simp_all [Request.path]

theorem Coherent.look (inv : Coherent s) {q : Request D} (h : s.requests[r]? = some (q, .start))
    (repo : RepoId) (id expectedOffset : Nat) : Coherent (s.look r q repo id expectedOffset) := by
  unfold State.look
  split
  · split
    · exact inv.close h _ rfl rfl (by simp)
    · exact inv.close h _ rfl rfl (by simp)
  · exact inv.close h _ rfl rfl (by simp)

theorem coherent_arrive (inv : Coherent s) (q : Request D) :
    Coherent { s with requests := s.requests ++ [(q, .start)] } := by
  have old {r : Nat} {x : Request D × Progress H} (h : (s.requests ++ [(q, .start)])[r]? = some x) :
      s.requests[r]? = some x ∨ x = (q, .start) := by
    rw [List.getElem?_append] at h
    split at h
    · exact Or.inl h
    · exact Or.inr (List.mem_singleton.mp (List.mem_of_getElem? h))
  refine inv.shrink rfl rfl rfl rfl (fun _ _ h => h) (fun _ _ h => h) ?_ ?_ ?_
  · intro r p u hu
    obtain ⟨x, hx, hmap⟩ := Option.bind_eq_some_iff.mp hu
    rcases old hx with hx | rfl
    · exact ⟨u, by rw [State.handle, hx]; exact hmap, rfl, rfl, rfl⟩
    · cases hmap
  · intro r q' id h
    rcases old h with h | h
    · exact inv.mintedId r q' id h
    · cases h
  · intro r unstarted x hx
    apply unstarted x
    rw [Option.mem_def, List.getElem?_append_left (List.getElem?_eq_some_iff.mp hx).1]
    exact hx

/-- Resuming under `Exclusive` leaves the file, the hasher and the offset in step. -/
theorem Coherent.resume (inv : Coherent s) {q : Request D} {pc pc' : Progress H}
    (h : s.requests[r]? = some (q, pc)) {id : Nat} (path : q.path r = .session id)
    {session : Session}
    (exclusive : s.sessions id = some session ∧
      ∀ i ∈ s.staging (.session id), s.inUse i = false)
    {u : Upload} (resumed : s.resumeUpload id session = some (t, u))
    (upload : pc'.upload = some u) : Coherent (t.goto r q pc') := by
  obtain ⟨record, unused⟩ := exclusive
  unfold State.resumeUpload at resumed
  split at resumed
  · rename_i hasher inode hhasher hstaging
    split at resumed
    · cases resumed
    · cases resumed
      have alone := ne_of_inUse (unused inode hstaging)
      obtain ⟨hpre, hlen⟩ := inv.recorded id session inode record hstaging
      have absorbed : hasher.absorbed = session.absorbed := by
        unfold State.resumeHasher at hhasher
        split at hhasher
        · rename_i state hstate
          rw [Hasher.restore] at hhasher
          split at hhasher
          · cases hhasher
            simp [Session.absorbed, hstate]
          · cases hhasher
        · rename_i hstate
          split at hhasher
          · cases hhasher
            simp [Session.absorbed, hstate, Hasher.new]
          · cases hhasher
      refine (inv.truncate record hstaging alone).openFile h upload ⟨?_, ?_⟩ ?_ alone
      · rw [absorbed, List.prefix_iff_eq_take.mp hpre, ← hlen]
        simp [State.writeFile]
      · rw [absorbed]
        exact hlen
      · rw [path]
        exact hstaging
  · cases resumed

variable [DecidableEq D]

theorem Coherent.sealUpload (inv : Coherent s) {q : Request D} {session : Option Session}
    {upload : Upload} (h : s.requests[r]? = some (q, .draining session upload)) (digest : D) :
    Coherent (s.sealUpload r q upload digest q.failure) := by
  unfold State.sealUpload
  split
  · exact inv.goto h _ rfl (fun u hu => ⟨u, hu, rfl, rfl, rfl⟩) (by simp)
  · exact inv.close h _ (by cases q <;> rfl) (by cases q <;> rfl) (by cases q <;> simp [Request.failure])

/-- The rename of a sealed upload. -/
theorem Coherent.commit (inv : Coherent s) {q : Request D} {upload : Upload} {digest : D}
    {verified : upload.hasher.finalize H = digest}
    (h : s.requests[r]? = some (q, .sealed upload digest verified))
    (rename : s.renameFile (q.path r) digest = some t) : Coherent (t.goto r q .renamed) := by
  have mine : s.handle r = some (q.path r, upload) := handle_of h
  obtain ⟨i, hi, rfl⟩ := Option.map_eq_some_iff.mp rename
  -- the request lets go of the file before its path becomes the blob's
  have closed := inv.close h .renamed rfl rfl (by simp)
  have renamed : (s.goto r q .renamed).renameFile (q.path r) digest = some _ :=
    Option.map_eq_some_iff.mpr ⟨i, hi, rfl⟩
  refine closed.renameFile renamed (inv.staged r _ upload mine).2 ?_ ?_
  · rw [show (s.goto r q .renamed).files upload.inode = upload.hasher.absorbed from
      (inv.written r _ upload mine).1]
    have algorithm : H.algorithmOf digest = upload.hasher.algorithm := by
      rw [← verified]
      exact H.of_hash _ _
    rw [algorithm]
    exact verified
  · intro r' p u hu hi
    rw [handle_goto h] at hu
    split at hu
    · cases hu
    · rename_i hr
      exact hr (inv.alone r' r p _ u upload hu mine hi)

theorem coherent_create (inv : Coherent s) {repo : RepoId} {algorithm : DigestAlgorithm}
    {pc : Progress H} (h : s.requests[r]? = some (.createUpload repo algorithm, pc))
    (adv : s.advance r (.createUpload repo algorithm) pc = some t) : Coherent t := by
  cases pc with
  | start =>
    cases adv
    have closed := inv.close h .done rfl rfl (by simp)
    have here : (s.goto r (.createUpload repo algorithm) .done).requests[r]? =
        some (.createUpload repo algorithm, .done) := by rw [requests_goto h, if_pos rfl]
    have created := closed.createFile (.session s.nextId) (Nat.le_succ s.nextId) ?_ ?_ (by simp)
    · have := created.close here (.staged s.nextId) rfl rfl (by
        rintro id ⟨⟩
        exact Nat.lt_succ_self _)
      simpa [State.goto, State.createFile] using this
    · intro r' u hu
      exact absurd (closed.openId r' _ u hu) (lt_irrefl _)
    · rintro id ⟨⟩
      refine ⟨?_, Nat.lt_succ_self _⟩
      cases hs : s.sessions s.nextId with
      | none => exact hs
      | some session => exact absurd (inv.recordedId _ session hs) (lt_irrefl _)
  | staged id =>
    cases adv
    refine (inv.saveSession (inv.mintedId r _ id h) ?_).close h _ rfl rfl (by simp)
    intro i _
    exact ⟨List.nil_prefix, rfl⟩
  | _ => cases adv

theorem coherent_append (inv : Coherent s) {repo : RepoId} {id expectedOffset : Nat}
    {pc : Progress H} (h : s.requests[r]? = some (.appendUpload repo id expectedOffset, pc))
    (exclusive : Exclusive s (.advance r))
    (adv : s.advance r (.appendUpload repo id expectedOffset) pc = some t) : Coherent t := by
  cases pc with
  | start =>
    cases adv
    exact inv.look h repo id expectedOffset
  | looked session =>
    simp only [State.advance] at adv
    split at adv
    · rename_i resumed
      cases adv
      exact inv.resume h rfl (exclusive _ h (id, session) rfl) resumed rfl
    · cases adv
      exact inv.close h _ rfl rfl (by simp)
  | draining session upload =>
    cases session with
    | none => cases adv
    | some session =>
      cases adv
      have mine : s.handle r = some (.session id, upload) := handle_of h
      refine (inv.saveSession (inv.openId r id upload mine) ?_).close h _ rfl rfl (by simp)
      intro i hi
      obtain rfl := (inv.staged r _ upload mine).2 i hi
      obtain ⟨content, length⟩ := inv.written r _ upload mine
      exact ⟨content ▸ List.prefix_refl _, length⟩
  | _ => cases adv

theorem coherent_finish (inv : Coherent s) {repo : RepoId} {id expectedOffset : Nat} {digest : D}
    {pc : Progress H} (h : s.requests[r]? = some (.finishUpload repo id expectedOffset digest, pc))
    (exclusive : Exclusive s (.advance r))
    (adv : s.advance r (.finishUpload repo id expectedOffset digest) pc = some t) :
    Coherent t := by
  cases pc with
  | start =>
    cases adv
    exact inv.look h repo id expectedOffset
  | looked session =>
    simp only [State.advance] at adv
    split at adv
    · rename_i resumed
      cases adv
      exact inv.resume h rfl (exclusive _ h (id, session) rfl) resumed rfl
    · cases adv
      exact inv.close h _ rfl rfl (by simp)
  | resumed session upload =>
    simp only [State.advance] at adv
    have mine : s.handle r = some (.session id, upload) := handle_of h
    obtain ⟨content, length⟩ := inv.written r _ upload mine
    split at adv
    · rename_i upload' rehashed
      cases adv
      refine inv.goto h _ rfl ?_ (by simp)
      rintro u ⟨⟩
      refine ⟨upload, rfl, ?_⟩
      unfold State.rehashAs at rehashed
      split at rehashed
      · cases rehashed
        exact ⟨rfl, rfl, rfl⟩
      · split at rehashed
        · cases rehashed
        · cases rehashed
          refine ⟨rfl, rfl, ?_⟩
          simp [Hasher.new, Hasher.update, content, length]
    · cases adv
      exact inv.close h _ rfl rfl (by simp)
  | draining session upload =>
    cases adv
    exact inv.sealUpload h digest
  | sealed upload digest' verified =>
    simp only [State.advance] at adv
    split at adv
    · rename_i renamed
      cases adv
      exact inv.commit h renamed
    · cases adv
      exact inv.close h _ rfl rfl (by simp)
  | renamed =>
    cases adv
    exact (inv.dropSession id).close h _ rfl rfl (by simp)
  | _ => cases adv

theorem coherent_put (inv : Coherent s) {digest : D} {pc : Progress H}
    (h : s.requests[r]? = some (.putBlob digest, pc))
    (adv : s.advance r (.putBlob digest) pc = some t) : Coherent t := by
  cases pc with
  | start =>
    cases adv
    have closed := inv.close h .done rfl rfl (by simp)
    have here : (s.goto r (.putBlob digest) .done).requests[r]? = some (.putBlob digest, .done) := by
      rw [requests_goto h, if_pos rfl]
    have created := closed.createFile (.single r) (le_refl s.nextId) ?_ (by simp) ?_
    · let upload : Upload := {
        inode := s.nextInode
        algorithm := H.algorithmOf digest
        offset := 0
        hasher := Hasher.new (H.algorithmOf digest) }
      have opens : (Progress.draining none upload : Progress H).upload = some upload := rfl
      have := created.openFile here opens
        ⟨by simp [upload, State.goto, State.createFile, Hasher.new], rfl⟩
        (by simp [upload, State.goto, State.createFile, Request.path])
        (fun r' p v hv => (closed.openInode r' p v hv).ne)
      simpa [State.goto, State.createFile] using this
    · intro r' u hu
      rw [handle_goto h] at hu
      split at hu
      · cases hu
      · rename_i hr
        exact hr (path_single hu)
    · rintro r' ⟨⟩ unstarted
      exact (unstarted_goto h rfl unstarted).1 rfl
  | draining session upload =>
    cases adv
    exact inv.sealUpload h digest
  | sealed upload digest' verified =>
    simp only [State.advance] at adv
    split at adv
    · rename_i renamed
      cases adv
      exact inv.commit h renamed
    · cases adv
      exact inv.close h _ rfl rfl (by simp)
  | renamed =>
    cases adv
    exact inv.close h _ rfl rfl (by simp)
  | failed =>
    cases adv
    exact (inv.removeFile _).close h _ rfl rfl (by simp)
  | _ => cases adv

theorem coherent_cancel (inv : Coherent s) {repo : RepoId} {id : Nat} {pc : Progress H}
    (h : s.requests[r]? = some (.cancelUpload repo id, pc))
    (adv : s.advance r (.cancelUpload repo id) pc = some t) : Coherent t := by
  cases pc with
  | start =>
    simp only [State.advance] at adv
    split at adv <;> cases adv <;> exact inv.close h _ rfl rfl (by simp)
  | looked session =>
    cases adv
    exact (inv.dropSession id).close h _ rfl rfl (by simp)
  | unlisted =>
    cases adv
    exact (inv.removeFile _).close h _ rfl rfl (by simp)
  | _ => cases adv

theorem coherent_step (inv : Coherent s) {a : Action D} (exclusive : Exclusive s a)
    (hs : step s a = some t) : Coherent t := by
  cases a with
  | arrive q =>
    cases hs
    exact coherent_arrive inv q
  | advance r =>
    obtain ⟨⟨q, pc⟩, h, adv⟩ := Option.bind_eq_some_iff.mp hs
    cases q with
    | createUpload repo algorithm => exact coherent_create inv h adv
    | appendUpload repo id expectedOffset => exact coherent_append inv h exclusive adv
    | finishUpload repo id expectedOffset digest => exact coherent_finish inv h exclusive adv
    | putBlob digest => exact coherent_put inv h adv
    | cancelUpload repo id => exact coherent_cancel inv h adv
  | frame r chunk =>
    simp only [step] at hs
    split at hs
    · rename_i h
      cases hs
      exact inv.extend h rfl chunk rfl
    · cases hs
  | shortWrite r chunk n =>
    simp only [step] at hs
    split at hs
    · rename_i q session upload h
      cases hs
      -- what landed is a shorter frame, and the request lets go of the file after it
      let pc' : Progress H := .draining session { upload with
        offset := upload.offset + (chunk.take n).length
        hasher := upload.hasher.update (chunk.take n) }
      have wrote := inv.extend h rfl (chunk.take n) (show pc'.upload = some _ from rfl)
      have here : (s.goto r q pc').requests[r]? = some (q, pc') := by
        rw [requests_goto h, if_pos rfl]
      have := wrote.close here q.failure (by cases q <;> rfl) (by cases q <;> rfl)
        (by cases q <;> simp [Request.failure])
      simpa [State.goto, State.writeFile] using this
    · cases hs
  | abandon r =>
    obtain ⟨⟨q, pc⟩, h, rfl⟩ := Option.map_eq_some_iff.mp hs
    exact inv.close h _ rfl rfl (by simp)

/-- No step takes a blob path away. -/
theorem blobs_step {a : Action D} (hs : step s a = some t) {d : D}
    (h : (s.blobs d).isSome = true) : (t.blobs d).isSome = true := by
  have renamed {path : StagingPath} {digest : D} {u : State H}
      (rename : s.renameFile path digest = some u) : (u.blobs d).isSome = true := by
    obtain ⟨i, -, rfl⟩ := Option.map_eq_some_iff.mp rename
    by_cases hd : d = digest
    · simp [hd]
    · simpa [hd, State.removeFile] using h
  have resumed {id : Nat} {session : Session} {u : State H} {upload : Upload}
      (resume : s.resumeUpload id session = some (u, upload)) : u.blobs = s.blobs := by
    unfold State.resumeUpload at resume
    split at resume
    · split at resume <;> cases resume
      rfl
    · cases resume
  have looked (r : Nat) (q : Request D) (repo : RepoId) (id offset : Nat) :
      (s.look r q repo id offset).blobs = s.blobs := by
    unfold State.look
    split
    · split <;> rfl
    · rfl
  have sealed (r : Nat) (q : Request D) (upload : Upload) (digest : D) :
      (s.sealUpload r q upload digest q.failure).blobs = s.blobs := by
    unfold State.sealUpload
    split <;> rfl
  cases a with
  | arrive q => cases hs; exact h
  | frame r chunk | shortWrite r chunk n =>
    simp only [step] at hs
    split at hs <;> cases hs
    exact h
  | abandon r =>
    obtain ⟨q, -, rfl⟩ := Option.map_eq_some_iff.mp hs
    exact h
  | advance r =>
    obtain ⟨⟨q, pc⟩, -, adv⟩ := Option.bind_eq_some_iff.mp hs
    replace adv : s.advance r q pc = some t := adv
    unfold State.advance at adv
    split at adv
    -- most steps leave the blob paths alone; the others are one of the four above
    all_goals first
      | (cases adv <;> exact h)
      | (cases adv; rwa [looked])
      | (cases adv; rwa [sealed])
      | (split at adv
         · rename_i known
           cases adv
           first
             | exact h
             | (have kept := renamed known; exact kept)
             | (have kept := resumed known; exact kept.symm ▸ h)
         · cases adv
           exact h)

end Steps

/-- In a run in which a staging file is opened only under the session that was
read and by nobody else at the same time, a blob's content hashes to its digest
and never changes. -/
theorem blobs_immutable [DecidableEq D] {before after : List (Action D)}
    (exclusive : Transition.Meets step Exclusive ({} : State H) (before ++ after))
    {s t : State H} (run : Transition.exec step {} before = some s)
    (rest : Transition.exec step s after = some t) {d : D} {content : Bytes}
    (here : s.blobContent d = some content) :
    H.hash (H.algorithmOf d) content = d ∧ t.blobContent d = some content := by
  have coherent {actions : List (Action D)} {u : State H} (h : actions <+: before ++ after)
      (run : Transition.exec step {} actions = some u) : Coherent u := by
    refine Transition.exec_invariant ?_ coherent_init (Transition.meets_prefix h exclusive) run
    exact fun _ _ _ inv ok hs => coherent_step inv ok hs
  have first := coherent (List.prefix_append _ _) run
  have last : Coherent t := by
    apply coherent (List.prefix_refl _)
    rw [Transition.exec_append, run]
    exact rest
  have kept : ∀ d, (s.blobs d).isSome = true → (t.blobs d).isSome = true := by
    refine Transition.exec_preorder (I := fun _ => True)
      (R := fun s t : State H => ∀ d, (s.blobs d).isSome = true → (t.blobs d).isSome = true)
      (fun _ _ h => h) (fun _ _ _ h k d hd => k d (h d hd)) (fun _ _ _ _ _ _ => trivial) ?_
      trivial (Transition.meets_true _ _) rest
    exact fun _ _ _ _ _ hs _ hd => blobs_step hs hd
  obtain ⟨i, hi, rfl⟩ := Option.map_eq_some_iff.mp here
  obtain ⟨j, hj⟩ := Option.isSome_iff_exists.mp (kept d (by rw [hi]; rfl))
  have same : t.files j = s.files i :=
    H.injective _ ((last.stored d j hj).trans (first.stored d i hi).symm)
  exact ⟨first.stored d i hi, by rw [State.blobContent, hj, Option.map_some, same]⟩

/-- A hash that collides nowhere: the content itself. -/
def contentHash : Hashing (DigestAlgorithm × Bytes) where
  hash a content := (a, content)
  algorithmOf := Prod.fst
  of_hash _ _ := rfl
  injective _ _ _ h := congrArg Prod.snd h

/-- One session: created, appended to, finished. -/
def onePush : List (Action (DigestAlgorithm × Bytes)) :=
  [.arrive (.createUpload 0 .sha256), .advance 0, .advance 0,
    .arrive (.appendUpload 0 0 0), .advance 1, .advance 1, .frame 1 [1, 2], .advance 1,
    .arrive (.finishUpload 0 0 2 (.sha256, [1, 2, 3])), .advance 2, .advance 2, .advance 2,
    .frame 2 [3], .advance 2, .advance 2]

theorem blobs_immutable_onePush :
    ((Transition.exec step ({} : State contentHash) (onePush ++ [Action.advance 2])).bind
      fun t => t.blobContent (.sha256, [1, 2, 3])) = some [1, 2, 3] := by
  have exclusive : Transition.Meets step Exclusive ({} : State contentHash)
      (onePush ++ [Action.advance 2]) := by decide +kernel
  have committed : ((Transition.exec step ({} : State contentHash) onePush).bind
      fun s => s.blobContent (.sha256, [1, 2, 3])) = some [1, 2, 3] := by decide +kernel
  obtain ⟨s, run, here⟩ := Option.bind_eq_some_iff.mp committed
  have finished : (Transition.exec step ({} : State contentHash)
      (onePush ++ [Action.advance 2])).isSome = true := by decide +kernel
  obtain ⟨t, whole⟩ := Option.isSome_iff_exists.mp finished
  have rest := whole
  rw [Transition.exec_append, run] at rest
  rw [whole]
  exact (blobs_immutable exclusive run rest here).2

/-- Two requests read one session and both open its staging file. The first
seals what it wrote and renames it; the second then writes through the file it
still has open. -/
theorem blobs_change_under_second_writer :
    ¬ ∀ (before after : List (Action (DigestAlgorithm × Bytes))) (s t : State contentHash)
      (d : DigestAlgorithm × Bytes) (content : Bytes),
      Transition.exec step {} before = some s → Transition.exec step s after = some t →
      s.blobContent d = some content →
        contentHash.hash (contentHash.algorithmOf d) content = d ∧
          t.blobContent d = some content := by
  intro immutable
  let d : DigestAlgorithm × Bytes := (.sha256, [1, 2])
  let before : List (Action (DigestAlgorithm × Bytes)) :=
    [.arrive (.createUpload 0 .sha256), .advance 0, .advance 0,
      .arrive (.finishUpload 0 0 0 d), .arrive (.appendUpload 0 0 0),
      .advance 1, .advance 2, .advance 1, .advance 2, .advance 1, .frame 1 [1, 2], .advance 1,
      .advance 1]
  obtain ⟨committed, overwritten⟩ :
      ((Transition.exec step ({} : State contentHash) before).bind fun s => s.blobContent d) =
        some [1, 2] ∧
      ((Transition.exec step ({} : State contentHash) (before ++ [.frame 2 [7, 7]])).bind
        fun t => t.blobContent d) = some [7, 7] := by decide +kernel
  obtain ⟨s, run, here⟩ := Option.bind_eq_some_iff.mp committed
  obtain ⟨t, run', there⟩ := Option.bind_eq_some_iff.mp overwritten
  rw [Transition.exec_append, run] at run'
  have := (immutable before [.frame 2 [7, 7]] s t d [1, 2] run run' here).2
  rw [there] at this
  cases this

end Uploads

end Summ
