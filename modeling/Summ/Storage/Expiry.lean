import Mathlib.Data.List.Sort
import Summ.Purge.Uploads
import Summ.Storage.Immutable
import Summ.Storage.Moves

/-!
# Expiring idle upload sessions

A purge pass lists the sessions idle since its cutoff and then takes them one
by one, the record first and the staging file second. Neither it nor a request
waits for the other, and passes run beside each other. A request may read a
session before its record is deleted and save it afterwards; that save is the
one step which undoes the pass's judgement.
-/

namespace Summ

namespace Expiry

open Uploads
open Purge (PURGE_UPLOADS)

/-- A pass in its upload stage: what it still has to delete, and the session
whose record it has deleted and whose staging file it has not. -/
structure Pass where
  cutoff : Nat
  pending : List Nat
  unlinking : Option Nat := none
  deriving DecidableEq

structure Stage {D : Type} (H : Hashing D) where
  uploads : Uploads.State H := {}
  /-- `updated_at` of each session record, in seconds. -/
  updatedAt : Nat → Nat := fun _ => 0
  passes : List Pass := []

inductive Action (D : Type)
  /-- A request steps. A record it writes is stamped `now`. -/
  | request (action : Uploads.Action D) (now : Nat)
  /-- A pass begins: `expired_uploads`. -/
  | list (now uploadTtl : Nat)
  /-- `delete_upload` of the next session of the list. -/
  | deleteUpload (p : Nat)
  /-- `cancel_upload` of its staging file. -/
  | cancelUpload (p : Nat)
  /-- A pass ends where it is, and what it was removing is removed by then: its
  request is dropped, or the process stops. -/
  | abandon (p : Nat)

variable {D : Type} [DecidableEq D] {H : Hashing D} (uuid : Nat → List.Vector Byte 16)

namespace Stage

/-- Session keys in the order of the scan. -/
def scanUploads (s : Stage H) : List Nat :=
  ((List.range s.uploads.nextId).filter fun id => (s.uploads.sessions id).isSome).insertionSort
    fun id id' => (uuid id).toList ≤ (uuid id').toList

/-- `expired_uploads`. -/
def expiredUploads (s : Stage H) (idleBefore limit : Nat) : List Nat :=
  ((s.scanUploads uuid).take limit).filter fun id => decide (s.updatedAt id ≤ idleBefore)

/-- The session whose record an action writes. -/
def writes (s : Stage H) : Uploads.Action D → Option Nat
  | .advance r => s.uploads.requests[r]?.bind fun q => writing q.1 q.2
  | _ => none

def stamp (s : Stage H) (action : Uploads.Action D) (now : Nat) : Nat → Nat :=
  match s.writes action with
  | some id => Function.update s.updatedAt id now
  | none => s.updatedAt

/-- The session whose record a pass deletes next. -/
def deleting (s : Stage H) (p : Nat) : Option (Pass × Nat) :=
  s.passes[p]?.bind fun pass =>
    match pass.unlinking, pass.pending with
    | none, id :: _ => some (pass, id)
    | _, _ => none

end Stage

def step (s : Stage H) : Action D → Option (Stage H)
  | .request action now =>
    (Uploads.step s.uploads action).map fun uploads =>
      { s with uploads, updatedAt := s.stamp action now }
  | .list now uploadTtl =>
    let cutoff := now - uploadTtl
    some { s with
      passes := s.passes ++ [{ cutoff, pending := s.expiredUploads uuid cutoff PURGE_UPLOADS }] }
  | .deleteUpload p =>
    (s.deleting p).map fun (pass, id) =>
      { s with
        uploads := s.uploads.putSession id none
        passes := s.passes.set p { pass with pending := pass.pending.tail, unlinking := some id } }
  | .cancelUpload p =>
    s.passes[p]?.bind fun pass =>
      pass.unlinking.map fun id =>
        { s with
          uploads := s.uploads.removeFile (.session id)
          passes := s.passes.set p { pass with unlinking := none } }
  | .abandon p =>
    s.passes[p]?.map fun pass =>
      { s with passes := s.passes.set p { pass with pending := [], unlinking := none } }

/-- An append saves its session while the record is there and no pass that
has listed the session would find it touched since. A finish is not dropped once
its rename is under way: the rename lands before the drop does. -/
def Heeds (s : Stage H) : Action D → Prop
  | .request (.advance r) now => ∀ q ∈ s.uploads.requests[r]?, ∀ id ∈ saving q.1 q.2,
      (s.uploads.sessions id).isSome ∧ ∀ pass ∈ s.passes, id ∈ pass.pending → now ≤ pass.cutoff
  | .request (.abandon r) _ => ∀ q ∈ s.uploads.requests[r]?, committing q.1 q.2 = none
  | _ => True

instance (s : Stage H) : ∀ a, Decidable (Heeds s a)
  | .request (.advance r) _ => inferInstanceAs (Decidable
      (∀ q ∈ s.uploads.requests[r]?, ∀ id ∈ saving q.1 q.2, _ ∧ _))
  | .request (.abandon r) _ => inferInstanceAs (Decidable (∀ q ∈ s.uploads.requests[r]?, _))
  | .request (.arrive _) _ | .request (.frame ..) _ | .request (.shortWrite ..) _ | .list .. |
    .deleteUpload _ | .cancelUpload _ | .abandon _ => isTrue trivial

/-- No pass is about to delete a session touched since its cutoff. -/
def Spares (s : Stage H) : Prop :=
  ∀ p pass id, s.deleting p = some (pass, id) → (s.uploads.sessions id).isSome →
    s.updatedAt id ≤ pass.cutoff

/-- No request and no pass is under way. -/
def Quiet (s : Stage H) : Prop :=
  (∀ q ∈ s.uploads.requests, q.2.isDone = true) ∧ ∀ pass ∈ s.passes, pass.pending = [] ∧ pass.unlinking = none

instance (s : Stage H) : Decidable (Quiet s) :=
  inferInstanceAs (Decidable ((∀ q ∈ s.uploads.requests, _) ∧ ∀ pass ∈ s.passes, _))

/-- Each stored session has its staging file. -/
def Filed (s : Stage H) : Prop :=
  ∀ id, (s.uploads.sessions id).isSome → (s.uploads.staging (.session id)).isSome

/-- A store before its first request: no session without its staging file. -/
structure Settled (s : Stage H) : Prop where
  quiet : Quiet s
  filed : Filed s
  known : ∀ id, (s.uploads.sessions id).isSome → id < s.uploads.nextId

/-! ## What requests and passes know of sessions -/

namespace Stage

/-- A request has read the session. -/
def Watched (s : Stage H) (id : Nat) : Prop :=
  ∃ (r : Nat) (q : Request D) (pc : Progress H), s.uploads.requests[r]? = some (q, pc) ∧
    watching q pc = some id

/-- A request has renamed the session's staging file. -/
def Committing (s : Stage H) (id : Nat) : Prop :=
  ∃ (r : Nat) (q : Request D) (pc : Progress H), s.uploads.requests[r]? = some (q, pc) ∧
    committing q pc = some id

/-- A request has created the staging file and not the record. -/
def Minted (s : Stage H) (r id : Nat) : Prop :=
  ∃ q : Request D, s.uploads.requests[r]? = some (q, .staged id)

/-- The session is stored, a request has read it, or a pass has listed it. -/
def Known (s : Stage H) (id : Nat) : Prop :=
  (s.uploads.sessions id).isSome ∨ s.Watched id ∨
    ∃ pass ∈ s.passes, id ∈ pass.pending ∨ pass.unlinking = some id

end Stage

/-- What holds between records, staging files, requests and passes. -/
structure Tended (s : Stage H) : Prop where
  filed : ∀ id, (s.uploads.sessions id).isSome →
    (s.uploads.staging (.session id)).isSome ∨ s.Committing id
  cancelled : ∀ (r : Nat) (q : Request D) (id : Nat),
    s.uploads.requests[r]? = some (q, .unlisted) → q.session = some id →
      s.uploads.sessions id = none
  unlinked : ∀ pass ∈ s.passes, ∀ id, pass.unlinking = some id → s.uploads.sessions id = none
  idle : ∀ pass ∈ s.passes, ∀ id ∈ pass.pending, (s.uploads.sessions id).isSome →
    s.updatedAt id ≤ pass.cutoff
  minted : ∀ r id, s.Minted r id → id < s.uploads.nextId ∧ ¬ s.Known id ∧
    (s.uploads.staging (.session id)).isSome
  once : ∀ r r' id, s.Minted r id → s.Minted r' id → r = r'
  known : ∀ id, s.Known id → id < s.uploads.nextId

section Invariant
omit [DecidableEq D]
variable {s t : Stage H}

theorem watching_isDone {q : Request D} {pc : Progress H} (done : pc.isDone = true) :
    watching q pc = none ∧ committing q pc = none := by
  cases pc <;> cases done
  exact ⟨rfl, by cases q <;> rfl⟩

theorem Settled.tended (settled : Settled s) : Tended s where
  filed id h := Or.inl (settled.filed id h)
  cancelled r q id h _ := by cases settled.quiet.1 _ (List.mem_of_getElem? h)
  unlinked pass hp id h := by
    rw [(settled.quiet.2 pass hp).2] at h
    cases h
  idle pass hp id h _ := by
    rw [(settled.quiet.2 pass hp).1] at h
    cases h
  minted r id h := by
    obtain ⟨q, h⟩ := h
    cases settled.quiet.1 _ (List.mem_of_getElem? h)
  once r _ id h _ := by
    obtain ⟨q, h⟩ := h
    cases settled.quiet.1 _ (List.mem_of_getElem? h)
  known id h := by
    obtain stored | ⟨r, q, pc, h, watched⟩ | ⟨pass, hp, h | h⟩ := h
    · exact settled.known id stored
    · rw [(watching_isDone (settled.quiet.1 _ (List.mem_of_getElem? h))).1] at watched
      cases watched
    · rw [(settled.quiet.2 pass hp).1] at h
      cases h
    · rw [(settled.quiet.2 pass hp).2] at h
      cases h

theorem Tended.files (inv : Tended s) (quiet : Quiet s) : Filed s := by
  intro id stored
  obtain file | ⟨r, q, pc, h, committed⟩ := inv.filed id stored
  · exact file
  · rw [(watching_isDone (quiet.1 _ (List.mem_of_getElem? h))).2] at committed
    cases committed

theorem of_deleting {p : Nat} {pass : Pass} {id : Nat} (h : s.deleting p = some (pass, id)) :
    s.passes[p]? = some pass ∧ pass.unlinking = none ∧ ∃ rest, pass.pending = id :: rest := by
  obtain ⟨pass', hp, h⟩ := Option.bind_eq_some_iff.mp h
  split at h
  · rename_i unlinking pending
    cases h
    exact ⟨hp, unlinking, _, pending⟩
  · cases h

theorem Tended.spares (inv : Tended s) : Spares s := by
  intro p pass id h stored
  obtain ⟨hp, -, rest, pending⟩ := of_deleting h
  apply inv.idle pass (List.mem_of_getElem? hp) id _ stored
  rw [pending]
  exact List.mem_cons_self

end Invariant

section RequestSteps
variable {s t : Stage H} {a : Uploads.Action D} {now r : Nat} {q : Request D} {pc pc' : Progress H}
  {id : Nat}

omit [DecidableEq D]

theorem of_writing (h : writing q pc = some id) : pc = .staged id ∨ saving q pc = some id := by
  unfold writing at h
  split at h
  · cases h
    exact Or.inl rfl
  · exact Or.inr h

theorem Heeds.stored (heeds : Heeds s (.request a now)) (h : s.uploads.requests[r]? = some (q, pc))
    (advances : a = .advance r) (saves : saving q pc = some id) :
    (s.uploads.sessions id).isSome ∧ ∀ pass ∈ s.passes, id ∈ pass.pending → now ≤ pass.cutoff := by
  subst advances
  exact heeds (q, pc) h id saves

theorem watching_of_committing (h : committing q pc = some id) : watching q pc = some id := by
  obtain ⟨_, _, _, rfl, rfl⟩ := of_committing h
  rfl

/-- A step learns of no session but one it has minted itself. -/
theorem known_moves (h : s.uploads.requests[r]? = some (q, pc))
    (requests : t.uploads.requests = s.uploads.requests.set r (q, pc'))
    (moves : Moves s.uploads t.uploads a r q pc pc') (passes : t.passes = s.passes)
    (heeds : Heeds s (.request a now)) (known : t.Known id) : s.Known id ∨ pc = .staged id := by
  obtain stored | ⟨r', q', pc'', h', watched⟩ | ⟨pass, hp, listed⟩ := known
  · obtain stored | minted | ⟨advances, saves⟩ := moves.stored stored
    · exact Or.inl (Or.inl stored)
    · exact Or.inr minted
    · exact Or.inl (Or.inl (heeds.stored h advances saves).1)
  · rw [requests] at h'
    obtain ⟨-, moved⟩ | ⟨-, h'⟩ := Pool.of_set h h'
    · cases moved
      obtain watched | stored := moves.read watched
      · exact Or.inl (Or.inr (Or.inl ⟨r, q, pc, h, watched⟩))
      · exact Or.inl (Or.inl stored)
    · exact Or.inl (Or.inr (Or.inl ⟨r', q', pc'', h', watched⟩))
  · rw [passes] at hp
    exact Or.inl (Or.inr (Or.inr ⟨pass, hp, listed⟩))

/-- A stamp is as it was, or it is the new one of the record that is written. -/
theorem stamp_of (s : Stage H) (a : Uploads.Action D) (now id : Nat) :
    s.stamp a now id = s.updatedAt id ∨
      s.stamp a now id = now ∧ ∃ (r : Nat) (q : Request D) (pc : Progress H), a = .advance r ∧
        s.uploads.requests[r]? = some (q, pc) ∧ writing q pc = some id := by
  unfold Stage.stamp
  cases h : s.writes a with
  | none => exact Or.inl rfl
  | some id' =>
    by_cases hid : id = id'
    · subst hid
      refine Or.inr ⟨Function.update_self id now s.updatedAt, ?_⟩
      unfold Stage.writes at h
      split at h
      · rename_i r
        obtain ⟨⟨q, pc⟩, hq, writes⟩ := Option.bind_eq_some_iff.mp h
        exact ⟨r, q, pc, rfl, hq, writes⟩
      · cases h
    · exact Or.inl (Function.update_of_ne hid _ _)

/-- A step of a request keeps records and files together. -/
theorem Tended.moves (inv : Tended s) (h : s.uploads.requests[r]? = some (q, pc))
    (requests : t.uploads.requests = s.uploads.requests.set r (q, pc'))
    (moves : Moves s.uploads t.uploads a r q pc pc') (passes : t.passes = s.passes)
    (updatedAt : t.updatedAt = s.stamp a now) (heeds : Heeds s (.request a now)) : Tended t := by
  have known {id : Nat} (hk : t.Known id) : s.Known id ∨ pc = .staged id :=
    known_moves h requests moves passes heeds hk
  have fresh {id : Nat} (hid : pc = .staged id) : ¬ s.Known id :=
    (inv.minted r id ⟨q, hid ▸ h⟩).2.1
  have stored {id : Nat} (hk : s.Known id) (hs : (t.uploads.sessions id).isSome) :
      (s.uploads.sessions id).isSome := by
    obtain hs | minted | ⟨advances, saves⟩ := moves.stored hs
    · exact hs
    · exact absurd hk (fresh minted)
    · exact (heeds.stored h advances saves).1
  have other {r' id : Nat} (hm : t.Minted r' id) :
      r' = r ∧ pc' = .staged id ∨ r' ≠ r ∧ s.Minted r' id := by
    obtain ⟨q', hm⟩ := hm
    rw [requests] at hm
    obtain ⟨hr, moved⟩ | ⟨hr, hm⟩ := Pool.of_set h hm
    · cases moved
      exact Or.inl ⟨hr, rfl⟩
    · exact Or.inr ⟨hr, q', hm⟩
  -- a staging file goes only with a rename, or after the record
  have file {id : Nat} (hf : (s.uploads.staging (.session id)).isSome)
      (unlisted : pc = .unlisted → q.session ≠ some id) :
      (t.uploads.staging (.session id)).isSome ∨ t.Committing id := by
    obtain hf | renamed | ⟨hpc, named⟩ := moves.staged hf
    · exact Or.inl hf
    · exact Or.inr ⟨r, q, pc', by rw [requests, Pool.get_set h, if_pos rfl], renamed⟩
    · exact absurd named (unlisted hpc)
  constructor
  case filed =>
    intro id hs
    by_cases minted : pc = .staged id
    · refine file (inv.minted r id ⟨q, minted ▸ h⟩).2.2 ?_
      rw [minted]
      intro hpc
      cases hpc
    have before : (s.uploads.sessions id).isSome := by
      obtain hs | hm | ⟨advances, saves⟩ := moves.stored hs
      · exact hs
      · exact absurd hm minted
      · exact (heeds.stored h advances saves).1
    obtain hf | ⟨r', q', pc'', h', committed⟩ := inv.filed id before
    · refine file hf ?_
      rintro rfl named
      rw [inv.cancelled r q id h named] at before
      cases before
    · by_cases hr : r' = r
      · subst hr
        cases h.symm.trans h'
        obtain still | gone | rfl := moves.committed committed
        · exact Or.inr ⟨r', q, pc', by rw [requests, Pool.get_set h, if_pos rfl], still⟩
        · rw [gone] at hs
          cases hs
        · rw [heeds (q, pc) h] at committed
          cases committed
      · refine Or.inr ⟨r', q', pc'', ?_, committed⟩
        rw [requests, Pool.get_set h, if_neg hr]
        exact h'
  case cancelled =>
    intro r' q' id h' named
    rw [requests] at h'
    obtain ⟨-, moved⟩ | ⟨-, h'⟩ := Pool.of_set h h'
    · cases moved
      exact moves.unlisted named
    · have gone := inv.cancelled r' q' id h' named
      by_contra hs
      have := stored (Or.inr (Or.inl ⟨r', q', _, h', named⟩)) (Option.isSome_iff_ne_none.mpr hs)
      rw [gone] at this
      cases this
  case unlinked =>
    intro pass hp id unlinking
    rw [passes] at hp
    have gone := inv.unlinked pass hp id unlinking
    by_contra hs
    have := stored (Or.inr (Or.inr ⟨pass, hp, Or.inr unlinking⟩)) (Option.isSome_iff_ne_none.mpr hs)
    rw [gone] at this
    cases this
  case idle =>
    intro pass hp id pending hs
    rw [passes] at hp
    have listed : s.Known id := Or.inr (Or.inr ⟨pass, hp, Or.inl pending⟩)
    rw [updatedAt]
    obtain same | ⟨stamped, r', q', pc'', advances, h', writes⟩ := stamp_of s a now id
    · rw [same]
      exact inv.idle pass hp id pending (stored listed hs)
    · rw [stamped]
      obtain rfl | saves := of_writing writes
      · exact absurd listed (inv.minted r' id ⟨q', h'⟩).2.1
      · exact (heeds.stored h' advances saves).2 pass hp pending
  case minted =>
    intro r' id hm
    obtain ⟨rfl, rfl⟩ | ⟨hr, hm⟩ := other hm
    · obtain ⟨rfl, nextId, sessions, staged⟩ := moves.minted
      refine ⟨by omega, ?_, staged⟩
      intro hk
      obtain hk | rfl := known hk
      · have := inv.known _ hk
        omega
      · have := (inv.minted _ _ ⟨q, h⟩).1
        omega
    · obtain ⟨lt, unknown, staged⟩ := inv.minted r' id hm
      refine ⟨lt.trans_le moves.nextId_le, ?_, ?_⟩
      · intro hk
        obtain hk | rfl := known hk
        · exact unknown hk
        · exact hr (inv.once r' r id hm ⟨q, h⟩)
      · obtain hf | renamed | ⟨rfl, named⟩ := moves.staged staged
        · exact hf
        · obtain watched | hs := moves.read (watching_of_committing renamed)
          · exact absurd (Or.inr (Or.inl ⟨r, q, pc, h, watched⟩)) unknown
          · exact absurd (Or.inl hs) unknown
        · exact absurd (Or.inr (Or.inl ⟨r, q, _, h, named⟩)) unknown
  case once =>
    intro r₁ r₂ id h₁ h₂
    have unminted {r' : Nat} (hm : s.Minted r' id) (hpc : pc' = .staged id) : False := by
      subst hpc
      have := (inv.minted r' id hm).1
      have := moves.minted.1
      omega
    obtain ⟨hr₁, hpc⟩ | ⟨-, h₁⟩ := other h₁ <;> obtain ⟨hr₂, hpc'⟩ | ⟨-, h₂⟩ := other h₂
    · rw [hr₁, hr₂]
    · exact (unminted h₂ hpc).elim
    · exact (unminted h₁ hpc').elim
    · exact inv.once r₁ r₂ id h₁ h₂
  case known =>
    intro id hk
    refine Nat.lt_of_lt_of_le ?_ moves.nextId_le
    obtain hk | rfl := known hk
    · exact inv.known id hk
    · exact (inv.minted r id ⟨q, h⟩).1

/-- A request that arrives knows nothing yet. -/
theorem Tended.arrive (inv : Tended s)
    (requests : t.uploads.requests = s.uploads.requests ++ [(q, .start)])
    (sessions : t.uploads.sessions = s.uploads.sessions)
    (staging : t.uploads.staging = s.uploads.staging)
    (nextId : t.uploads.nextId = s.uploads.nextId) (updatedAt : t.updatedAt = s.updatedAt)
    (passes : t.passes = s.passes) : Tended t := by
  have other {r : Nat} {x : Request D × Progress H} (h : t.uploads.requests[r]? = some x)
      (started : x.2.isStart = false) : s.uploads.requests[r]? = some x := by
    rw [requests] at h
    obtain ⟨-, rfl⟩ | h := Pool.of_add h
    · cases started
    · exact h
  have minted {r id : Nat} (hm : t.Minted r id) : s.Minted r id := hm.imp fun _ h => other h rfl
  have known {id : Nat} (hk : t.Known id) : s.Known id := by
    obtain hs | ⟨r, q', pc', h, watched⟩ | ⟨pass, hp, listed⟩ := hk
    · rw [sessions] at hs
      exact Or.inl hs
    · refine Or.inr (Or.inl ⟨r, q', pc', other h ?_, watched⟩)
      cases pc' <;> first | rfl | cases watched
    · rw [passes] at hp
      exact Or.inr (Or.inr ⟨pass, hp, listed⟩)
  constructor
  case filed =>
    rw [sessions, staging]
    intro id hs
    refine (inv.filed id hs).imp_right ?_
    rintro ⟨r, q', pc', h, committed⟩
    exact ⟨r, q', pc', by rw [requests]; exact Pool.get_add h _, committed⟩
  case cancelled =>
    rw [sessions]
    exact fun r q' id h named => inv.cancelled r q' id (other h rfl) named
  case unlinked =>
    rw [sessions, passes]
    exact inv.unlinked
  case idle =>
    rw [sessions, passes, updatedAt]
    exact inv.idle
  case minted =>
    rw [staging, nextId]
    intro r id hm
    obtain ⟨lt, unknown, staged⟩ := inv.minted r id (minted hm)
    exact ⟨lt, fun hk => unknown (known hk), staged⟩
  case once => exact fun r r' id h h' => inv.once r r' id (minted h) (minted h')
  case known =>
    rw [nextId]
    exact fun id hk => inv.known id (known hk)

end RequestSteps

section PassSteps
omit [DecidableEq D]
variable {s t : Stage H} {p : Nat} {before after : Pass} {id : Nat}

/-- A pass goes on: it lists nothing new, its deletions take records only, and
its unlinking takes the file of a record that is gone. -/
theorem Tended.goOn (inv : Tended s) (h : s.passes[p]? = some before)
    (passes : t.passes = s.passes.set p after)
    (requests : t.uploads.requests = s.uploads.requests)
    (nextId : t.uploads.nextId = s.uploads.nextId) (updatedAt : t.updatedAt = s.updatedAt)
    (cutoff : after.cutoff = before.cutoff) (pending : ∀ id ∈ after.pending, id ∈ before.pending)
    (sessions : ∀ id, (t.uploads.sessions id).isSome → (s.uploads.sessions id).isSome)
    (unlinking : ∀ id, after.unlinking = some id →
      t.uploads.sessions id = none ∧ (id ∈ before.pending ∨ before.unlinking = some id))
    (staging : ∀ id, (s.uploads.staging (.session id)).isSome →
      (t.uploads.staging (.session id)).isSome ∨ before.unlinking = some id) : Tended t := by
  have mem : before ∈ s.passes := List.mem_of_getElem? h
  have gone {id : Nat} (hid : s.uploads.sessions id = none) : t.uploads.sessions id = none := by
    by_contra hs
    have := sessions id (Option.isSome_iff_ne_none.mpr hs)
    rw [hid] at this
    cases this
  have other {pass : Pass} (hp : pass ∈ t.passes) : pass = after ∨ pass ∈ s.passes := by
    rw [passes] at hp
    exact (List.mem_or_eq_of_mem_set hp).symm
  have minted {r id : Nat} (hm : t.Minted r id) : s.Minted r id := by
    obtain ⟨q, hm⟩ := hm
    rw [requests] at hm
    exact ⟨q, hm⟩
  have known {id : Nat} (hk : t.Known id) : s.Known id := by
    obtain hs | ⟨r, q, pc, hq, watched⟩ | ⟨pass, hp, listed⟩ := hk
    · exact Or.inl (sessions id hs)
    · rw [requests] at hq
      exact Or.inr (Or.inl ⟨r, q, pc, hq, watched⟩)
    · obtain rfl | hp := other hp
      · refine Or.inr (Or.inr ⟨before, mem, ?_⟩)
        obtain listed | listed := listed
        · exact Or.inl (pending id listed)
        · exact (unlinking id listed).2
      · exact Or.inr (Or.inr ⟨pass, hp, listed⟩)
  constructor
  case filed =>
    intro id hs
    have hs := sessions id hs
    obtain file | ⟨r, q, pc, hq, committed⟩ := inv.filed id hs
    · obtain file | unlinked := staging id file
      · exact Or.inl file
      · rw [inv.unlinked before mem id unlinked] at hs
        cases hs
    · exact Or.inr ⟨r, q, pc, by rw [requests]; exact hq, committed⟩
  case cancelled =>
    rw [requests]
    exact fun r q id hq named => gone (inv.cancelled r q id hq named)
  case unlinked =>
    intro pass hp id unlinked
    obtain rfl | hp := other hp
    · exact (unlinking id unlinked).1
    · exact gone (inv.unlinked pass hp id unlinked)
  case idle =>
    intro pass hp id listed hs
    rw [updatedAt]
    obtain rfl | hp := other hp
    · rw [cutoff]
      exact inv.idle before mem id (pending id listed) (sessions id hs)
    · exact inv.idle pass hp id listed (sessions id hs)
  case minted =>
    rw [nextId]
    intro r id hm
    obtain ⟨lt, unknown, staged⟩ := inv.minted r id (minted hm)
    refine ⟨lt, fun hk => unknown (known hk), ?_⟩
    obtain staged | unlinked := staging id staged
    · exact staged
    · exact absurd (Or.inr (Or.inr ⟨before, mem, Or.inr unlinked⟩)) unknown
  case once => exact fun r r' id h h' => inv.once r r' id (minted h) (minted h')
  case known =>
    rw [nextId]
    exact fun id hk => inv.known id (known hk)

theorem mem_scanUploads : id ∈ s.scanUploads uuid ↔
    id < s.uploads.nextId ∧ (s.uploads.sessions id).isSome := by
  rw [Stage.scanUploads, List.mem_insertionSort, List.mem_filter, List.mem_range]

theorem of_mem_expiredUploads {idleBefore limit : Nat}
    (h : id ∈ s.expiredUploads uuid idleBefore limit) :
    (s.uploads.sessions id).isSome ∧ s.updatedAt id ≤ idleBefore := by
  obtain ⟨listed, idle⟩ := List.mem_filter.mp h
  exact ⟨((mem_scanUploads uuid).mp (List.mem_of_mem_take listed)).2, of_decide_eq_true idle⟩

/-- A pass begins with sessions that are stored and idle. -/
theorem Tended.list (inv : Tended s) {cutoff limit : Nat} (passes : t.passes = s.passes ++
      [{ cutoff, pending := s.expiredUploads uuid cutoff limit }])
    (uploads : t.uploads = s.uploads) (updatedAt : t.updatedAt = s.updatedAt) : Tended t := by
  have other {pass : Pass} (hp : pass ∈ t.passes) : pass ∈ s.passes ∨
      pass.unlinking = none ∧ ∀ id ∈ pass.pending,
        (s.uploads.sessions id).isSome ∧ s.updatedAt id ≤ pass.cutoff := by
    rw [passes] at hp
    obtain hp | rfl := List.mem_append.mp hp |>.imp_right List.mem_singleton.mp
    · exact Or.inl hp
    · exact Or.inr ⟨rfl, fun id listed => of_mem_expiredUploads uuid listed⟩
  have minted {r id : Nat} (hm : t.Minted r id) : s.Minted r id := by
    obtain ⟨q, hm⟩ := hm
    rw [uploads] at hm
    exact ⟨q, hm⟩
  have known {id : Nat} (hk : t.Known id) : s.Known id := by
    obtain hs | ⟨r, q, pc, hq, watched⟩ | ⟨pass, hp, listed⟩ := hk
    · rw [uploads] at hs
      exact Or.inl hs
    · rw [uploads] at hq
      exact Or.inr (Or.inl ⟨r, q, pc, hq, watched⟩)
    · obtain hp | ⟨unlinking, stored⟩ := other hp
      · exact Or.inr (Or.inr ⟨pass, hp, listed⟩)
      · obtain listed | listed := listed
        · exact Or.inl (stored id listed).1
        · rw [unlinking] at listed
          cases listed
  constructor
  case filed =>
    rw [uploads]
    intro id hs
    refine (inv.filed id hs).imp_right ?_
    rintro ⟨r, q, pc, hq, committed⟩
    exact ⟨r, q, pc, by rw [uploads]; exact hq, committed⟩
  case cancelled =>
    rw [uploads]
    exact inv.cancelled
  case unlinked =>
    rw [uploads]
    intro pass hp id unlinked
    obtain hp | ⟨unlinking, -⟩ := other hp
    · exact inv.unlinked pass hp id unlinked
    · rw [unlinking] at unlinked
      cases unlinked
  case idle =>
    rw [uploads, updatedAt]
    intro pass hp id listed hs
    obtain hp | ⟨-, idle⟩ := other hp
    · exact inv.idle pass hp id listed hs
    · exact (idle id listed).2
  case minted =>
    rw [uploads]
    intro r id hm
    obtain ⟨lt, unknown, staged⟩ := inv.minted r id (minted hm)
    exact ⟨lt, fun hk => unknown (known hk), staged⟩
  case once => exact fun r r' id h h' => inv.once r r' id (minted h) (minted h')
  case known =>
    rw [uploads]
    exact fun id hk => inv.known id (known hk)

end PassSteps

theorem tended_step {s t : Stage H} {a : Action D} (inv : Tended s) (heeds : Heeds s a)
    (hs : step uuid s a = some t) : Tended t := by
  cases a with
  | request action now =>
    obtain ⟨uploads, hu, rfl⟩ := Option.map_eq_some_iff.mp hs
    obtain ⟨q, rfl, rfl⟩ | ⟨r, q, pc, h, pc', requests, moves⟩ := step_advances hu
    · exact inv.arrive rfl rfl rfl rfl rfl rfl
    · exact inv.moves h requests moves rfl rfl heeds
  | list now uploadTtl =>
    cases hs
    exact inv.list uuid rfl rfl rfl
  | deleteUpload p =>
    obtain ⟨⟨pass, id⟩, h, rfl⟩ := Option.map_eq_some_iff.mp hs
    obtain ⟨hp, -, rest, pending⟩ := of_deleting h
    refine inv.goOn hp rfl rfl rfl rfl rfl ?_ ?_ ?_ ?_
    · intro id' listed
      exact List.mem_of_mem_tail listed
    · intro id' hs
      obtain hs | ⟨-, none⟩ := isSome_update hs
      · exact hs
      · cases none
    · rintro _ ⟨⟩
      refine ⟨Function.update_self .., Or.inl ?_⟩
      rw [pending]
      exact List.mem_cons_self
    · exact fun id' file => Or.inl file
  | cancelUpload p =>
    obtain ⟨pass, hp, hs⟩ := Option.bind_eq_some_iff.mp hs
    obtain ⟨id, unlinking, rfl⟩ := Option.map_eq_some_iff.mp hs
    refine inv.goOn hp rfl rfl rfl rfl rfl (fun _ h => h) (fun _ h => h) ?_ ?_
    · intro id' h
      cases h
    · intro id' file
      by_cases hid : id' = id
      · exact Or.inr (hid ▸ unlinking)
      · have kept : StagingPath.session id' ≠ .session id := fun e =>
          hid (StagingPath.session.inj e)
        exact Or.inl (by rw [← Function.update_of_ne kept none s.uploads.staging] at file; exact file)
  | abandon p =>
    obtain ⟨pass, hp, rfl⟩ := Option.map_eq_some_iff.mp hs
    refine inv.goOn hp rfl rfl rfl rfl rfl ?_ (fun _ h => h) ?_ (fun _ h => Or.inl h)
    · intro id h
      cases h
    · intro id h
      cases h

/-- Along a run in which every append saves a session that is still there and
that no pass holds with an older cutoff, and no finish is dropped after its
rename, a pass deletes nothing touched since its cutoff, and when all is quiet
each session has its file. -/
theorem expiry_spares {s t : Stage H} {actions : List (Action D)} (settled : Settled s)
    (heeds : Transition.Meets (step uuid) Heeds s actions)
    (run : Transition.exec (step uuid) s actions = some t) :
    Spares t ∧ (Quiet t → Filed t) := by
  have keep (s : Stage H) (a : Action D) (t : Stage H) (inv : Tended s) (ok : Heeds s a)
      (hs : step uuid s a = some t) : Tended t := tended_step uuid inv ok hs
  have inv : Tended t := Transition.exec_invariant keep settled.tended heeds run
  exact ⟨inv.spares, inv.files⟩

/-- Sixteen bytes of the session's number. -/
def sessionKey (id : Nat) : List.Vector Byte 16 :=
  ⟨List.replicate 16 (Fin.ofNat 256 id), List.length_replicate⟩

/-- One session is created at 0, and a pass at 100 lists it. An append has
read it meanwhile. -/
def listed : List (Action (DigestAlgorithm × Bytes)) :=
  [.request (.arrive (.createUpload 0 .sha256)) 0, .request (.advance 0) 0,
    .request (.advance 0) 0, .list 100 10, .request (.arrive (.appendUpload 0 0 0)) 100,
    .request (.advance 1) 100, .request (.advance 1) 100, .request (.frame 1 [1, 2]) 100]

omit [DecidableEq D] in
theorem settled_init : Settled ({} : Stage H) where
  quiet := ⟨List.forall_mem_nil _, List.forall_mem_nil _⟩
  filed _ h := by cases h
  known _ h := by cases h

/-- A pass deletes the session and the append ends without its save. -/
theorem expiry_spares_abandoned :
    ∃ t, Transition.exec (step sessionKey) ({} : Stage contentHash)
      (listed ++ [Action.request (.abandon 1) 100, Action.deleteUpload 0, Action.cancelUpload 0]) =
        some t ∧
      Spares t ∧ (Quiet t → Filed t) := by
  have heeds : Transition.Meets (step sessionKey) Heeds ({} : Stage contentHash)
      (listed ++ [Action.request (.abandon 1) 100, Action.deleteUpload 0,
        Action.cancelUpload 0]) := by
    decide +kernel
  have finished : (Transition.exec (step sessionKey) ({} : Stage contentHash)
      (listed ++ [Action.request (.abandon 1) 100, Action.deleteUpload 0,
        Action.cancelUpload 0])).isSome := by
    decide +kernel
  obtain ⟨t, run⟩ := Option.isSome_iff_exists.mp finished
  exact ⟨t, run, expiry_spares sessionKey settled_init heeds run⟩

/-- An append saves the session at 100 after the pass listed it; the pass
deletes it all the same. And an append saves the session after the pass is
through with it; the record stays, without a staging file. -/
theorem expires_touched :
    (∃ actions t, Transition.exec (step sessionKey) ({} : Stage contentHash) actions = some t ∧
      ¬ Spares t) ∧
    ∃ actions t, Transition.exec (step sessionKey) ({} : Stage contentHash) actions = some t ∧
      Quiet t ∧ ¬ Filed t := by
  constructor
  · have run : ((Transition.exec (step sessionKey) ({} : Stage contentHash)
        (listed ++ [Action.request (.advance 1) 100])).map fun t =>
          (t.deleting 0, (t.uploads.sessions 0).isSome, t.updatedAt 0)) =
        some (some ({ cutoff := 90, pending := [0] }, 0), true, 100) := by decide +kernel
    obtain ⟨t, run, now⟩ := Option.map_eq_some_iff.mp run
    obtain ⟨deleting, rest⟩ := Prod.mk.inj now
    obtain ⟨stored, stamp⟩ := Prod.mk.inj rest
    refine ⟨_, t, run, fun spares => ?_⟩
    have := spares 0 _ 0 deleting stored
    rw [stamp] at this
    exact absurd this (by decide)
  · have run : ((Transition.exec (step sessionKey) ({} : Stage contentHash)
        (listed ++ [Action.deleteUpload 0, Action.cancelUpload 0,
          Action.request (.advance 1) 100])).map fun t =>
          (decide (Quiet t), (t.uploads.sessions 0).isSome,
            (t.uploads.staging (.session 0)).isSome)) = some (true, true, false) := by
      decide +kernel
    obtain ⟨t, run, now⟩ := Option.map_eq_some_iff.mp run
    obtain ⟨quiet, rest⟩ := Prod.mk.inj now
    obtain ⟨stored, file⟩ := Prod.mk.inj rest
    refine ⟨_, t, run, of_decide_eq_true quiet, fun filed => ?_⟩
    have := filed 0 stored
    rw [file] at this
    cases this

end Expiry

end Summ
