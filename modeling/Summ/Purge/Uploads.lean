import Summ.Registry.Sessions

/-!
# The upload stage of a purge pass

`expired_uploads` reads one page of sessions, without a cursor, and keeps the
idle ones. What a pass takes is therefore decided by the order of the session
keys: `purgeUploads_session` says of every session whether it is left, and
`uploads_expire_iff` when the idle ones are exactly those taken.
-/

namespace Summ

structure ExpiredUpload where
  id : UploadKey
  repo : RepoId
  updatedAt : Nat
  deriving DecidableEq

/-- `expired_uploads`. -/
def Store.expiredUploads (s : Store) (idleBefore : Timestamp) (limit : Nat) :
    List ExpiredUpload :=
  (s.scan .uploads none limit).entries.filterMap fun
    | (.upload id, .upload session) =>
      if idleBefore.secs < session.updatedAt then none
      else some { id, repo := session.repo, updatedAt := session.updatedAt }
    | _ => none

/-- `plan_delete_upload` of one session after the other. -/
def Store.deleteUploads (s : Store) (ids : List UploadKey) : Store :=
  ids.foldl (fun s id => s.apply (Store.deleteUploadBatch id)) s

namespace Purge

/-- Upload sessions one pass looks at. -/
def PURGE_UPLOADS : Nat := 10000

/-- `now` less a span, floored at the epoch. -/
def ago (now : Timestamp) (span : Nat) : Timestamp := .fromSecs (now.secs - span)

/-- `purge_uploads`: what it reports and the session records it leaves. -/
def purgeUploads (s : Store) (now : Timestamp) (uploadTtl : Nat) (dryRun : Bool) : Nat × Store :=
  let expired := s.expiredUploads (ago now uploadTtl) PURGE_UPLOADS
  (expired.length, if dryRun then s else s.deleteUploads (expired.map ExpiredUpload.id))

theorem secs_ago (now : Timestamp) (span : Nat) : (ago now span).secs = now.secs - span :=
  Timestamp.secs_fromSecs (Nat.sub_le ..)

end Purge

namespace Store

variable {s : Store}

/-- How many sessions the scan reads before it gets to this one. -/
def sessionsBefore (s : Store) (id : UploadKey) : Nat :=
  ((s.under .uploads none).filter fun e => decide (e.1 < .upload id)).length

/-- A session is on the page when fewer sessions than a page come before it. -/
theorem mem_scan_uploads {limit : Nat} (pos : 0 < limit) {id : UploadKey} {v : Value} :
    (.upload id, v) ∈ (s.scan .uploads none limit).entries ↔
      s.get (.upload id) = some v ∧ s.sessionsBefore id < limit := by
  have whole : (s.under .uploads none).takeWhile (fun e => Rocks.sees Key.bytes none e.1) =
      s.under .uploads none := Rocks.takeWhile_sees_none _
  have page : (s.scan .uploads none limit).entries = (s.under .uploads none).take limit := by
    rw [scan_eq (by simp) pos, whole]
    rfl
  rw [page, OrderedMap.mem_take_iff (s.under_sorted .uploads none), mem_under]
  simp [Scan.covers, sessionsBefore]

theorem mem_expiredUploads {limit : Nat} (pos : 0 < limit) {idleBefore : Timestamp}
    {id : UploadKey} :
    id ∈ (s.expiredUploads idleBefore limit).map ExpiredUpload.id ↔
      ∃ session, s.uploadSession id = some session ∧ session.updatedAt ≤ idleBefore.secs ∧
        s.sessionsBefore id < limit := by
  rw [List.mem_map]
  constructor
  · rintro ⟨upload, mem, rfl⟩
    obtain ⟨⟨k, v⟩, he, made⟩ := List.mem_filterMap.mp mem
    obtain ⟨covered, -⟩ := mem_scan he
    cases k <;> cases covered
    cases v <;> first | cases made | skip
    rename_i session
    dsimp only at made
    split at made
    · cases made
    · rename_i idle
      cases made
      obtain ⟨stored, few⟩ := (mem_scan_uploads pos).mp he
      exact ⟨session, uploadSession_eq_some.mpr stored, Nat.le_of_not_lt idle, few⟩
  · rintro ⟨session, stored, idle, few⟩
    refine ⟨{ id, repo := session.repo, updatedAt := session.updatedAt }, ?_, rfl⟩
    refine List.mem_filterMap.mpr ⟨(.upload id, .upload session), ?_, ?_⟩
    · exact (mem_scan_uploads pos).mpr ⟨uploadSession_eq_some.mp stored, few⟩
    · exact if_neg (Nat.not_lt.mpr idle)

theorem get_deleteUploads (ids : List UploadKey) (k : Key) :
    (s.deleteUploads ids).get k =
      if k ∈ ids.map Key.upload then none else s.get k := by
  induction ids generalizing s with
  | nil => rfl
  | cons id ids ih =>
    change ((s.apply (deleteUploadBatch id)).deleteUploads ids).get k = _
    rw [ih, get_apply]
    by_cases own : k = .upload id
    · subst own
      simp [deleteUploadBatch, WriteBatch.effect_cons, MetaOp.effect]
    · have kept : (deleteUploadBatch id).effect k = none := by
        simp [deleteUploadBatch, WriteBatch.effect_cons, MetaOp.effect, Ne.symm own]
      rw [kept]
      simp [own]

end Store

namespace Purge

/-- What the upload stage leaves of a session. -/
theorem purgeUploads_session (s : Store) (now : Timestamp) (uploadTtl : Nat) (id : UploadKey) :
    (purgeUploads s now uploadTtl false).2.uploadSession id =
      (s.uploadSession id).filter fun session =>
        decide ((ago now uploadTtl).secs < session.updatedAt) ||
          decide (PURGE_UPLOADS ≤ s.sessionsBefore id) := by
  have pos : 0 < PURGE_UPLOADS := by decide
  have stored := s.get_deleteUploads
    ((s.expiredUploads (ago now uploadTtl) PURGE_UPLOADS).map ExpiredUpload.id) (.upload id)
  have listed : (.upload id : Key) ∈ ((s.expiredUploads (ago now uploadTtl) PURGE_UPLOADS).map
      ExpiredUpload.id).map Key.upload ↔ ∃ session, s.uploadSession id = some session ∧
        session.updatedAt ≤ (ago now uploadTtl).secs ∧ s.sessionsBefore id < PURGE_UPLOADS := by
    rw [List.mem_map_of_injective fun a b h => Key.upload.inj h]
    exact Store.mem_expiredUploads pos
  change (s.deleteUploads _).uploadSession id = _
  cases found : s.uploadSession id with
  | none =>
    have kept : (.upload id : Key) ∉ ((s.expiredUploads (ago now uploadTtl) PURGE_UPLOADS).map
        ExpiredUpload.id).map Key.upload := by
      intro mem
      obtain ⟨session, found', -⟩ := listed.mp mem
      cases found.symm.trans found'
    rw [if_neg kept] at stored
    rw [Store.uploadSession_congr stored, found]
    rfl
  | some session =>
    by_cases taken : session.updatedAt ≤ (ago now uploadTtl).secs ∧
        s.sessionsBefore id < PURGE_UPLOADS
    · rw [if_pos (listed.mpr ⟨session, found, taken⟩)] at stored
      have gone : (s.deleteUploads ((s.expiredUploads (ago now uploadTtl) PURGE_UPLOADS).map
          ExpiredUpload.id)).uploadSession id = none := by
        simp only [Store.uploadSession, stored]
      rw [gone, Option.filter_some, if_neg]
      simp only [Bool.or_eq_true, decide_eq_true_eq]
      omega
    · have kept : (.upload id : Key) ∉ ((s.expiredUploads (ago now uploadTtl) PURGE_UPLOADS).map
          ExpiredUpload.id).map Key.upload := by
        intro mem
        obtain ⟨session', found', idle⟩ := listed.mp mem
        cases found.symm.trans found'
        exact taken idle
      rw [if_neg kept] at stored
      rw [Store.uploadSession_congr stored, found]
      rw [Option.filter_some, if_pos]
      simp only [Bool.or_eq_true, decide_eq_true_eq]
      omega

/-- A pass takes no live session, and it takes the idle ones exactly when none of
them lies behind a page of other sessions. -/
theorem uploads_expire_iff (s : Store) (now : Timestamp) (uploadTtl : Nat) :
    (∀ id session, s.uploadSession id = some session → now.secs - uploadTtl < session.updatedAt →
      (purgeUploads s now uploadTtl false).2.uploadSession id = some session) ∧
    ((∀ id, (purgeUploads s now uploadTtl false).2.uploadSession id =
        (s.uploadSession id).filter fun session =>
          decide (now.secs - uploadTtl < session.updatedAt)) ↔
      ∀ id session, s.uploadSession id = some session →
        session.updatedAt ≤ now.secs - uploadTtl → s.sessionsBefore id < PURGE_UPLOADS) := by
  have left := purgeUploads_session s now uploadTtl
  simp only [secs_ago] at left
  constructor
  · intro id session found live
    rw [left, found, Option.filter_some, if_pos]
    simp only [live, decide_true, Bool.true_or]
  · constructor
    · intro exact_ id session found idle
      have taken := exact_ id
      by_contra behind
      rw [left, found, Option.filter_some, Option.filter_some, if_pos, if_neg] at taken
      · cases taken
      · simpa using idle
      · simp only [Nat.le_of_not_lt behind, decide_true, Bool.or_true]
    · intro near id
      rw [left]
      cases found : s.uploadSession id with
      | none => rfl
      | some session =>
        have decided := near id session found
        rw [Option.filter_some, Option.filter_some]
        congr 1
        simp only [Bool.or_eq_true, decide_eq_true_eq, eq_iff_iff]
        omega

end Purge

end Summ
