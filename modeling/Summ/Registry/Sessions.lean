import Summ.Registry.Purge

/-!
# Upload session records

A session names its repository by id, so opening one interns the name. The
repositories that sessions hold open are read a page of `U` at a time: with
more sessions than the page has room for, some are not on the list.
-/

namespace Summ

abbrev UploadKey := List.Vector Byte 16

namespace Store

variable (s : Store)

/-- `get_upload`. -/
def uploadSession (key : UploadKey) : Option UploadSession :=
  match s.get (.upload key) with
  | some (.upload session) => some session
  | _ => none

/-- `live_upload_repos`, one session after the other. -/
def addRepo (repos : List RepoId) : Key × Value → List RepoId
  | (_, .upload session) =>
    if repos.contains session.repo then repos else repos ++ [session.repo]
  | _ => repos

/-- `live_upload_repos`. -/
def liveUploadRepos (limit : Nat) : List RepoId :=
  (s.scan .uploads none limit).entries.foldl addRepo []

/-- The session `plan_create_upload` opens. -/
def openSession (repo : RepoId) (algorithm : Text) (now : Timestamp) : UploadSession where
  repo
  offset := 0
  startedAt := now.secs
  updatedAt := now.secs
  algorithm
  hasherState := none

/-- The batch of `plan_create_upload`. -/
def createUploadBatch (repo : RepoId) (key : UploadKey) (algorithm : Text) (now : Timestamp) :
    WriteBatch := [.put (.upload key) (.upload (openSession repo algorithm now)) rfl]

/-- The batch of `plan_delete_upload`. -/
def deleteUploadBatch (key : UploadKey) : WriteBatch := [.delete (.upload key)]

/-- Some stored session holds the repository open. -/
def holdsOpen (id : RepoId) : Bool :=
  (s.under .uploads none).any fun
    | (_, .upload session) => decide (session.repo = id)
    | _ => false

variable {s}

theorem uploadSession_eq_some {key : UploadKey} {session : UploadSession} :
    s.uploadSession key = some session ↔ s.get (.upload key) = some (.upload session) := by
  unfold uploadSession
  split <;> simp_all

theorem mem_addRepo {repos : List RepoId} {e : Key × Value} {id : RepoId} :
    id ∈ addRepo repos e ↔ id ∈ repos ∨ ∃ session, e.2 = .upload session ∧ session.repo = id := by
  obtain ⟨k, v⟩ := e
  cases v with
  | upload session =>
    have own : (∃ session', Value.upload session = .upload session' ∧ session'.repo = id) ↔
        session.repo = id := by
      constructor
      · rintro ⟨session', h, rfl⟩
        cases h
        rfl
      · exact fun h => ⟨session, rfl, h⟩
    rw [own, addRepo]
    by_cases known : session.repo ∈ repos
    · rw [if_pos (List.contains_iff_mem.mpr known)]
      constructor
      · exact Or.inl
      · rintro (h | rfl)
        · exact h
        · exact known
    · rw [if_neg (mt List.contains_iff_mem.mp known), List.mem_append, List.mem_singleton, eq_comm]
  | _ => simp [addRepo]

theorem mem_foldl_addRepo {entries : List (Key × Value)} {repos : List RepoId} {id : RepoId} :
    id ∈ entries.foldl addRepo repos ↔
      id ∈ repos ∨ ∃ e ∈ entries, ∃ session, e.2 = .upload session ∧ session.repo = id := by
  induction entries generalizing repos with
  | nil => simp
  | cons e entries ih =>
    rw [List.foldl_cons, ih, mem_addRepo, or_assoc]
    simp only [List.mem_cons, exists_eq_or_imp]

theorem holdsOpen_iff {id : RepoId} :
    s.holdsOpen id = true ↔ ∃ key session, s.uploadSession key = some session ∧ session.repo = id := by
  rw [holdsOpen, List.any_eq_true]
  constructor
  · rintro ⟨⟨k, v⟩, he, h⟩
    obtain ⟨covered, -, stored⟩ := mem_under.mp he
    cases v <;> first | cases h | skip
    cases k <;> cases covered
    exact ⟨_, _, uploadSession_eq_some.mpr stored, of_decide_eq_true h⟩
  · rintro ⟨key, session, stored, rfl⟩
    refine ⟨(.upload key, .upload session), mem_under.mpr ⟨rfl, by simp, ?_⟩, decide_eq_true rfl⟩
    exact uploadSession_eq_some.mp stored

/-- What is read of a session is read at its key. -/
theorem uploadSession_congr {t : Store} {key : UploadKey}
    (h : t.get (.upload key) = s.get (.upload key)) :
    t.uploadSession key = s.uploadSession key := by
  simp only [uploadSession, h]

/-- Who is on the list is held open. -/
theorem holdsOpen_of_mem {limit : Nat} {id : RepoId} (h : id ∈ s.liveUploadRepos limit) :
    s.holdsOpen id = true := by
  rw [holdsOpen_iff]
  obtain h | ⟨⟨k, v⟩, he, session, rfl, rfl⟩ := mem_foldl_addRepo.mp h
  · cases h
  · obtain ⟨covered, stored⟩ := mem_scan he
    cases k <;> cases covered
    exact ⟨_, session, uploadSession_eq_some.mpr stored, rfl⟩

/-- While the sessions fit on one page, everybody held open is on the list. -/
theorem mem_liveUploadRepos {limit : Nat} (pos : 0 < limit)
    (fits : (s.under .uploads none).length ≤ limit) {id : RepoId} :
    id ∈ s.liveUploadRepos limit ↔ s.holdsOpen id = true := by
  refine ⟨holdsOpen_of_mem, ?_⟩
  rw [holdsOpen_iff]
  rintro ⟨key, session, stored, rfl⟩
  refine mem_foldl_addRepo.mpr (Or.inr ⟨(.upload key, .upload session), ?_, session, rfl, rfl⟩)
  have whole : (s.under .uploads none).takeWhile (fun e => Rocks.sees Key.bytes none e.1) =
      s.under .uploads none := Rocks.takeWhile_sees_none _
  rw [scan_eq (by simp) pos, whole, Page.cut_entries_all fits, mem_under]
  exact ⟨rfl, by simp, uploadSession_eq_some.mp stored⟩

end Store

namespace Registry

variable (r : Registry)

/-- What `retire_repo` finds: the id to release, or nothing. -/
def retireCheck (name : Text) (live : List RepoId) (internedBefore : RepoId) :
    Option RepoId × Registry :=
  match r.lookupRepo name with
  | (none, r) => (none, r)
  | (some id, r) =>
    if internedBefore ≤ id ∨ r.store.repoIsEmpty id live = false then (none, r) else (some id, r)

/-- What `retire_repo` does to a name it has found empty. -/
def retire (name : Text) (id : RepoId) : Registry :=
  { r with
    store := r.store.apply (Store.retireBatch name id)
    interner := r.interner.forget name id }

/-- `retire_repo` is the check and then the release. -/
theorem retireRepo_eq (name : Text) (live : List RepoId) (internedBefore : RepoId) :
    r.retireRepo name live internedBefore =
      match r.retireCheck name live internedBefore with
      | (some id, r) => (some id, r.retire name id)
      | (none, r) => (none, r) := by
  unfold retireRepo retireCheck
  rcases r.lookupRepo name with ⟨id | id, r'⟩
  · rfl
  · dsimp only
    split <;> rfl

end Registry

end Summ
