import Mathlib.Logic.Function.Basic
import Summ.Core.Digest
import Summ.Lib.Pool
import Summ.Lib.Transition
import Summ.Registry.DigestText

/-!
# Directories created durably, by several writers

A blob's file lies three levels of two hex characters below its algorithm's
directory. Before it is renamed into place its directory is created: the levels that
are missing are found walking up, and created walking down, each followed by an fsync
of its parent. Any number of creators go on at once, a system call at a time, and a
crash keeps what was synced.

A level that is there and not yet durable has a creator about to sync it, so a crash
loses nothing when no creator is at a sync; a creator that returns has made durable
every level it found missing (`directories_kept`). A level it found present may be one
that another creator has yet to sync (`returned_not_durable`).
-/

namespace Summ

namespace Paths

/-- A directory below `blobs`, its own name first. -/
abbrev Path := List Text

def FANOUT_LEVELS : Nat := 3

def hexEncode (bytes : Bytes) : Text :=
  bytes.flatMap fun b => [Digest.hexChar (b.val / 16), Digest.hexChar (b.val % 16)]

/-- `blob_path`: the directory, and the file in it. -/
def blobPath (digest : Digest) : Path × Path :=
  let hex := hexEncode digest.raw
  let dir := (List.range FANOUT_LEVELS).foldl
    (fun dir level => (hex.drop (level * 2)).take 2 :: dir) [digest.algorithm]
  (dir, hex :: dir)

/-- No two blobs have one file. -/
theorem blobPath_injective : Function.Injective blobPath := by
  intro d d' h
  have file : hexEncode d.raw :: (blobPath d).1 = hexEncode d'.raw :: (blobPath d').1 :=
    congrArg Prod.snd h
  obtain ⟨hex, dirs⟩ := List.cons.inj file
  have algorithm : d.algorithm = d'.algorithm := by
    have last := congrArg List.getLast? dirs
    exact Option.some.inj last
  have text : d.display = d'.display := by
    rw [Digest.display, Digest.display, algorithm]
    exact congrArg (fun hex => d'.algorithm ++ ':' :: hex) hex
  have parsed := Digest.fromStr_display d
  rw [text, Digest.fromStr_display d'] at parsed
  exact (Except.ok.inj (Option.some.inj parsed)).symm

/-- The directories there are, and those whose entry in their parent is on disk. -/
structure Tree where
  present : Path → Bool
  durable : Path → Bool

namespace Tree

variable (t : Tree)

def mkdir (level : Path) : Tree := { t with present := Function.update t.present level true }

/-- `fsync_dir`: the entries inside the directory become durable. -/
def fsyncDir (dir : Path) : Tree :=
  { t with durable := fun p => t.durable p || t.present p && !p.isEmpty && decide (p.tail = dir) }

/-- What is there after a crash: the entry and every one above it are durable. -/
def survives : Path → Bool
  | [] => true
  | name :: p => t.durable (name :: p) && survives p

def crash : Tree := { present := t.survives, durable := t.survives }

theorem mkdir_self {level : Path} : (t.mkdir level).present level = true := by
  simp [mkdir]

theorem mkdir_other {level p : Path} (h : p ≠ level) :
    (t.mkdir level).present p = t.present p := by
  simp [mkdir, h]

end Tree

/-- Where `create_dir_durable` is. -/
inductive Stage
  | check
  /-- Up to the first level that is there. -/
  | walk (cursor : Path)
  /-- The levels still to be created, the highest first. -/
  | create (levels : List Path)
  | sync (level : Path) (levels : List Path)
  | returned
  | failed
  deriving DecidableEq

structure Creator where
  dir : Path
  missing : List Path := []
  stage : Stage := .check

/-- The next system call of a creator. A level that exists is no failure; one whose
parent does not is. -/
def Creator.advance (q : Creator) (t : Tree) : Option (Tree × Creator) :=
  match q.stage with
  | .check => some (t, { q with stage := if t.present q.dir then .returned else .walk q.dir })
  | .walk cursor =>
    if cursor.isEmpty || t.present cursor then
      some (t, { q with stage := .create q.missing.reverse })
    else some (t, { q with missing := q.missing ++ [cursor], stage := .walk cursor.tail })
  | .create [] => some (t, { q with stage := .returned })
  | .create (level :: levels) =>
    if t.present level.tail then some (t.mkdir level, { q with stage := .sync level levels })
    else some (t, { q with stage := .failed })
  | .sync level levels => some (t.fsyncDir level.tail, { q with stage := .create levels })
  | .returned | .failed => none

structure State where
  tree : Tree
  creators : List Creator := []

/-- `blobs` alone, which opening the store makes durable. -/
def start : State where
  tree := { present := List.isEmpty, durable := List.isEmpty }

inductive Act
  | create (dir : Path)
  | advance (i : Nat)
  | crash

def step (st : State) : Act → Option State
  | .create dir => some { st with creators := st.creators ++ [{ dir }] }
  | .advance i => st.creators[i]?.bind fun q => (q.advance st.tree).map fun (tree, q) =>
    { tree, creators := st.creators.set i q }
  | .crash => some { tree := st.tree.crash }

/-! ## What a creator keeps -/

/-- Levels that lead down from one directory to another. -/
def Leads (top : Path) : List Path → Path → Prop
  | [], bottom => top = bottom
  | level :: levels, bottom => level ≠ [] ∧ level.tail = top ∧ Leads level levels bottom

/-- What a creator knows at each of its stages. -/
def Creator.Sound (q : Creator) (t : Tree) : Prop :=
  match q.stage with
  | .check => q.missing = []
  | .walk cursor => Leads cursor q.missing.reverse q.dir
  | .create levels => ∃ made top, q.missing.reverse = made ++ levels ∧ Leads top levels q.dir ∧
      t.present top = true ∧ ∀ level ∈ made, t.durable level = true
  | .sync level levels => ∃ made, q.missing.reverse = made ++ level :: levels ∧ level ≠ [] ∧
      Leads level levels q.dir ∧ t.present level = true ∧ ∀ level ∈ made, t.durable level = true
  | .returned => t.present q.dir = true ∧ ∀ level ∈ q.missing, t.durable level = true
  | .failed => False

/-- Nothing is taken away. -/
structure Tree.Grows (t t' : Tree) : Prop where
  present : ∀ p, t.present p = true → t'.present p = true
  durable : ∀ p, t.durable p = true → t'.durable p = true

variable {t t' : Tree} {q q' : Creator}

theorem Tree.Grows.refl (t : Tree) : t.Grows t := ⟨fun _ h => h, fun _ h => h⟩

theorem grows_mkdir (t : Tree) (level : Path) : t.Grows (t.mkdir level) where
  present p h := by
    by_cases own : p = level
    · rw [own, Tree.mkdir_self]
    · rw [Tree.mkdir_other t own]
      exact h
  durable _ h := h

theorem grows_fsyncDir (t : Tree) (dir : Path) : t.Grows (t.fsyncDir dir) where
  present _ h := h
  durable p h := by simp [Tree.fsyncDir, h]

theorem Creator.Sound.grows (sound : q.Sound t) (grows : t.Grows t') : q.Sound t' := by
  unfold Sound at sound ⊢
  split at sound
  · exact sound
  · exact sound
  · obtain ⟨made, top, split_, leads, there, durable⟩ := sound
    exact ⟨made, top, split_, leads, grows.present top there,
      fun level mem => grows.durable level (durable level mem)⟩
  · obtain ⟨made, split_, below, leads, there, durable⟩ := sound
    exact ⟨made, split_, below, leads, grows.present _ there,
      fun level mem => grows.durable level (durable level mem)⟩
  · exact ⟨grows.present _ sound.1, fun level mem => grows.durable level (sound.2 level mem)⟩
  · exact sound

/-- A level is there and its creator is about to sync it. -/
def Creator.owes (q : Creator) (p : Path) : Prop := ∃ levels, q.stage = .sync p levels

/-- All that a system call of a creator does. -/
structure Moves (t : Tree) (q : Creator) (t' : Tree) (q' : Creator) : Prop where
  grows : t.Grows t'
  sound : q'.Sound t'
  same : q'.dir = q.dir
  made : ∀ p, t'.present p = true → t.present p = true ∨ t.present p.tail = true ∧ q'.owes p
  real : ∀ p, t'.durable p = true → t.durable p = true ∨ t'.present p = true
  paid : ∀ p, q.owes p → t'.durable p = true

theorem moves_still (sound : q'.Sound t) (same : q'.dir = q.dir) (free : ∀ p, ¬q.owes p) :
    Moves t q t q' where
  grows := .refl t
  sound := sound
  same := same
  made _ h := Or.inl h
  real _ h := Or.inl h
  paid p h := absurd h (free p)

theorem moves_advance (sound : q.Sound t) (root : t.present [] = true)
    (h : q.advance t = some (t', q')) : Moves t q t' q' := by
  obtain ⟨dir, missing, stage⟩ := q
  cases stage with
  | check =>
    cases h
    have none_ : missing = [] := sound
    subst none_
    refine moves_still ?_ rfl fun p owes => ?_
    · cases there : t.present dir with
      | true =>
        simp only [Creator.Sound, if_pos]
        exact ⟨there, fun level mem => by cases mem⟩
      | false => exact rfl
    · obtain ⟨levels, same⟩ := owes
      cases same
  | walk cursor =>
    have leads : Leads cursor missing.reverse dir := sound
    have free (p : Path) : ¬Creator.owes ⟨dir, missing, .walk cursor⟩ p := by
      rintro ⟨levels, same⟩
      cases same
    simp only [Creator.advance] at h
    split at h
    · rename_i stops
      cases h
      refine moves_still ⟨[], cursor, rfl, leads, ?_, fun level mem => by cases mem⟩ rfl free
      simp only [Bool.or_eq_true, List.isEmpty_iff] at stops
      rcases stops with rfl | there
      · exact root
      · exact there
    · rename_i on
      cases h
      simp only [Bool.or_eq_true, List.isEmpty_iff, not_or] at on
      refine moves_still ?_ rfl free
      change Leads cursor.tail (missing ++ [cursor]).reverse dir
      rw [List.reverse_append]
      exact ⟨on.1, rfl, leads⟩
  | create levels =>
    have free (p : Path) : ¬Creator.owes ⟨dir, missing, .create levels⟩ p := by
      rintro ⟨levels, same⟩
      cases same
    obtain ⟨made, top, split_, leads, there, durable⟩ := sound
    cases levels with
    | nil =>
      cases h
      refine moves_still ⟨?_, fun level mem => durable level ?_⟩ rfl free
      · have bottom : top = dir := leads
        exact bottom ▸ there
      · have all : missing.reverse = made := by simpa using split_
        rw [← all]
        exact List.mem_reverse.mpr mem
    | cons level levels =>
      obtain ⟨below, above, leads⟩ := leads
      simp only [Creator.advance, above, there, if_true] at h
      cases h
      refine ⟨grows_mkdir t level, ⟨made, split_, below, leads, t.mkdir_self, durable⟩, rfl,
        fun p h => ?_, fun p h => Or.inl h, fun p owes => absurd owes (free p)⟩
      by_cases own : p = level
      · subst own
        exact Or.inr ⟨above ▸ there, levels, rfl⟩
      · rw [Tree.mkdir_other t own] at h
        exact Or.inl h
  | sync level levels =>
    cases h
    obtain ⟨made, split_, below, leads, there, durable⟩ := sound
    have now_ : (t.fsyncDir level.tail).durable level = true := by
      simp [Tree.fsyncDir, there, below]
    refine ⟨grows_fsyncDir t _, ?_, rfl, fun p h => Or.inl h, fun p h => ?_, ?_⟩
    · refine ⟨made ++ [level], level, by rw [split_, List.append_assoc]; rfl, leads, there, ?_⟩
      intro p mem
      rcases List.mem_append.mp mem with old | new
      · exact (grows_fsyncDir t _).durable p (durable p old)
      · rw [List.mem_singleton.mp new]
        exact now_
    · simp only [Tree.fsyncDir, Bool.or_eq_true, Bool.and_eq_true] at h
      rcases h with old | ⟨⟨there, -⟩, -⟩
      · exact Or.inl old
      · exact Or.inr there
    · rintro p ⟨levels', same⟩
      cases same
      exact now_
  | returned => cases h
  | failed => cases h

/-! ## Runs -/

/-- What is kept of the tree and of every creator. -/
structure Tidy (st : State) : Prop where
  root : st.tree.durable [] = true
  real : ∀ p, st.tree.durable p = true → st.tree.present p = true
  closed : ∀ name p, st.tree.present (name :: p) = true → st.tree.present p = true
  owed : ∀ p, st.tree.present p = true → st.tree.durable p = true ∨
    ∃ (i : Nat) (q : Creator), st.creators[i]? = some q ∧ q.owes p
  sound : ∀ (i : Nat) (q : Creator), st.creators[i]? = some q → q.Sound st.tree

variable {st st' : State}

theorem Tidy.step (tidy : Tidy st) {act : Act} (h : Paths.step st act = some st') : Tidy st' := by
  cases act with
  | create dir =>
    cases h
    refine { tidy with owed := fun p there => ?_, sound := fun i q h => ?_ }
    · rcases tidy.owed p there with durable | ⟨i, q, hq, owes⟩
      · exact Or.inl durable
      · exact Or.inr ⟨i, q, Pool.get_add hq _, owes⟩
    · rcases Pool.of_add h with ⟨-, rfl⟩ | h
      · exact rfl
      · exact tidy.sound i q h
  | advance i =>
    obtain ⟨q, hq, h⟩ := Option.bind_eq_some_iff.mp h
    obtain ⟨⟨t', q'⟩, advanced, rfl⟩ := Option.map_eq_some_iff.mp h
    have moves : Moves st.tree q t' q' :=
      moves_advance (tidy.sound i q hq) (tidy.real [] tidy.root) advanced
    have own : (st.creators.set i q')[i]? = some q' := by rw [Pool.get_set hq, if_pos rfl]
    refine ⟨moves.grows.durable _ tidy.root, fun p h => ?_, fun name p h => ?_, fun p h => ?_,
      fun j x h => ?_⟩
    · rcases moves.real p h with old | there
      · exact moves.grows.present p (tidy.real p old)
      · exact there
    · refine moves.grows.present p ?_
      rcases moves.made _ h with old | ⟨above, -⟩
      · exact tidy.closed name p old
      · exact above
    · rcases moves.made p h with old | ⟨-, owes⟩
      · rcases tidy.owed p old with durable | ⟨j, x, hx, owes⟩
        · exact Or.inl (moves.grows.durable p durable)
        · by_cases moved : j = i
          · subst moved
            obtain rfl : q = x := Option.some.inj (hq.symm.trans hx)
            exact Or.inl (moves.paid p owes)
          · exact Or.inr ⟨j, x, by rw [Pool.get_set hq, if_neg moved]; exact hx, owes⟩
      · exact Or.inr ⟨i, q', own, owes⟩
    · rcases Pool.of_set hq h with ⟨rfl, rfl⟩ | ⟨-, old⟩
      · exact moves.sound
      · exact (tidy.sound j x old).grows moves.grows
  | crash =>
    cases h
    refine ⟨rfl, fun p h => h, fun name p h => ?_, fun p h => Or.inl h, fun i q h => ?_⟩
    · change st.tree.survives (name :: p) = true at h
      rw [Tree.survives, Bool.and_eq_true] at h
      exact h.2
    · simp at h

theorem tidy_start : Tidy start where
  root := rfl
  real _ h := h
  closed name p h := by cases h
  owed p h := Or.inl h
  sound i q h := by simp [start] at h

/-- Where no creator is at a sync, what is there survives. -/
theorem Tidy.survives (tidy : Tidy st) (quiet : ∀ q ∈ st.creators, ∀ p, ¬q.owes p) {p : Path}
    (there : st.tree.present p = true) : st.tree.survives p = true := by
  induction p with
  | nil => rfl
  | cons name p ih =>
    rw [Tree.survives, ih (tidy.closed name p there), Bool.and_true]
    rcases tidy.owed _ there with durable | ⟨i, q, hq, owes⟩
    · exact durable
    · exact absurd owes (quiet q (List.mem_of_getElem? hq) _)

/-- The creator has not failed; once it has returned its directory is there, and every
level it found missing is durable. -/
def Creator.Keeps (q : Creator) (t : Tree) : Prop :=
  q.stage ≠ .failed ∧ (q.stage = .returned →
    t.present q.dir = true ∧ ∀ level ∈ q.missing, t.durable level = true)

theorem Creator.Sound.keeps (sound : q.Sound t) : q.Keeps t := by
  obtain ⟨dir, missing, stage⟩ := q
  refine ⟨?_, ?_⟩
  · rintro same
    change stage = _ at same
    subst same
    exact sound
  · rintro same
    change stage = _ at same
    subst same
    exact sound

end Paths

/-- In every run of creators and crashes, no creator fails, one that returns has made
durable what it found missing, and with no creator at a sync a crash loses nothing. -/
theorem directories_kept {acts : List Paths.Act} {st : Paths.State}
    (run : Transition.exec Paths.step Paths.start acts = some st) :
    (∀ q ∈ st.creators, q.Keeps st.tree) ∧
      ((∀ q ∈ st.creators, ∀ p, ¬q.owes p) →
        ∀ p, st.tree.present p = true → st.tree.crash.present p = true) := by
  have tidy : Paths.Tidy st := by
    exact Transition.exec_invariant (fun s act s' tidy _ h => Paths.Tidy.step tidy h)
      Paths.tidy_start (Transition.meets_true _ _) run
  refine ⟨fun q mem => ?_, fun quiet p there => tidy.survives quiet there⟩
  obtain ⟨i, hq⟩ := List.mem_iff_getElem?.mp mem
  exact (tidy.sound i q hq).keeps

namespace Paths

/-- The directory of the digest of zeros. -/
def zeros : Path := (blobPath (.sha256 (.replicate 32 0))).1

/-- Two creators of one directory in step, and a crash once both have returned. -/
def inStep : List Act :=
  [.create zeros, .create zeros] ++
    (List.replicate 15 [.advance 0, .advance 1]).flatten ++ [.crash, .create zeros, .advance 0]

/-- A creator finds the directory that another has created and not yet synced. -/
def raced : List Act :=
  .create zeros :: List.replicate 13 (.advance 0) ++ [.create zeros, .advance 1]

end Paths

theorem directories_kept_inStep : ∃ st,
    Transition.exec Paths.step Paths.start Paths.inStep = some st ∧
      (∀ q ∈ st.creators, q.Keeps st.tree) ∧
      ((∀ q ∈ st.creators, ∀ p, ¬q.owes p) →
        ∀ p, st.tree.present p = true → st.tree.crash.present p = true) := by
  obtain ⟨st, run⟩ : ∃ st, Transition.exec Paths.step Paths.start Paths.inStep = some st :=
    Option.isSome_iff_exists.mp (by decide +kernel)
  exact ⟨st, run, directories_kept run⟩

/-- A creator may return before its directory is durable. -/
theorem returned_not_durable : ∃ st,
    Transition.exec Paths.step Paths.start Paths.raced = some st ∧
      ∃ q ∈ st.creators, q.stage = .returned ∧ st.tree.crash.present q.dir = false := by
  have facts : (Transition.exec Paths.step Paths.start Paths.raced).map (fun st =>
      st.creators.any fun q => decide (q.stage = .returned) && !st.tree.crash.present q.dir) =
        some true := by decide +kernel
  obtain ⟨st, run, h⟩ := Option.map_eq_some_iff.mp facts
  obtain ⟨q, mem, h⟩ := List.any_eq_true.mp h
  rw [Bool.and_eq_true, decide_eq_true_eq, Bool.not_eq_true'] at h
  exact ⟨st, run, q, mem, h⟩

end Summ
