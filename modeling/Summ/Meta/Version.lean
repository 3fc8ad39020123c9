import Mathlib.Data.List.Sort
import Summ.Meta.Batches

/-!
# The schema version and migrations

Opening a store checks its version marker and runs the registered steps above
it. A run of `ensure` may be cut short by a step that fails, and is made again
at the next opening. Two steps to one version, and a step past this build that
is found after others have run, break what is promised: `migrations_exact_iff`.
-/

namespace Summ.version

/-- `SCHEMA_VERSION`. -/
def SCHEMA_VERSION : UInt32 := 2

/-- One forward step: its target, and what it leaves when it completes or
fails. The marker is stamped after it, by the caller. -/
structure Migration where
  target : UInt32
  run : (completes : Bool) → ByteStore → ByteStore
  keeps : ∀ completes s, (run completes s).get keys.dbVersion = s.get keys.dbVersion

/-- `Migrations::register`: the steps in the order they were registered. -/
def register (steps : List Migration) (step : Migration) : List Migration := steps ++ [step]

inductive Error
  | markerLength (len : Nat)
  | unversioned
  | newer (found : UInt32)
  | beyond (target : UInt32)
  | unreached (at_ : UInt32)
  | step
  deriving DecidableEq

/-- `decode`. -/
def decode (raw : Bytes) : Except Error UInt32 :=
  if raw.length = 4 then .ok (UInt32.ofNat (Bytes.ofBe raw)) else .error (.markerLength raw.length)

/-- `read`. -/
def read (engine : ByteStore) : Except Error (Option UInt32) :=
  match engine.get keys.dbVersion with
  | some raw => (decode raw).map some
  | none => .ok none

/-- `stamp`. -/
def stamp (engine : ByteStore) (version : UInt32) : ByteStore :=
  ByteBatch.fold engine [.put keys.dbVersion (Bytes.be 4 version.toNat)]

/-- `is_empty`: one key, anywhere. -/
def isEmpty (engine : ByteStore) : Bool := (Rocks.scan id engine.entries [] none 1).entries.isEmpty

/-- Which of the steps a run starts fail, counted from the run's first. -/
abbrev Fails := Nat → Bool

/-- What a run did: its result, the store it leaves, each step it started with the
store it found, and the steps that completed. -/
structure Ran where
  result : Except Error UInt32
  engine : ByteStore
  started : List (Migration × ByteStore)
  completed : List Migration

/-- The loop of `ensure`, from its `n`th step on. -/
def loop (fails : Fails) : (ordered : List Migration) → (n : Nat) → (at_ : UInt32) →
    (engine : ByteStore) → Ran
  | [], _, at_, engine =>
    { result := if at_ = SCHEMA_VERSION then .ok at_ else .error (.unreached at_)
      engine, started := [], completed := [] }
  | step :: rest, n, at_, engine =>
    if step.target ≤ at_ then loop fails rest n at_ engine
    else if SCHEMA_VERSION < step.target then
      { result := .error (.beyond step.target), engine, started := [], completed := [] }
    else if fails n then
      { result := .error .step, engine := step.run false engine, started := [(step, engine)]
        completed := [] }
    else
      let ran := loop fails rest (n + 1) step.target (stamp (step.run true engine) step.target)
      { ran with
        started := (step, engine) :: ran.started
        completed := step :: ran.completed }

/-- `sort_by_key`, which is stable. -/
def sorted (steps : List Migration) : List Migration :=
  steps.insertionSort fun a b => a.target ≤ b.target

/-- `ensure`. -/
def ensure (steps : List Migration) (fails : Fails) (engine : ByteStore) : Ran :=
  match read engine with
  | .error e => { result := .error e, engine, started := [], completed := [] }
  | .ok none =>
    if !isEmpty engine then
      { result := .error .unversioned, engine, started := [], completed := [] }
    else
      { result := .ok SCHEMA_VERSION, engine := stamp engine SCHEMA_VERSION, started := []
        completed := [] }
  | .ok (some found) =>
    if SCHEMA_VERSION < found then
      { result := .error (.newer found), engine, started := [], completed := [] }
    else loop fails (sorted steps) 0 found engine

/-! ## Runs -/

/-- The store after runs, and the steps they completed. -/
def runs (steps : List Migration) : List Fails → ByteStore → ByteStore × List Migration
  | [], engine => (engine, [])
  | fails :: later, engine =>
    let ran := ensure steps fails engine
    let (engine, completed) := runs steps later ran.engine
    (engine, ran.completed ++ completed)

/-- The last target completed, or the version there was. -/
def reached (found : UInt32) (completed : List Migration) : UInt32 :=
  (completed.getLast?.map Migration.target).getD found

/-- What is promised of a run on a store that was `engine` at first, and that earlier
runs left as `store` once they had completed `completed`. -/
structure Exact (steps : List Migration) (engine store : ByteStore) (completed : List Migration)
    (fails : Fails) : Prop where
  reaches : ∀ v, (ensure steps fails store).result = .ok v →
    v = SCHEMA_VERSION ∧ read (ensure steps fails store).engine = .ok (some SCHEMA_VERSION)
  completes : ∀ v found, (ensure steps fails store).result = .ok v →
    read engine = .ok (some found) → completed ++ (ensure steps fails store).completed =
      (sorted steps).filter fun step => decide (found < step.target)
  once : ∀ step before, (step, before) ∈ (ensure steps fails store).started →
    ∃ v, read before = .ok (some v) ∧ v < step.target
  resumes : ∀ found, (ensure steps fails store).result = .error .step →
    read engine = .ok (some found) →
    read (ensure steps fails store).engine =
        .ok (some (reached found (completed ++ (ensure steps fails store).completed))) ∧
      ∀ again, (ensure steps again (ensure steps fails store).engine).started.head?.map Prod.fst =
        (ensure steps fails store).started.getLast?.map Prod.fst
  refuses : ∀ v, ((ensure steps fails store).result = .error (.beyond v) ∨
      (ensure steps fails store).result = .error (.newer v)) →
    (ensure steps fails store).started = [] ∧ (ensure steps fails store).engine = store

/-- The steps above the version found and within this build: there are none, or no
step is past this build and, if one reaches it, no two have one target. -/
def Orderly (steps : List Migration) (engine : ByteStore) : Prop :=
  ∀ found, read engine = .ok (some found) →
    (∀ step ∈ steps, step.target ≤ found ∨ SCHEMA_VERSION < step.target) ∨
      (∀ step ∈ steps, step.target ≤ SCHEMA_VERSION) ∧
        ((∃ step ∈ steps, step.target = SCHEMA_VERSION) →
          steps.Pairwise fun a b => found < a.target → a.target ≠ b.target)

/-! ## Steps that are due -/

/-- The steps a run from a version would start, were none past this build. -/
def due : UInt32 → List Migration → List Migration
  | _, [] => []
  | at_, step :: rest => if step.target ≤ at_ then due at_ rest else step :: due step.target rest

theorem due_skip {at_ v : UInt32} {step : Migration} (h : step.target ≤ v) (rest : List Migration)
    (le : v ≤ at_) : due at_ (step :: rest) = due at_ rest :=
  if_pos (UInt32.le_trans h le)

theorem reached_cons (found : UInt32) (step : Migration) (completed : List Migration) :
    reached found (step :: completed) = reached step.target completed := by
  rw [reached, reached, List.getLast?_cons]
  cases completed.getLast? with
  | none => rfl
  | some last => rfl

theorem reached_append (found : UInt32) (a b : List Migration) :
    reached found (a ++ b) = reached (reached found a) b := by
  induction a generalizing found with
  | nil => rfl
  | cons step a ih => rw [List.cons_append, reached_cons, reached_cons, ih]

/-- The steps above a version, each with a target of its own, are all due. -/
theorem due_of_distinct {ordered : List Migration} (sorted : ordered.Pairwise fun a b => a.target ≤ b.target)
    {at_ : UInt32} (distinct : ordered.Pairwise fun a b => at_ < a.target → a.target ≠ b.target) :
    due at_ ordered = ordered.filter fun step => decide (at_ < step.target) := by
  induction ordered generalizing at_ with
  | nil => rfl
  | cons step rest ih =>
    rw [List.pairwise_cons] at sorted distinct
    rw [due, List.filter_cons]
    split
    · rename_i below
      have no : ¬decide (at_ < step.target) = true := fun h =>
        absurd (of_decide_eq_true h) (UInt32.not_lt.mpr below)
      rw [if_neg no, ih sorted.2 distinct.2]
    · rename_i above
      have lt : at_ < step.target := UInt32.not_le.mp above
      have later : rest.Pairwise fun a b => step.target < a.target → a.target ≠ b.target :=
        distinct.2.imp fun h lt' => h (UInt32.lt_trans lt lt')
      rw [if_pos (decide_eq_true lt), ih sorted.2 later]
      congr 1
      refine List.filter_congr fun other mem => ?_
      rw [decide_eq_decide]
      exact ⟨fun h => UInt32.lt_trans lt h, fun _ =>
        UInt32.lt_of_le_of_ne (sorted.1 other mem) (distinct.1 other mem lt)⟩

/-- What is due has a target of its own. -/
theorem due_ascending (at_ : UInt32) (ordered : List Migration) :
    (due at_ ordered).Pairwise (fun a b => a.target < b.target) ∧
      ∀ step ∈ due at_ ordered, at_ < step.target := by
  induction ordered generalizing at_ with
  | nil => exact ⟨List.Pairwise.nil, nofun⟩
  | cons step rest ih =>
    rw [due]
    split
    · exact ih at_
    · rename_i above
      obtain ⟨pairwise, later⟩ := ih step.target
      have lt : at_ < step.target := UInt32.not_le.mp above
      exact ⟨List.pairwise_cons.mpr ⟨later, pairwise⟩, List.forall_mem_cons.mpr
        ⟨lt, fun other mem => UInt32.lt_trans lt (later other mem)⟩⟩

/-! ## The marker -/

theorem read_stamp (engine : ByteStore) (version : UInt32) :
    read (stamp engine version) = .ok (some version) := by
  have stored : (stamp engine version).get keys.dbVersion = some (Bytes.be 4 version.toNat) := by
    rw [stamp, ByteBatch.get_fold]
    simp [OrderedMap.leaves, ByteOp.edit]
  have length : (Bytes.be 4 version.toNat).length = 4 := Bytes.be_length 4 _
  rw [read, stored]
  dsimp only
  rw [decode, if_pos length, Bytes.ofBe_be version.toNat_lt, UInt32.ofNat_toNat]
  rfl

theorem read_run (step : Migration) (completes : Bool) (engine : ByteStore) :
    read (step.run completes engine) = read engine := by
  rw [read, read, step.keeps]

/-! ## One run -/

/-- What the loop does from a store marked with the version it is at. -/
structure Looped (ordered : List Migration) (at_ : UInt32) (engine : ByteStore) (ran : Ran) : Prop where
  marked : read ran.engine = .ok (some (reached at_ ran.completed))
  up : at_ ≤ reached at_ ran.completed
  within : reached at_ ran.completed ≤ SCHEMA_VERSION
  due : due at_ ordered = ran.completed ++ due (reached at_ ran.completed) ordered
  once : ∀ step before, (step, before) ∈ ran.started →
    ∃ v, read before = .ok (some v) ∧ v < step.target
  ok : ∀ v, ran.result = .ok v → v = SCHEMA_VERSION ∧ reached at_ ran.completed = SCHEMA_VERSION ∧
    version.due (reached at_ ran.completed) ordered = []
  failed : ran.result = .error .step → ∃ step rest,
    version.due (reached at_ ran.completed) ordered = step :: rest ∧ step.target ≤ SCHEMA_VERSION ∧
      ran.started.getLast?.map Prod.fst = some step
  beyond : ∀ v, ran.result = .error (.beyond v) → ∃ step ∈ ordered, SCHEMA_VERSION < step.target
  older : ∀ v, ran.result ≠ .error (.newer v)

theorem loop_looped (fails : Fails) (ordered : List Migration) (n : Nat) {at_ : UInt32}
    {engine : ByteStore} (marked : read engine = .ok (some at_)) (within : at_ ≤ SCHEMA_VERSION) :
    Looped ordered at_ engine (loop fails ordered n at_ engine) := by
  induction ordered generalizing n at_ engine with
  | nil =>
    refine ⟨marked, UInt32.le_refl at_, within, rfl, nofun, fun v ok => ?_, fun failed => ?_,
      fun v failed => ?_, fun v failed => ?_⟩
    · rw [loop] at ok
      dsimp only at ok
      split at ok
      · rename_i same
        cases ok
        exact ⟨same, same, rfl⟩
      · cases ok
    · rw [loop] at failed
      dsimp only at failed
      split at failed
      · cases failed
      · cases failed
    · rw [loop] at failed
      dsimp only at failed
      split at failed
      · cases failed
      · cases failed
    · rw [loop] at failed
      dsimp only at failed
      split at failed
      · cases failed
      · cases failed
  | cons step rest ih =>
    by_cases below : step.target ≤ at_
    · have looped := ih n marked within
      have same : loop fails (step :: rest) n at_ engine = loop fails rest n at_ engine :=
        if_pos below
      have skip := due_skip below rest looped.up
      rw [same]
      refine ⟨looped.marked, looped.up, looped.within, ?_, looped.once, fun v ok => ?_,
        fun failed => ?_, fun v failed => ?_, looped.older⟩
      · rw [skip, due_skip below rest (UInt32.le_refl at_), looped.due]
      · rw [skip]
        exact looped.ok v ok
      · rw [skip]
        exact looped.failed failed
      · obtain ⟨other, mem, past⟩ := looped.beyond v failed
        exact ⟨other, List.mem_cons_of_mem step mem, past⟩
    · have above : due at_ (step :: rest) = step :: due step.target rest := if_neg below
      by_cases past : SCHEMA_VERSION < step.target
      · have refused : loop fails (step :: rest) n at_ engine =
            { result := .error (.beyond step.target), engine, started := [], completed := [] } := by
          rw [loop, if_neg below, if_pos past]
        rw [refused]
        exact ⟨marked, UInt32.le_refl at_, within, rfl, nofun, nofun, nofun,
          fun _ _ => ⟨step, List.mem_cons_self, past⟩, nofun⟩
      · have lt : at_ < step.target := UInt32.not_le.mp below
        have inside : step.target ≤ SCHEMA_VERSION := UInt32.not_lt.mp past
        cases fail : fails n with
        | true =>
          have failed : loop fails (step :: rest) n at_ engine =
              { result := .error .step, engine := step.run false engine
                started := [(step, engine)], completed := [] } := by
            rw [loop, if_neg below, if_neg past, if_pos fail]
          rw [failed]
          refine ⟨(read_run step false engine).trans marked, UInt32.le_refl at_, within, rfl, ?_, nofun,
            fun _ => ⟨step, _, above, inside, rfl⟩, nofun, nofun⟩
          intro other before mem
          cases List.mem_singleton.mp mem
          exact ⟨at_, marked, lt⟩
        | false =>
          have looped := ih (n + 1) (read_stamp (step.run true engine) step.target) inside
          have ran : loop fails (step :: rest) n at_ engine =
              { loop fails rest (n + 1) step.target (stamp (step.run true engine) step.target) with
                started := (step, engine) ::
                  (loop fails rest (n + 1) step.target (stamp (step.run true engine) step.target)).started
                completed := step ::
                  (loop fails rest (n + 1) step.target
                    (stamp (step.run true engine) step.target)).completed } := by
            rw [loop, if_neg below, if_neg past, if_neg (by rw [fail]; decide)]
          rw [ran]
          generalize loop fails rest (n + 1) step.target (stamp (step.run true engine) step.target) =
            later at looped
          have skip := due_skip (UInt32.le_refl step.target) rest looped.up
          have last := reached_cons at_ step later.completed
          refine ⟨?_, ?_, ?_, ?_, ?_, fun v ok => ?_, fun failed => ?_, fun v failed => ?_, looped.older⟩
          · rw [last]
            exact looped.marked
          · rw [last]
            exact UInt32.le_trans (UInt32.le_of_lt lt) looped.up
          · rw [last]
            exact looped.within
          · rw [last, above, skip, looped.due]
            rfl
          · intro other before mem
            rcases List.mem_cons.mp mem with same | mem
            · cases same
              exact ⟨at_, marked, lt⟩
            · exact looped.once other before mem
          · rw [last, skip]
            exact looped.ok v ok
          · rw [last, skip]
            obtain ⟨other, more, next, reachable, started⟩ := looped.failed failed
            refine ⟨other, more, next, reachable, ?_⟩
            dsimp only
            rw [List.getLast?_cons]
            cases shown : later.started.getLast? with
            | none =>
              rw [shown] at started
              cases started
            | some pair =>
              rw [shown] at started
              exact started
          · obtain ⟨other, mem, past⟩ := looped.beyond v failed
            exact ⟨other, List.mem_cons_of_mem step mem, past⟩

/-- A run starts with the first step that is due. -/
theorem loop_starts (fails : Fails) {ordered : List Migration} (n : Nat) {at_ : UInt32}
    (engine : ByteStore) {step : Migration} {rest : List Migration}
    (first : due at_ ordered = step :: rest) (within : step.target ≤ SCHEMA_VERSION) :
    (loop fails ordered n at_ engine).started.head?.map Prod.fst = some step := by
  induction ordered with
  | nil => cases first
  | cons other later ih =>
    rw [due] at first
    rw [loop]
    split at first
    · rename_i below
      rw [if_pos below]
      exact ih first
    · rename_i above
      cases first
      rw [if_neg above, if_neg (UInt32.not_lt.mpr within)]
      split
      · rfl
      · rfl

/-- Where no step lies above the version and within this build, none is started. -/
theorem loop_idle (fails : Fails) (ordered : List Migration) (n : Nat) {at_ : UInt32}
    (engine : ByteStore)
    (idle : ∀ step ∈ ordered, step.target ≤ at_ ∨ SCHEMA_VERSION < step.target) :
    (loop fails ordered n at_ engine).started = [] ∧
      (loop fails ordered n at_ engine).completed = [] ∧
      (loop fails ordered n at_ engine).engine = engine := by
  induction ordered with
  | nil => exact ⟨rfl, rfl, rfl⟩
  | cons step rest ih =>
    obtain ⟨first, later⟩ := List.forall_mem_cons.mp idle
    rw [loop]
    split
    · exact ih later
    · rename_i above
      rw [if_pos (first.resolve_left above)]
      exact ⟨rfl, rfl, rfl⟩

/-! ## Every run -/

section
variable {steps : List Migration} {engine : ByteStore}

variable (steps) in
theorem ensure_marked (fails : Fails) {e : ByteStore} {at_ : UInt32}
    (marked : read e = .ok (some at_)) (within : at_ ≤ SCHEMA_VERSION) :
    ensure steps fails e = loop fails (sorted steps) 0 at_ e := by
  rw [ensure, marked]
  exact if_neg (UInt32.not_lt.mpr within)

/-- The store and the completed steps after runs on a store that was `engine`. -/
inductive Past (steps : List Migration) (engine : ByteStore) : ByteStore → List Migration → Prop
  /-- No step was started. -/
  | still (newer : ∀ found, read engine = .ok (some found) → SCHEMA_VERSION < found) :
    Past steps engine engine []
  /-- A store of this build's making. -/
  | fresh {e completed} (none_ : read engine = .ok none)
    (marked : read e = .ok (some SCHEMA_VERSION)) : Past steps engine e completed
  | along {e completed} (found : UInt32) (first : read engine = .ok (some found))
    (marked : read e = .ok (some (reached found completed)))
    (up : found ≤ reached found completed) (within : reached found completed ≤ SCHEMA_VERSION)
    (due : due found (sorted steps) = completed ++ due (reached found completed) (sorted steps)) :
    Past steps engine e completed

theorem past_start : Past steps engine engine [] := by
  by_cases newer : ∀ found, read engine = .ok (some found) → SCHEMA_VERSION < found
  · exact .still newer
  · push Not at newer
    obtain ⟨found, first, le⟩ := newer
    exact .along found first first (UInt32.le_refl found) (UInt32.not_lt.mp le) rfl

variable (steps) in
/-- A run on a store that is not to be migrated. -/
theorem ensure_still (fails : Fails)
    (newer : ∀ found, read engine = .ok (some found) → SCHEMA_VERSION < found) :
    (∃ e, ensure steps fails engine =
        { result := .error e, engine, started := [], completed := [] } ∧ e ≠ .step) ∨
      read engine = .ok none ∧ ensure steps fails engine =
        { result := .ok SCHEMA_VERSION, engine := stamp engine SCHEMA_VERSION, started := []
          completed := [] } := by
  cases marker : read engine with
  | error e =>
    have length : ∃ len, e = .markerLength len := by
      rw [read] at marker
      split at marker
      · rename_i raw _
        rw [decode] at marker
        split at marker
        · cases marker
        · cases marker
          exact ⟨raw.length, rfl⟩
      · cases marker
    obtain ⟨len, rfl⟩ := length
    refine Or.inl ⟨.markerLength len, ?_, nofun⟩
    rw [ensure, marker]
  | ok found =>
    cases found with
    | none =>
      rw [ensure, marker]
      dsimp only
      split
      · exact Or.inl ⟨.unversioned, rfl, nofun⟩
      · exact Or.inr ⟨rfl, rfl⟩
    | some found =>
      refine Or.inl ⟨.newer found, ?_, nofun⟩
      rw [ensure, marker]
      exact if_pos (newer found marker)

theorem past_step {e : ByteStore} {completed : List Migration} (past : Past steps engine e completed)
    (fails : Fails) : Past steps engine (ensure steps fails e).engine
      (completed ++ (ensure steps fails e).completed) := by
  cases past with
  | still newer =>
    rcases ensure_still steps fails newer with ⟨error, ran, -⟩ | ⟨none_, ran⟩
    · rw [ran]
      exact .still newer
    · rw [ran]
      exact .fresh none_ (read_stamp engine SCHEMA_VERSION)
  | fresh none_ marked =>
    have within : SCHEMA_VERSION ≤ SCHEMA_VERSION := UInt32.le_refl SCHEMA_VERSION
    have looped := loop_looped fails (sorted steps) 0 marked within
    rw [ensure_marked steps fails marked within]
    refine .fresh none_ (looped.marked.trans ?_)
    rw [UInt32.le_antisymm looped.within looped.up]
  | along found first marked up within due_ =>
    have looped := loop_looped fails (sorted steps) 0 marked within
    rw [ensure_marked steps fails marked within]
    refine .along found first ?_ ?_ ?_ ?_
    · rw [reached_append]
      exact looped.marked
    · rw [reached_append]
      exact UInt32.le_trans up looped.up
    · rw [reached_append]
      exact looped.within
    · rw [reached_append, due_, looped.due, List.append_assoc]

theorem past_runs (fs : List Fails) {e : ByteStore} {completed : List Migration}
    (past : Past steps engine e completed) :
    Past steps engine (runs steps fs e).1 (completed ++ (runs steps fs e).2) := by
  induction fs generalizing e completed with
  | nil =>
    rw [runs, List.append_nil]
    exact past
  | cons fails fs ih =>
    rw [runs]
    dsimp only
    rw [← List.append_assoc]
    exact ih (past_step past fails)

theorem mem_sorted {step : Migration} : step ∈ sorted steps ↔ step ∈ steps :=
  List.mem_insertionSort _

theorem sorted_ascending (steps : List Migration) :
    (sorted steps).Pairwise fun a b => a.target ≤ b.target := by
  have total : Std.Total fun a b : Migration => a.target ≤ b.target :=
    ⟨fun a b => UInt32.le_total a.target b.target⟩
  have trans : IsTrans Migration fun a b => a.target ≤ b.target :=
    ⟨fun _ _ _ => UInt32.le_trans⟩
  exact List.pairwise_insertionSort _ steps

theorem sorted_distinct {found : UInt32}
    (distinct : steps.Pairwise fun a b => found < a.target → a.target ≠ b.target) :
    (sorted steps).Pairwise fun a b => found < a.target → a.target ≠ b.target := by
  refine ((List.perm_insertionSort _ steps).pairwise_iff ?_).mpr distinct
  intro a b h lt same
  exact h (same ▸ lt) same.symm

theorem mem_due {ordered : List Migration} {at_ : UInt32} : ∀ step ∈ due at_ ordered, step ∈ ordered := by
  induction ordered generalizing at_ with
  | nil => nofun
  | cons step rest ih =>
    rw [due]
    split
    · exact fun other mem => List.mem_cons_of_mem step (ih other mem)
    · refine List.forall_mem_cons.mpr ⟨List.mem_cons_self, fun other mem => ?_⟩
      exact List.mem_cons_of_mem step (ih other mem)

theorem due_eq_nil {ordered : List Migration} {at_ : UInt32} (none_ : due at_ ordered = []) :
    ∀ step ∈ ordered, step.target ≤ at_ := by
  induction ordered with
  | nil => nofun
  | cons step rest ih =>
    rw [due] at none_
    split at none_
    · rename_i below
      exact List.forall_mem_cons.mpr ⟨below, ih none_⟩
    · cases none_

theorem due_first {ordered : List Migration} (ascending : ordered.Pairwise fun a b => a.target ≤ b.target)
    {at_ : UInt32} {x : Migration} (mem : x ∈ ordered) (above : at_ < x.target)
    (within : x.target ≤ SCHEMA_VERSION) :
    ∃ step rest, due at_ ordered = step :: rest ∧ step.target ≤ SCHEMA_VERSION := by
  induction ordered with
  | nil => cases mem
  | cons step rest ih =>
    rw [List.pairwise_cons] at ascending
    rw [due]
    split
    · rename_i below
      rcases List.mem_cons.mp mem with rfl | later
      · exact absurd above (UInt32.not_lt.mpr below)
      · exact ih ascending.2 later
    · refine ⟨step, _, rfl, ?_⟩
      rcases List.mem_cons.mp mem with rfl | later
      · exact within
      · exact UInt32.le_trans (ascending.1 x later) within

theorem reached_mem (found : UInt32) {completed : List Migration} (left : completed ≠ []) :
    ∃ step ∈ completed, reached found completed = step.target := by
  refine ⟨completed.getLast left, List.getLast_mem left, ?_⟩
  rw [reached, List.getLast?_eq_some_getLast left]
  rfl

/-- Where no step lies between the version found and this build, none is completed. -/
theorem completed_idle {found : UInt32} {completed : List Migration}
    (within : reached found completed ≤ SCHEMA_VERSION)
    (due_ : due found (sorted steps) = completed ++ due (reached found completed) (sorted steps))
    (idle : ∀ step ∈ steps, step.target ≤ found ∨ SCHEMA_VERSION < step.target) : completed = [] := by
  by_contra left
  obtain ⟨step, mem, last⟩ := reached_mem found left
  have listed : step ∈ due found (sorted steps) := by
    rw [due_]
    exact List.mem_append_left _ mem
  have above := (due_ascending found (sorted steps)).2 step listed
  rcases idle step (mem_sorted.mp (mem_due step listed)) with below | past
  · exact absurd above (UInt32.not_lt.mpr below)
  · rw [last] at within
    exact absurd past (UInt32.not_lt.mpr within)

/-- What a success has completed is all there was to complete. -/
theorem completed_all (orderly : Orderly steps engine) {found : UInt32} {completed : List Migration}
    (first : read engine = .ok (some found)) (top : reached found completed = SCHEMA_VERSION)
    (due_ : due found (sorted steps) = completed) :
    completed = (sorted steps).filter fun step => decide (found < step.target) := by
  by_cases none_ : completed = []
  · have below := due_eq_nil (due_.trans none_)
    rw [none_, eq_comm, List.filter_eq_nil_iff]
    exact fun step mem lt => absurd (of_decide_eq_true lt) (UInt32.not_lt.mpr (below step mem))
  · obtain ⟨step, mem, last⟩ := reached_mem found none_
    rw [← due_] at mem
    have above := (due_ascending found (sorted steps)).2 step mem
    have listed := mem_sorted.mp (mem_due step mem)
    have target : step.target = SCHEMA_VERSION := last.symm.trans top
    rcases orderly found first with idle | ⟨-, distinct⟩
    · rcases idle step listed with below | past
      · exact absurd above (UInt32.not_lt.mpr below)
      · rw [target] at past
        exact absurd past (UInt32.lt_irrefl SCHEMA_VERSION)
    · rw [← due_]
      exact due_of_distinct (sorted_ascending steps) (sorted_distinct (distinct ⟨step, listed, target⟩))

theorem exact_of_past (orderly : Orderly steps engine) {store : ByteStore} {completed : List Migration}
    (past : Past steps engine store completed) (fails : Fails) :
    Exact steps engine store completed fails := by
  cases past with
  | still newer =>
    rcases ensure_still steps fails newer with ⟨error, ran, other⟩ | ⟨none_, ran⟩
    · refine ⟨fun v ok => ?_, fun v found ok _ => ?_, ?_, fun found failed _ => ?_, fun v _ => ?_⟩
      · rw [ran] at ok
        cases ok
      · rw [ran] at ok
        cases ok
      · rw [ran]
        nofun
      · rw [ran] at failed
        cases failed
        exact absurd rfl other
      · rw [ran]
        exact ⟨rfl, rfl⟩
    · refine ⟨fun v ok => ?_, fun v found _ first => ?_, ?_, fun found failed _ => ?_, fun v refused => ?_⟩
      · rw [ran] at ok ⊢
        cases ok
        exact ⟨rfl, read_stamp engine SCHEMA_VERSION⟩
      · rw [none_] at first
        cases first
      · rw [ran]
        nofun
      · rw [ran] at failed
        cases failed
      · rw [ran] at refused
        rcases refused with far | newer
        · cases far
        · cases newer
  | fresh none_ marked =>
    have within : SCHEMA_VERSION ≤ SCHEMA_VERSION := UInt32.le_refl SCHEMA_VERSION
    have ran := ensure_marked steps fails marked within
    have looped := loop_looped fails (sorted steps) 0 marked within
    have idle := loop_idle fails (sorted steps) 0 store
      fun step _ => UInt32.le_or_lt step.target SCHEMA_VERSION
    refine ⟨fun v ok => ?_, fun v found _ first => ?_, ?_, fun found _ first => ?_, fun v _ => ?_⟩
    · rw [ran] at ok ⊢
      obtain ⟨same, top, -⟩ := looped.ok v ok
      exact ⟨same, looped.marked.trans (by rw [top])⟩
    · rw [none_] at first
      cases first
    · rw [ran]
      exact looped.once
    · rw [none_] at first
      cases first
    · rw [ran]
      exact ⟨idle.1, idle.2.2⟩
  | along found first marked up within due_ =>
    have ran := ensure_marked steps fails marked within
    have looped := loop_looped fails (sorted steps) 0 marked within
    refine ⟨fun v ok => ?_, fun v found' ok first' => ?_, ?_, fun found' failed first' => ?_,
      fun v refused => ?_⟩
    · rw [ran] at ok ⊢
      obtain ⟨same, top, -⟩ := looped.ok v ok
      exact ⟨same, looped.marked.trans (by rw [top])⟩
    · rw [first] at first'
      cases first'
      rw [ran] at ok ⊢
      obtain ⟨-, top, nothing⟩ := looped.ok v ok
      refine completed_all orderly first (by rw [reached_append, top]) ?_
      rw [due_, looped.due, nothing, List.append_nil]
    · rw [ran]
      exact looped.once
    · rw [first] at first'
      cases first'
      rw [ran] at failed ⊢
      obtain ⟨step, rest, next, reachable, last⟩ := looped.failed failed
      refine ⟨by rw [reached_append]; exact looped.marked, fun again => ?_⟩
      rw [ensure_marked steps again looped.marked looped.within, last]
      exact loop_starts again 0 _ next reachable
    · rw [ran] at refused ⊢
      rcases refused with past_ | newer
      · obtain ⟨step, mem, far⟩ := looped.beyond v past_
        rcases orderly found first with idle | ⟨inside, -⟩
        · have nothing := completed_idle within due_ idle
          rw [nothing] at marked within ran ⊢
          have stay := loop_idle fails (sorted steps) 0 store
            fun step mem => idle step (mem_sorted.mp mem)
          exact ⟨stay.1, stay.2.2⟩
        · exact absurd far (UInt32.not_lt.mpr (inside step (mem_sorted.mp mem)))
      · exact absurd newer (looped.older v)

/-! ## Runs in which no step fails -/

theorem loop_beyond (ordered : List Migration) (n : Nat) {at_ : UInt32} (engine : ByteStore)
    (within : at_ ≤ SCHEMA_VERSION) (past : ∃ step ∈ ordered, SCHEMA_VERSION < step.target) :
    ∃ v, (loop (fun _ => false) ordered n at_ engine).result = .error (.beyond v) := by
  induction ordered generalizing n at_ engine with
  | nil =>
    obtain ⟨step, mem, -⟩ := past
    cases mem
  | cons step rest ih =>
    obtain ⟨other, mem, far⟩ := past
    rw [loop]
    split
    · rename_i below
      rcases List.mem_cons.mp mem with rfl | mem
      · exact absurd far (UInt32.not_lt.mpr (UInt32.le_trans below within))
      · exact ih n engine within ⟨other, mem, far⟩
    · split
      · exact ⟨step.target, rfl⟩
      · rename_i inside
        rcases List.mem_cons.mp mem with rfl | mem
        · exact absurd far inside
        · exact ih (n + 1) _ (UInt32.not_lt.mp inside) ⟨other, mem, far⟩

theorem loop_ok {ordered : List Migration} (n : Nat) {at_ : UInt32} (engine : ByteStore)
    (within : at_ ≤ SCHEMA_VERSION) (inside : ∀ step ∈ ordered, step.target ≤ SCHEMA_VERSION)
    (top : at_ = SCHEMA_VERSION ∨ ∃ step ∈ ordered, step.target = SCHEMA_VERSION) :
    (loop (fun _ => false) ordered n at_ engine).result = .ok SCHEMA_VERSION := by
  induction ordered generalizing n at_ engine with
  | nil =>
    rcases top with rfl | ⟨step, mem, -⟩
    · rfl
    · cases mem
  | cons step rest ih =>
    obtain ⟨first, later⟩ := List.forall_mem_cons.mp inside
    rw [loop]
    split
    · rename_i below
      refine ih n engine within later ?_
      rcases top with same | ⟨other, mem, target⟩
      · exact Or.inl same
      · rcases List.mem_cons.mp mem with rfl | mem
        · rw [target] at below
          exact Or.inl (UInt32.le_antisymm within below)
        · exact Or.inr ⟨other, mem, target⟩
    · rename_i above
      rw [if_neg (UInt32.not_lt.mpr first)]
      refine ih (n + 1) _ first later ?_
      rcases top with same | ⟨other, mem, target⟩
      · rw [same] at above
        exact absurd first above
      · rcases List.mem_cons.mp mem with rfl | mem
        · exact Or.inl target
        · exact Or.inr ⟨other, mem, target⟩

theorem orderly_of_exact (exact_ : Exact steps engine engine [] fun _ => false) : Orderly steps engine := by
  intro found first
  by_cases idle : ∀ step ∈ steps, step.target ≤ found ∨ SCHEMA_VERSION < step.target
  · exact Or.inl idle
  · push Not at idle
    obtain ⟨x, mem, above, within⟩ := idle
    have above := UInt32.not_le.mp above
    have within := UInt32.not_lt.mp within
    have low := UInt32.le_of_lt (UInt32.lt_of_lt_of_le above within)
    have ran := ensure_marked steps (fun _ => false) first low
    have looped := loop_looped (fun _ => false) (sorted steps) 0 first low
    have inside : ∀ step ∈ steps, step.target ≤ SCHEMA_VERSION := by
      by_contra outside
      push Not at outside
      obtain ⟨far, listed, past⟩ := outside
      have past := UInt32.not_le.mp past
      obtain ⟨v, refused⟩ := loop_beyond (sorted steps) 0 engine low ⟨far, mem_sorted.mpr listed, past⟩
      have idle := (exact_.refuses v (Or.inl (by rw [ran]; exact refused))).1
      obtain ⟨step, rest, next, reachable⟩ :=
        due_first (sorted_ascending steps) (mem_sorted.mpr mem) above within
      have started := loop_starts (fun _ => false) 0 engine next reachable
      rw [ran] at idle
      rw [idle] at started
      cases started
    refine Or.inr ⟨inside, fun ⟨top, listed, target⟩ => ?_⟩
    have done := loop_ok 0 engine low (fun step h => inside step (mem_sorted.mp h))
      (Or.inr ⟨top, mem_sorted.mpr listed, target⟩)
    have all := exact_.completes SCHEMA_VERSION found (by rw [ran]; exact done) first
    rw [ran, List.nil_append] at all
    have whole := looped.due
    rw [(looped.ok _ done).2.2, List.append_nil, all] at whole
    have pairwise := (due_ascending found (sorted steps)).1
    rw [whole, List.pairwise_filter] at pairwise
    have distinct : (sorted steps).Pairwise fun a b => found < a.target → a.target ≠ b.target := by
      refine pairwise.imp fun h lt same => ?_
      exact absurd (h (decide_eq_true lt) (decide_eq_true (same ▸ lt))) (same ▸ UInt32.lt_irrefl _)
    refine ((List.perm_insertionSort _ steps).pairwise_iff ?_).mp distinct
    intro a b h lt same
    exact h (same ▸ lt) same.symm

/-- Migrations run each step once and refuse cleanly, whichever steps fail in whichever
runs, exactly when they are orderly. -/
theorem migrations_exact_iff (steps : List Migration) (engine : ByteStore) :
    (∀ (past : List Fails) (fails : Fails),
      Exact steps engine (runs steps past engine).1 (runs steps past engine).2 fails) ↔
      Orderly steps engine :=
  ⟨fun all => orderly_of_exact (all [] fun _ => false),
    fun orderly past fails => exact_of_past orderly (past_runs past past_start) fails⟩

end

/-- A step that only says that it ran. -/
def marking (target : UInt32) : Migration where
  target
  run _ s := s
  keeps _ _ := rfl

/-- The step past this build is found once the other has run and been stamped. -/
theorem beyond_after_steps : ¬∀ (past : List Fails) (fails : Fails),
    Exact [marking 2, marking 3] (stamp ∅ 1) (runs [marking 2, marking 3] past (stamp ∅ 1)).1
      (runs [marking 2, marking 3] past (stamp ∅ 1)).2 fails := by
  intro all
  have refused := ((all [] fun _ => false).refuses 3 (Or.inl (by decide +kernel))).1
  have started : (ensure [marking 2, marking 3] (fun _ => false) (stamp ∅ 1)).started.length = 1 := by
    decide +kernel
  rw [runs] at refused
  rw [refused] at started
  cases started

/-- Of two steps to one version the second is not run. -/
example : ((ensure [marking 2, marking 2] (fun _ => false) (stamp ∅ 1)).completed.length,
    (ensure [marking 2, marking 2] (fun _ => false) (stamp ∅ 1)).result) = (1, .ok 2) := by
  decide +kernel

end Summ.version
