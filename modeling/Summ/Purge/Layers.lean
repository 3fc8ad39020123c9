import Summ.Purge.Marks
import Summ.Serial.Servable

/-!
# A push keeps its layers beside the purge

Pushes plan, which checks what their repository holds, and apply later; blobs are
committed and mounted; passes of the purge sweep the memberships and then mark and
collect blobs, a page or a blob at a time. Any number of each are under way, in any
order (`step`).

A pass stamps its marks with the time it started, so a blob can come and go within a
pass and carry a mark older than its membership. `Heeds` is what a run must observe:
a batch is applied soon after it is planned, a page of memberships passes over none,
and what a page marks is marked soon after the pass started and kept only since
before it. Then no stored manifest loses a blob (`layers_kept`).
-/

namespace Summ

namespace Layers

open Grace
open Purge (ago secs_ago)

/-- Memberships or blobs one step of a pass examines. -/
def PURGE_STEP : Nat := 500

/-- A batch in flight. -/
structure Plan where
  batch : WriteBatch
  plannedAt : Timestamp

inductive Stage
  | memberships (cursor : Option Key)
  | blobs (cursor : Option Key)
  /-- The ripe blobs of a page that are still to come, and where the next page starts. -/
  | ripe (digests : List Digest) (next : Option Key)
  | ended

structure Pass where
  started : Timestamp
  stage : Stage

structure State where
  registry : Registry
  clock : Timestamp
  plans : List Plan := []
  passes : List Pass := []

inductive Act
  | tick (now : Timestamp)
  /-- An operation on manifests or tags reads the store. -/
  | plan (op : Operation)
  | planCommit (repo : Text) (digest : Digest) (size : Nat) (now : Timestamp)
  | planMount (repo : Text) (digest : Digest) (from_ : Option Text) (now : Timestamp)
  | apply (i : Nat)
  | retireRepo (repo : Text) (live : List RepoId) (internedBefore : RepoId)
  | addPullCounts (deltas : List CountDelta)
  | restart (entries : Nat)
  | purge
  | advance (i : Nat)

def start (options : RegistryOptions) (entries : Nat) (clock : Timestamp) : State where
  registry := { store := ∅, interner := .withCapacity entries, options }
  clock

namespace State

variable (st : State)

def store : Store := st.registry.store

/-- What a request has planned is in flight. -/
def planned (result : Option WriteBatch × Registry) : State :=
  { st with
    registry := result.2
    plans := st.plans ++ (result.1.map fun batch => { batch, plannedAt := st.clock : Plan }).toList }

def planCommit (repo : Text) (digest : Digest) (size : Nat) (now : Timestamp) : State :=
  let (planned, registry) := st.registry.planBlobCommit repo digest size now
  st.planned (planned.toOption.map Planned.batch, registry)

def planMount (repo : Text) (digest : Digest) (from_ : Option Text) (now : Timestamp) : State :=
  match st.registry.mountEntitled digest from_ with
  | (false, registry) => { st with registry }
  | (true, registry) =>
    match registry.store.blobRecord digest with
    | none => { st with registry }
    | some record => { st with registry }.planCommit repo digest record.size now

/-- A pass leaves a store and is at a stage. -/
def turn (i : Nat) (pass : Pass) (store : Store) (stage : Stage) : State :=
  { st with
    registry := { st.registry with store }
    passes := st.passes.set i { pass with stage } }

/-- The next step of a pass. -/
def advance (grace i : Nat) (pass : Pass) : Option State :=
  let cutoff := ago pass.started grace
  match pass.stage with
  | .memberships cursor =>
    let (page, store) := st.store.sweepRepoBlobs cursor PURGE_STEP cutoff false
    some (st.turn i pass store (match page.next with
      | some next => .memberships (some next)
      | none => .blobs none))
  | .blobs cursor =>
    let (page, store) := st.store.scanBlobs cursor PURGE_STEP cutoff pass.started false
    some (st.turn i pass store (.ripe (page.ripe.map Prod.fst) page.next))
  | .ripe (digest :: digests) next =>
    some (st.turn i pass (st.store.collectBlob digest cutoff).2 (.ripe digests next))
  | .ripe [] (some next) => some (st.turn i pass st.store (.blobs (some next)))
  | .ripe [] none => some (st.turn i pass st.store .ended)
  | .ended => none

end State

def step (oci : Oci) (grace : Nat) (st : State) : Act → Option State
  | .tick now => if st.clock.millis ≤ now.millis then some { st with clock := now } else none
  | .plan op => some (st.planned (op.plan oci st.registry))
  | .planCommit repo digest size now => some (st.planCommit repo digest size now)
  | .planMount repo digest from_ now => some (st.planMount repo digest from_ now)
  | .apply i => st.plans[i]?.map fun plan =>
    { st with
      registry := { st.registry with store := st.store.apply plan.batch }
      plans := st.plans.eraseIdx i }
  | .retireRepo repo live internedBefore =>
    some { st with registry := (st.registry.retireRepo repo live internedBefore).2 }
  | .addPullCounts deltas => some { st with registry := (st.registry.addPullCounts deltas).2 }
  | .restart entries =>
    some {
      registry := { st.registry with interner := .withCapacity entries }
      clock := st.clock }
  | .purge =>
    some { st with passes := st.passes ++ [{ started := st.clock, stage := .memberships none }] }
  | .advance i => st.passes[i]?.bind (st.advance grace i)

/-! ## What a run observes -/

/-- A page of memberships passes over none. -/
def Whole (s : Store) (cursor : Option Key) : Prop :=
  ∀ m ∈ s.members, (∀ c ∈ cursor, c < .repoBlob m.1 m.2.1) →
    .repoBlob m.1 m.2.1 ∈ (s.scan .repoBlobs cursor PURGE_STEP).entries.map Prod.fst ∨
      ∃ n ∈ (s.scan .repoBlobs cursor PURGE_STEP).next, n < .repoBlob m.1 m.2.1

/-- What a page of blobs marks has been kept since before the pass started. -/
def Stamped (s : Store) (grace : Nat) (pass : Pass) (cursor : Option Key) : Prop :=
  ∀ v ∈ s.blobVerdicts (ago pass.started grace) (s.scan .blobs cursor PURGE_STEP).entries,
    v.2.2 = .unmarked → ∀ m ∈ s.members, m.2.1 = v.1 → m.2.2.addedAt ≤ pass.started.secs

/-- A pass is in time, and reads what it takes its pages for. -/
def Pass.Heeds (k : Terms) (st : State) (pass : Pass) : Prop :=
  match pass.stage with
  | .memberships cursor => Whole st.store cursor
  | .blobs cursor =>
    st.clock.secs ≤ pass.started.secs + k.delay ∧ Stamped st.store k.grace pass cursor
  | .ripe .. | .ended => True

/-- A batch is applied soon after it is planned, and a pass heeds its pages. -/
def Heeds (k : Terms) (st : State) : Act → Prop
  | .apply i => ∀ plan ∈ st.plans[i]?, st.clock.secs < plan.plannedAt.secs + k.gap
  | .advance i => ∀ pass ∈ st.passes[i]?, pass.Heeds k st
  | _ => True

instance (s : Store) (cursor : Option Key) : Decidable (Whole s cursor) :=
  inferInstanceAs (Decidable (∀ m ∈ s.members, (∀ c ∈ cursor, c < .repoBlob m.1 m.2.1) → _))

instance (s : Store) (grace : Nat) (pass : Pass) (cursor : Option Key) :
    Decidable (Stamped s grace pass cursor) :=
  inferInstanceAs (Decidable (∀ v ∈ s.blobVerdicts _ _, v.2.2 = .unmarked → ∀ m ∈ s.members, _))

instance (k : Terms) (st : State) : (pass : Pass) → Decidable (pass.Heeds k st)
  | { stage := .memberships cursor, .. } => inferInstanceAs (Decidable (Whole st.store cursor))
  | { started, stage := .blobs cursor } =>
    inferInstanceAs (Decidable (_ ∧ Stamped st.store k.grace { started, stage := .blobs cursor } cursor))
  | { stage := .ripe .., .. } | { stage := .ended, .. } => inferInstanceAs (Decidable True)

instance (k : Terms) (st : State) : (act : Act) → Decidable (Heeds k st act)
  | .apply i =>
    inferInstanceAs (Decidable (∀ plan ∈ st.plans[i]?, st.clock.secs < plan.plannedAt.secs + k.gap))
  | .advance i => inferInstanceAs (Decidable (∀ pass ∈ st.passes[i]?, pass.Heeds k st))
  | .tick _ | .plan _ | .planCommit .. | .planMount .. | .retireRepo .. | .addPullCounts _
  | .restart _ | .purge => inferInstanceAs (Decidable True)

/-! ## What planning leaves -/

/-- The store is as it was but for names. -/
structure Quiet (r r' : Registry) : Prop where
  options : r'.options = r.options
  store : ∀ key : Key, key.aboutBlobs = true ∨ (∃ repo d, key = .manifest repo d) →
    r'.store.get key = r.store.get key

section Quiet
variable {r r' : Registry} {α : Type} {name : Text}
  {plan : Store → RepoId → Except RegistryError (Planned α)}

theorem Quiet.thing (quiet : Quiet r r') (d : Digest) : r'.store.thing d = r.store.thing d :=
  Store.thing_congr fun key about => quiet.store key (Or.inl about)

theorem quiet_of_store (options : r'.options = r.options) (store : r'.store = r.store) :
    Quiet r r' := ⟨options, fun _ _ => by rw [store]⟩

theorem quiet_requireRepo : Quiet r (r.requireRepo name).2 := by
  refine quiet_of_store ?_ (r.requireRepo_store name)
  unfold Registry.requireRepo
  split <;> rename_i h <;> exact congrArg (fun p => p.2.options) h.symm

theorem quiet_internRepo : Quiet r (r.internRepo name).2 := by
  refine ⟨rfl, fun key about => r.internRepo_get ?_ ?_⟩ <;> rintro x rfl <;> rcases about with h | h <;>
    simp [Key.aboutBlobs] at h

theorem quiet_planIn : Quiet r (r.planIn name plan).2 := by
  rw [Registry.planIn_snd]
  exact quiet_requireRepo

theorem quiet_planInterned : Quiet r (r.planInterned name plan).2 := by
  rw [Registry.planInterned_snd]
  exact quiet_internRepo

end Quiet

/-! ## What is planned -/

/-- A batch that writes a manifest writes the record of a push, and a reference to
each of its blobs; other references it writes none of. -/
def Rooted (oci : Oci) (options : RegistryOptions) (pushed : ManifestPut → Prop)
    (batch : WriteBatch) : Prop :=
  ∀ r m, (batch.effect (.manifest r m) = none ∧ ∀ b, batch.effect (.blobRef b r m) = none) ∨
    batch.effect (.manifest r m) = some none ∨
    ∃ c : CheckedPut, pushed c.put ∧ checkPut oci options c.put = .ok c ∧ c.digest = m ∧
      batch.effect (.manifest r m) = some (some (.manifest (c.record r))) ∧
      ∀ desc ∈ c.parsed.blobs, desc.foreign = false →
        batch.effect (.blobRef desc.digest r m) = some (some .edge)

/-- A batch names only what its repository held when it was planned. -/
def Rests (s : Store) (batch : WriteBatch) : Prop :=
  ∀ d r, batch.Names d r →
    (s.thing d).held ∧ ((∃ a, (s.thing d).kept r = some a) ∨ (s.thing d).named r)

/-- What a request plans. -/
structure Careful (oci : Oci) (options : RegistryOptions) (pushed : ManifestPut → Prop) (s : Store)
    (batch : WriteBatch) : Prop where
  clears : batch.Clears
  rooted : Rooted oci options pushed batch
  rests : Rests s batch

section Planned
variable {oci : Oci} {options : RegistryOptions} {pushed : ManifestPut → Prop} {s : Store}

theorem careful_of_untouched {batch : WriteBatch}
    (h : ∀ key : Key, key.aboutTags = false → batch.effect key = none) :
    Careful oci options pushed s batch where
  clears := Store.clears_of_untouched h
  rooted _ _ := Or.inl ⟨h _ rfl, fun _ => h _ rfl⟩
  rests d r named := by
    obtain ⟨m, v, hv⟩ := named
    rw [h _ rfl] at hv
    cases hv

theorem careful_manifestDelete {repo : RepoId} {digest : Digest} {record : ManifestRecord}
    {now : Timestamp} :
    Careful oci options pushed s (s.manifestDeleteBatch repo digest record now) where
  clears := Store.clears_manifestDelete
  rooted r m := by
    rw [Store.manifestDelete_manifest]
    split
    · exact Or.inr (Or.inl rfl)
    · rename_i other
      refine Or.inl ⟨rfl, fun b => ?_⟩
      cases he : WriteBatch.effect (s.manifestDeleteBatch repo digest record now) (.blobRef b r m) with
      | none => rfl
      | some v =>
        obtain ⟨-, own⟩ := Store.manifestDelete_plain rfl he
        simp only [reduceCtorEq, Key.blobRef.injEq, false_or, and_false, exists_false, Scan.covers,
          Bool.false_eq_true, false_and, or_false] at own
        obtain ⟨blob, -, -, rfl, rfl⟩ := own
        exact absurd ⟨rfl, rfl⟩ other
  rests d r named := by
    obtain ⟨m, v, hv⟩ := named
    cases (Store.manifestDelete_plain rfl hv).1

theorem careful_blobCommit {repo : RepoId} {digest : Digest} {size : Nat} {now : Timestamp} :
    Careful oci options pushed s (s.blobCommitBatch repo digest size now) where
  clears := Store.clears_blobCommit
  rooted r m := by
    unfold Store.blobCommitBatch
    split <;> exact Or.inl ⟨by simp [MetaOp.effect], fun b => by simp [MetaOp.effect]⟩
  rests d r named := by
    obtain ⟨m, v, hv⟩ := named
    unfold Store.blobCommitBatch at hv
    split at hv <;> simp [MetaOp.effect] at hv

/-- What a repository holds is there, and kept or named in it. -/
theorem rests_of_holdsBlob {repo : RepoId} {d : Digest} (holds : s.holdsBlob repo d = true) :
    (s.thing d).held ∧ ((∃ a, (s.thing d).kept repo = some a) ∨ (s.thing d).named repo) := by
  simp only [Store.holdsBlob, Store.blobIsServableId, Bool.and_eq_true, Bool.or_eq_true] at holds
  obtain ⟨there, servable⟩ := holds
  constructor
  · change s.has (.blob d) = true
    by_contra none_
    rw [Bool.not_eq_true, ← Store.blobRecord_eq_none] at none_
    simp [none_] at there
  · rcases servable with named | kept
    · exact Or.inr (Store.named_iff.mpr named)
    · obtain ⟨key, v, covered, stored⟩ := Store.existsPrefix_iff.mp kept
      obtain rfl := Scan.covers_repoBlob.mp covered
      have fits := Store.fits_of_get stored
      cases v with
      | repoBlob record => exact Or.inl ⟨record.addedAt, Store.kept_eq_some.mpr ⟨record, stored, rfl⟩⟩
      | _ => cases fits

theorem careful_push {repo : RepoId} {c : CheckedPut} {ts : List Tag} (this : pushed c.put)
    (checked : checkPut oci options c.put = .ok c)
    (held : ∀ desc ∈ c.parsed.blobs, desc.foreign = true ∨ s.holdsBlob repo desc.digest = true) :
    Careful oci options pushed s (s.pushBatch repo c ts) := by
  have holds (desc : BlobDesc) (mem : desc ∈ s.recorded repo c) :
      s.holdsBlob repo desc.digest = true := by
    obtain ⟨listed, kept⟩ := List.mem_filter.mp mem
    rw [Bool.or_eq_true] at kept
    cases kept with
    | inl own => exact (held desc listed).resolve_left (by simpa using own)
    | inr there => exact there
  refine ⟨Store.clears_pushBatch holds, fun r m => ?_, fun d r named => ?_⟩
  · rw [Store.pushBatch_manifest]
    by_cases own : repo = r ∧ c.digest = m
    · obtain ⟨rfl, rfl⟩ := own
      refine Or.inr (Or.inr ⟨c, this, checked, rfl, if_pos ⟨rfl, rfl⟩, fun desc listed own => ?_⟩)
      rw [Store.pushBatch_blobRef, if_pos]
      exact ⟨rfl, rfl, desc, List.mem_filter.mpr ⟨listed, by simp [own]⟩, rfl⟩
    · refine Or.inl ⟨if_neg own, fun b => ?_⟩
      rw [Store.pushBatch_blobRef, if_neg fun h => own ⟨h.1, h.2.1⟩]
  · obtain ⟨rfl, desc, mem, rfl⟩ := Store.pushBatch_refers.mp named
    exact rests_of_holdsBlob (holds desc mem)

theorem careful_planned {r : Registry} {α : Type} {name : Text}
    {plan : Store → RepoId → Except RegistryError (Planned α)} {batch : WriteBatch}
    (careful : ∀ id p, plan r.store id = .ok p → Careful oci options pushed r.store p.batch)
    (h : (r.planIn name plan).1.toOption.map Planned.batch = some batch) :
    Careful oci options pushed (r.planIn name plan).2.store batch := by
  obtain ⟨id, p, -, planned, rfl⟩ := Registry.batch_of_planIn h
  rw [Registry.planIn_snd, Registry.requireRepo_store]
  exact careful id p planned

theorem careful_interned {r : Registry} {α : Type} {name : Text}
    {plan : Store → RepoId → Except RegistryError (Planned α)} {batch : WriteBatch}
    (careful : ∀ s id p, plan s id = .ok p → Careful oci options pushed s p.batch)
    (h : (r.planInterned name plan).1.toOption.map Planned.batch = some batch) :
    Careful oci options pushed (r.planInterned name plan).2.store batch := by
  obtain ⟨id, p, -, planned, rfl⟩ := Registry.batch_of_planInterned h
  exact careful _ id p planned

/-- An operation plans a careful batch, and leaves the blobs as they are. -/
theorem careful_plan {r : Registry} (validates : r.options.validateReferences = true)
    {op : Operation} (this : ∀ put, op.push = some put → pushed put) :
    Quiet r (op.plan oci r).2 ∧ ∀ batch, (op.plan oci r).1 = some batch →
      Careful oci r.options pushed (op.plan oci r).2.store batch := by
  have none_ : Quiet r r ∧ ∀ batch, none = some batch → Careful oci r.options pushed r.store batch :=
    ⟨quiet_of_store rfl rfl, fun batch h => by cases h⟩
  cases op with
  | putManifest put extraTags =>
    simp only [Operation.plan, Registry.planManifestPutTagged]
    cases checked : checkPut oci r.options put with
    | error e => exact none_
    | ok c =>
      refine ⟨quiet_planInterned, fun batch => careful_interned fun s id p hp => ?_⟩
      obtain ⟨held, ts, -, hbatch⟩ := Store.planPush_ok hp
      obtain ⟨rfl, -⟩ := checkPut_ok checked
      rw [hbatch]
      exact careful_push (this _ rfl) checked (held validates).1
  | setTag repo tag digest now =>
    simp only [Operation.plan, Registry.planSetTag]
    cases validateTag tag with
    | error e => exact none_
    | ok t =>
      refine ⟨quiet_planIn, fun batch => careful_planned fun id p hp => ?_⟩
      obtain ⟨target, record, -, -, hbatch⟩ := Store.planSetTag_ok hp
      rw [hbatch]
      exact careful_of_untouched fun key => setTagOps_other
  | deleteTag repo tag now =>
    simp only [Operation.plan, Registry.planDeleteTag]
    refine ⟨quiet_planIn, fun batch => careful_planned fun id p hp => ?_⟩
    obtain ⟨record, -, hbatch⟩ := Store.planDeleteTag_ok hp
    rw [hbatch]
    exact careful_of_untouched fun key => deleteTagOps_other
  | deleteManifest repo digest now =>
    simp only [Operation.plan, Registry.planManifestDelete]
    refine ⟨quiet_planIn, fun batch => careful_planned fun id p hp => ?_⟩
    obtain ⟨record, -, hbatch⟩ := Store.planManifestDelete_ok hp
    rw [hbatch]
    exact careful_manifestDelete
  | purgeManifest repo digest pushedBefore now =>
    simp only [Operation.plan]
    refine ⟨quiet_planIn, fun batch => careful_planned fun id p hp => ?_⟩
    rcases Store.planPurgeManifest_ok hp with hbatch | ⟨record, -, -, hbatch⟩
    · rw [hbatch]
      exact careful_of_untouched fun key _ => rfl
    · rw [hbatch]
      exact careful_manifestDelete
  | _ => exact none_

theorem careful_planCommit {r : Registry} {repo : Text} {digest : Digest} {size : Nat}
    {now : Timestamp} {batch : WriteBatch}
    (h : (r.planBlobCommit repo digest size now).1.toOption.map Planned.batch = some batch) :
    Careful oci options pushed (r.planBlobCommit repo digest size now).2.store batch := by
  refine careful_interned (fun s id p hp => ?_) h
  cases hp
  exact careful_blobCommit

end Planned

/-! ## The invariant -/

/-- The membership was on a page the pass has swept. -/
def Stage.seen (stage : Stage) (d : Digest) (r : RepoId) : Prop :=
  match stage with
  | .memberships none => False
  | .memberships (some n) => .repoBlob r d ≤ n
  | _ => True

/-- Every stored record is that of a push, with a reference to each of its blobs. -/
def Layered (oci : Oci) (options : RegistryOptions) (pushed : ManifestPut → Prop) (s : Store) :
    Prop :=
  ∀ r m record, s.manifestRecord r m = some record →
    ∃ c : CheckedPut, pushed c.put ∧ checkPut oci options c.put = .ok c ∧ c.digest = m ∧
      record = c.record r ∧ ∀ desc ∈ c.parsed.blobs, desc.foreign = false →
        s.has (.blobRef desc.digest r m) = true

namespace State

/-- The plans that name a blob, with the times they were made. -/
def plansFor (st : State) (d : Digest) (r : RepoId) (p : Nat) : Prop :=
  ∃ plan ∈ st.plans, plan.plannedAt.secs = p ∧ plan.batch.Names d r

/-- The passes, with what each has seen to of a blob. -/
def passesOf (st : State) (d : Digest) (T : Nat) (seen : RepoId → Prop) : Prop :=
  ∃ pass ∈ st.passes, pass.started.secs = T ∧ seen = pass.stage.seen d

end State

structure Kept (oci : Oci) (k : Terms) (options : RegistryOptions) (pushed : ManifestPut → Prop)
    (st : State) : Prop where
  limits : st.registry.options = options
  safe : ∀ d, Safe k st.clock.secs (st.store.thing d) (st.plansFor d) (st.passesOf d)
  clears : ∀ plan ∈ st.plans, plan.batch.Clears
  rooted : ∀ plan ∈ st.plans, Rooted oci options pushed plan.batch
  layered : Layered oci options pushed st.store
  late : k.grace ≤ st.clock.secs
  started : ∀ pass ∈ st.passes, k.grace ≤ pass.started.secs

section Layered
variable {oci : Oci} {options : RegistryOptions} {pushed : ManifestPut → Prop} {s t : Store}

theorem Layered.congr (layered : Layered oci options pushed s)
    (records : ∀ r m, t.get (.manifest r m) = s.get (.manifest r m))
    (refs : ∀ d r m, t.get (.blobRef d r m) = s.get (.blobRef d r m)) :
    Layered oci options pushed t := by
  intro r m record stored
  rw [Store.manifestRecord_congr (records r m)] at stored
  obtain ⟨c, this, checked, digest, made, edges⟩ := layered r m record stored
  refine ⟨c, this, checked, digest, made, fun desc listed own => ?_⟩
  rw [Store.has, refs]
  exact edges desc listed own

theorem Layered.apply (layered : Layered oci options pushed s) {batch : WriteBatch}
    (rooted : Rooted oci options pushed batch) : Layered oci options pushed (s.apply batch) := by
  intro r m record stored
  rcases rooted r m with ⟨record', refs⟩ | gone | ⟨c, this, checked, digest, put, edges⟩
  · rw [Store.manifestRecord_congr (Store.get_apply_of_effect record')] at stored
    obtain ⟨c, this, checked, digest, made, edges⟩ := layered r m record stored
    refine ⟨c, this, checked, digest, made, fun desc listed own => ?_⟩
    rw [Store.has_apply_of_effect (refs _)]
    exact edges desc listed own
  · rw [Store.manifestRecord_eq_some, Store.get_apply, gone] at stored
    cases stored
  · rw [Store.manifestRecord_eq_some, Store.get_apply, put] at stored
    cases stored
    refine ⟨c, this, checked, digest, rfl, fun desc listed own => ?_⟩
    rw [Store.has_apply, edges desc listed own]
    rfl

end Layered

/-! ## The steps that are no purge's -/

section Quiet
variable {r : Registry}

theorem quiet_lookupRepo {name : Text} : Quiet r (r.lookupRepo name).2 := quiet_of_store rfl rfl

theorem quiet_retireRepo {name : Text} {live : List RepoId} {internedBefore : RepoId} :
    Quiet r (r.retireRepo name live internedBefore).2 := by
  unfold Registry.retireRepo
  have quiet : Quiet r (r.lookupRepo name).2 := quiet_lookupRepo
  rcases looked : r.lookupRepo name with ⟨id | id, r'⟩ <;> rw [looked] at quiet
  · exact quiet
  · dsimp only at quiet ⊢
    split
    · exact quiet
    · refine ⟨quiet.options, fun key about => ?_⟩
      rw [← quiet.store key about]
      refine Store.get_apply_of_effect ?_
      cases key <;> rcases about with h | ⟨repo, d, h⟩ <;> cases h <;>
        simp [Store.retireBatch, MetaOp.effect]

theorem countOps_quiet (deltas : List CountDelta) (groups : List CountGroup) (r : Registry) :
    (∀ op ∈ (r.countOps deltas groups).1, ∃ (g : CountGroup) (id : RepoId) (bucket : CounterBucket),
      op = .put (g.key id) (.counter bucket) (g.fits ..)) ∧
    (r.countOps deltas groups).2.store = r.store ∧
    (r.countOps deltas groups).2.options = r.options := by
  induction groups generalizing r with
  | nil => exact ⟨fun op h => (by cases h), rfl, rfl⟩
  | cons g groups ih =>
    have store : (r.lookupRepo g.repo).2.store = r.store := rfl
    have options : (r.lookupRepo g.repo).2.options = r.options := rfl
    rw [Registry.countOps]
    rcases looked : r.lookupRepo g.repo with ⟨id | id, r'⟩ <;> rw [looked] at store options
    · obtain ⟨ops, store', options'⟩ := ih r'
      exact ⟨ops, store'.trans store, options'.trans options⟩
    · obtain ⟨ops, store', options'⟩ := ih r'
      refine ⟨fun op hop => ?_, store'.trans store, options'.trans options⟩
      cases hop with
      | head => exact ⟨g, id, _, rfl⟩
      | tail _ rest => exact ops op rest

theorem quiet_addPullCounts {deltas : List CountDelta} : Quiet r (r.addPullCounts deltas).2 := by
  obtain ⟨ops, store, options⟩ := countOps_quiet deltas (deltas.map CountDelta.group).dedup r
  simp only [Registry.addPullCounts]
  refine ⟨options, fun key about => ?_⟩
  dsimp only
  rw [store]
  refine Store.get_apply_of_effect (WriteBatch.effect_eq_none.mpr fun op hop => ?_)
  obtain ⟨g, id, bucket, rfl⟩ := ops op hop
  refine if_neg fun same => ?_
  subst same
  unfold CountGroup.key at about
  split at about <;> rcases about with h | ⟨repo, d, h⟩ <;> cases h

theorem quiet_mountEntitled {digest : Digest} {from_ : Option Text} :
    Quiet r (r.mountEntitled digest from_).2 := by
  cases from_ with
  | none => exact quiet_of_store rfl rfl
  | some source =>
    have quiet : Quiet r (r.lookupRepo source).2 := quiet_lookupRepo
    simp only [Registry.mountEntitled, Registry.blobIsServable, Registry.readOr]
    split <;> rename_i h <;> rw [h] at quiet <;> exact quiet

end Quiet

section Steps
variable {oci : Oci} {k : Terms} {options : RegistryOptions} {pushed : ManifestPut → Prop}
  {st st' : State}

/-- Nothing is written of a blob or a manifest, time passes, plans end, and passes
end or start. -/
theorem Kept.later (kept : Kept oci k options pushed st) (quiet : Quiet st.registry st'.registry)
    (on : st.clock.secs ≤ st'.clock.secs) (fewer : ∀ plan ∈ st'.plans, plan ∈ st.plans)
    (among : ∀ pass ∈ st'.passes, pass ∈ st.passes ∨
      pass = { started := st'.clock, stage := .memberships none }) :
    Kept oci k options pushed st' where
  limits := quiet.options.trans kept.limits
  safe d := by
    have same : st'.store.thing d = st.store.thing d := quiet.thing d
    rw [same]
    refine (kept.safe d).later on ?_ ?_
    · rintro r p ⟨plan, mem, made⟩
      exact ⟨plan, fewer plan mem, made⟩
    · rintro T seen ⟨pass, mem, rfl, rfl⟩
      rcases among pass mem with old | rfl
      · have begun := (kept.safe d).begun _ _ ⟨pass, old, rfl, rfl⟩
        exact ⟨by omega, fun r h => ⟨_, ⟨pass, old, rfl, rfl⟩, h⟩⟩
      · exact ⟨Nat.le_refl _, fun r h => h.elim⟩
  clears plan mem := kept.clears plan (fewer plan mem)
  rooted plan mem := kept.rooted plan (fewer plan mem)
  layered := kept.layered.congr (fun r m => quiet.store _ (Or.inr ⟨r, m, rfl⟩))
    fun d r m => quiet.store _ (Or.inl rfl)
  late := Nat.le_trans kept.late on
  started pass mem := by
    rcases among pass mem with old | rfl
    · exact kept.started pass old
    · exact Nat.le_trans kept.late on

/-- A careful batch may be in flight. -/
theorem Kept.planned (kept : Kept oci k options pushed st) {result : Option WriteBatch × Registry}
    (quiet : Quiet st.registry result.2)
    (careful : ∀ batch, result.1 = some batch →
      Careful oci options pushed result.2.store batch) :
    Kept oci k options pushed (st.planned result) := by
  have before : Kept oci k options pushed { st with registry := result.2 } :=
    kept.later quiet (Nat.le_refl _) (fun plan mem => mem) fun pass mem => Or.inl mem
  have new (plan : Plan) (mem : plan ∈ (st.planned result).plans) : plan ∈ st.plans ∨
      plan.plannedAt = st.clock ∧ Careful oci options pushed result.2.store plan.batch := by
    rw [State.planned, List.mem_append, Option.mem_toList, Option.map_eq_some_iff] at mem
    rcases mem with old | ⟨batch, made, rfl⟩
    · exact Or.inl old
    · exact Or.inr ⟨rfl, careful batch made⟩
  refine { before with safe := fun d => ?_, clears := fun plan mem => ?_, rooted := fun plan mem => ?_ }
  · refine (before.safe d).planning fun r p h => ?_
    obtain ⟨plan, mem, rfl, names⟩ := h
    rcases new plan mem with old | ⟨at_, careful⟩
    · exact Or.inl ⟨plan, old, rfl, names⟩
    · exact Or.inr ⟨by rw [at_], careful.rests d r names⟩
  · rcases new plan mem with old | ⟨-, careful⟩
    · exact kept.clears plan old
    · exact careful.clears
  · rcases new plan mem with old | ⟨-, careful⟩
    · exact kept.rooted plan old
    · exact careful.rooted

theorem Kept.planCommit (kept : Kept oci k options pushed st) (repo : Text) (digest : Digest)
    (size : Nat) (now : Timestamp) :
    Kept oci k options pushed (st.planCommit repo digest size now) := by
  have quiet : Quiet st.registry (st.registry.planBlobCommit repo digest size now).2 :=
    quiet_planInterned
  have careful (batch : WriteBatch)
      (h : (st.registry.planBlobCommit repo digest size now).1.toOption.map Planned.batch =
        some batch) :
      Careful oci options pushed (st.registry.planBlobCommit repo digest size now).2.store batch :=
    careful_planCommit h
  unfold State.planCommit
  rcases made : st.registry.planBlobCommit repo digest size now with ⟨planned, registry⟩
  rw [made] at quiet careful
  exact kept.planned quiet careful

theorem Kept.planMount (kept : Kept oci k options pushed st) (repo : Text) (digest : Digest)
    (from_ : Option Text) (now : Timestamp) :
    Kept oci k options pushed (st.planMount repo digest from_ now) := by
  unfold State.planMount
  have quiet : Quiet st.registry (st.registry.mountEntitled digest from_).2 := quiet_mountEntitled
  rcases made : st.registry.mountEntitled digest from_ with ⟨entitled, registry⟩
  rw [made] at quiet
  have after : Kept oci k options pushed { st with registry } :=
    kept.later quiet (Nat.le_refl _) (fun plan mem => mem) fun pass mem => Or.inl mem
  cases entitled with
  | false => exact after
  | true =>
    dsimp only
    split
    · exact after
    · exact after.planCommit repo digest _ now

/-- A batch is applied in time. -/
theorem Kept.apply (kept : Kept oci k options pushed st) {i : Nat} {plan : Plan}
    (taken : st.plans[i]? = some plan)
    (inTime : st.clock.secs < plan.plannedAt.secs + k.gap) :
    Kept oci k options pushed { st with
      registry := { st.registry with store := st.store.apply plan.batch }
      plans := st.plans.eraseIdx i } := by
  have mem : plan ∈ st.plans := List.mem_of_getElem? taken
  have fewer (plan' : Plan) (h : plan' ∈ st.plans.eraseIdx i) : plan' ∈ st.plans :=
    List.mem_of_mem_eraseIdx h
  refine { kept with safe := fun d => ?_, clears := ?_, rooted := ?_, layered := ?_ }
  · have applied : Safe k st.clock.secs ((st.store.apply plan.batch).thing d) (st.plansFor d)
        (st.passesOf d) := (kept.clears plan mem).safe (kept.safe d) fun r names =>
      ⟨plan.plannedAt.secs, ⟨plan, mem, rfl, names⟩, inTime⟩
    refine applied.later (Nat.le_refl _) ?_ ?_
    · rintro r p ⟨plan', mem', made⟩
      exact ⟨plan', fewer plan' mem', made⟩
    · intro T seen pass
      exact ⟨applied.begun T seen pass, fun r h => ⟨seen, pass, h⟩⟩
  · exact fun plan' h => kept.clears plan' (fewer plan' h)
  · exact fun plan' h => kept.rooted plan' (fewer plan' h)
  · exact kept.layered.apply (kept.rooted plan mem)

/-! ## The steps of a pass -/

/-- A pass leaves a store in which what it has newly seen to is young, or named. -/
theorem Kept.turn (kept : Kept oci k options pushed st) {i : Nat} {pass : Pass} {store : Store}
    {stage : Stage} (mem : pass ∈ st.passes)
    (safe : ∀ d, Safe k st.clock.secs (store.thing d) (st.plansFor d) (st.passesOf d))
    (layered : Layered oci options pushed store)
    (saw : ∀ d r, stage.seen d r → pass.stage.seen d r ∨ ∀ a, (store.thing d).kept r = some a →
      pass.started.secs < a + k.grace ∨ (store.thing d).named r) :
    Kept oci k options pushed (st.turn i pass store stage) := by
  have among (pass' : Pass) (h : pass' ∈ (st.turn i pass store stage).passes) :
      pass' ∈ st.passes ∨ pass' = { pass with stage } := List.mem_or_eq_of_mem_set h
  refine { kept with safe := fun d => ?_, layered := layered, started := fun pass' h => ?_ }
  · refine (safe d).seen ?_
    rintro T seen ⟨pass', h, rfl, rfl⟩
    rcases among pass' h with old | rfl
    · exact ⟨(safe d).begun _ _ ⟨pass', old, rfl, rfl⟩,
        fun r hr => Or.inl ⟨_, ⟨pass', old, rfl, rfl⟩, hr⟩⟩
    · refine ⟨(safe d).begun _ _ ⟨pass, mem, rfl, rfl⟩, fun r hr => ?_⟩
      exact (saw d r hr).imp_left fun before => ⟨_, ⟨pass, mem, rfl, rfl⟩, before⟩
  · rcases among pass' h with old | rfl
    · exact kept.started pass' old
    · exact kept.started pass mem

/-- A page of memberships, all of which the sweep has read. -/
theorem Kept.swept (kept : Kept oci k options pushed st) {i : Nat} {pass : Pass}
    {cursor : Option Key} (mem : pass ∈ st.passes) (at_ : pass.stage = .memberships cursor)
    (whole : Whole st.store cursor) :
    Kept oci k options pushed (st.turn i pass
      (st.store.sweepRepoBlobs cursor PURGE_STEP (ago pass.started k.grace) false).2
      (match (st.store.scan .repoBlobs cursor PURGE_STEP).next with
        | some next => .memberships (some next)
        | none => .blobs none)) := by
  have started := kept.started pass mem
  refine kept.turn mem (fun d => Store.safe_sweepRepoBlobs (kept.safe d)) ?_ fun d r seen => ?_
  · simp only [Store.sweepRepoBlobs, Bool.false_eq_true, if_false]
    refine kept.layered.congr (fun r m => Store.get_apply_of_effect ?_) fun d r m =>
      Store.get_apply_of_effect ?_
    · exact Store.retractBatch_other (fun _ _ _ => by simp) fun _ _ => by simp
    · exact Store.retractBatch_other (fun _ _ _ => by simp) fun _ _ => by simp
  · by_cases before : pass.stage.seen d r
    · exact Or.inl before
    · refine Or.inr fun a h => ?_
      have page : .repoBlob r d ∈
          (st.store.scan .repoBlobs cursor PURGE_STEP).entries.map Prod.fst := by
        have after : ∀ c ∈ cursor, c < .repoBlob r d := by
          rintro c rfl
          rw [at_] at before
          exact not_le.mp before
        obtain ⟨record, stored, -⟩ := Store.kept_eq_some.mp h
        have member : (r, d, record) ∈ st.store.members := by
          rw [Store.mem_members]
          simp only [Store.sweepRepoBlobs, Bool.false_eq_true, if_false, Store.get_apply] at stored
          cases effect : WriteBatch.effect (Store.retractBatch (st.store.staleMemberships
            (ago pass.started k.grace) (st.store.scan .repoBlobs cursor PURGE_STEP).entries))
            (.repoBlob r d) with
          | none => simpa only [effect, Option.getD_none] using stored
          | some v =>
            by_cases stale : (r, d) ∈ st.store.staleMemberships (ago pass.started k.grace)
              (st.store.scan .repoBlobs cursor PURGE_STEP).entries
            · rw [Store.retractBatch_gone stale] at stored
              cases stored
            · rw [Store.retractBatch_membership stale] at effect
              cases effect
        refine (whole _ member after).resolve_right ?_
        rintro ⟨n, hn, beyond⟩
        rw [Option.mem_def] at hn
        rw [hn] at seen
        exact absurd seen (not_le.mpr beyond)
      rcases Store.kept_of_swept page h with young | named
      · rw [secs_ago] at young
        exact Or.inl (by omega)
      · exact Or.inr named

/-- A page of blobs, marked in time. -/
theorem Kept.scanned (kept : Kept oci k options pushed st) {i : Nat} {pass : Pass}
    {cursor : Option Key} {stage : Stage} (mem : pass ∈ st.passes)
    (at_ : pass.stage = .blobs cursor) (inTime : st.clock.secs ≤ pass.started.secs + k.delay)
    (stamped : Stamped st.store k.grace pass cursor) :
    Kept oci k options pushed (st.turn i pass
      (st.store.scanBlobs cursor PURGE_STEP (ago pass.started k.grace) pass.started false).2
      stage) := by
  refine kept.turn mem (fun d => Store.safe_scanBlobs (kept.safe d) inTime ?_) ?_ fun d r _ => ?_
  · intro record verdict r a h
    obtain ⟨member, stored, rfl⟩ := Store.kept_eq_some.mp h
    exact stamped _ verdict rfl _ (Store.mem_members.mpr stored) rfl
  · simp only [Store.scanBlobs, Bool.false_eq_true, if_false]
    refine kept.layered.congr (fun r m => Store.get_apply_of_effect ?_) fun d r m =>
      Store.get_apply_of_effect ?_
    · exact Store.markBatch_other fun _ => by simp
    · exact Store.markBatch_other fun _ => by simp
  · rw [at_]
    exact Or.inl trivial

/-- A ripe blob, collected if it still is. -/
theorem Kept.collected (kept : Kept oci k options pushed st) {i : Nat} {pass : Pass} {stage : Stage}
    {digest : Digest} {digests : List Digest} {next : Option Key} (mem : pass ∈ st.passes)
    (at_ : pass.stage = .ripe (digest :: digests) next) :
    Kept oci k options pushed
      (st.turn i pass (st.store.collectBlob digest (ago pass.started k.grace)).2 stage) := by
  have started := kept.started pass mem
  have all (d : Digest) (r : RepoId) : pass.stage.seen d r := by rw [at_]; trivial
  have cutoff : (ago pass.started k.grace).secs + k.grace = pass.started.secs := by
    rw [secs_ago]
    omega
  refine kept.turn mem (fun d => Store.safe_collectBlob (kept.safe d) ⟨pass, mem, rfl, rfl⟩ (all d)
    cutoff digest) ?_ fun d r _ => Or.inl (all d r)
  have plain (key : Key) (h : key.aboutBlobs = false ∨ ∃ d r m, key = .blobRef d r m) :
      (st.store.collectBlob digest (ago pass.started k.grace)).2.get key = st.store.get key := by
    unfold Store.collectBlob
    split
    · split
      · rfl
      · split
        · rfl
        · refine Store.get_apply_of_effect ?_
          rcases h with h | ⟨d, r, m, rfl⟩
          · cases key <;> simp_all [MetaOp.effect, Key.aboutBlobs]
          · simp [MetaOp.effect]
    · rfl
  exact kept.layered.congr (fun r m => plain _ (Or.inl rfl)) fun d r m => plain _ (Or.inr ⟨d, r, m, rfl⟩)

theorem Kept.advance (kept : Kept oci k options pushed st) {i : Nat} {pass : Pass}
    (mem : pass ∈ st.passes) (heeds : pass.Heeds k st) (h : st.advance k.grace i pass = some st') :
    Kept oci k options pushed st' := by
  have same (stage : Stage) (all : ∀ d r, pass.stage.seen d r) :
      Kept oci k options pushed (st.turn i pass st.store stage) :=
    kept.turn mem kept.safe kept.layered fun d r _ => Or.inl (all d r)
  unfold State.advance at h
  unfold Pass.Heeds at heeds
  cases at_ : pass.stage with
  | memberships cursor =>
    rw [at_] at h heeds
    cases h
    exact kept.swept mem at_ heeds
  | blobs cursor =>
    rw [at_] at h heeds
    cases h
    exact kept.scanned mem at_ heeds.1 heeds.2
  | ripe digests next =>
    rw [at_] at h
    cases digests with
    | cons digest digests =>
      cases h
      exact kept.collected mem at_
    | nil =>
      have all (d : Digest) (r : RepoId) : pass.stage.seen d r := by rw [at_]; trivial
      cases next <;> cases h <;> exact same _ all
  | ended =>
    rw [at_] at h
    cases h

theorem Kept.step (kept : Kept oci k options pushed st)
    (validates : options.validateReferences = true) {act : Act} (heeds : Heeds k st act)
    (this : ∀ put extraTags, act = .plan (.putManifest put extraTags) → pushed put)
    (h : step oci k.grace st act = some st') : Kept oci k options pushed st' := by
  have quiet {registry : Registry} (quiet : Quiet st.registry registry) :
      Kept oci k options pushed { st with registry } :=
    kept.later quiet (Nat.le_refl _) (fun plan mem => mem) fun pass mem => Or.inl mem
  cases act with
  | tick now =>
    simp only [Layers.step, Option.ite_none_right_eq_some, Option.some.injEq] at h
    obtain ⟨on, rfl⟩ := h
    exact kept.later (quiet_of_store rfl rfl) (Nat.div_le_div_right on) (fun plan mem => mem)
      fun pass mem => Or.inl mem
  | plan op =>
    cases h
    have own (put : ManifestPut) (h : op.push = some put) : pushed put := by
      cases op <;> cases h
      exact this put _ rfl
    obtain ⟨quiet, careful⟩ := careful_plan (kept.limits ▸ validates) own
    exact kept.planned quiet fun batch h => kept.limits ▸ careful batch h
  | planCommit repo digest size now =>
    cases h
    exact kept.planCommit repo digest size now
  | planMount repo digest from_ now =>
    cases h
    exact kept.planMount repo digest from_ now
  | apply i =>
    obtain ⟨plan, taken, rfl⟩ := Option.map_eq_some_iff.mp h
    exact kept.apply taken (heeds plan taken)
  | retireRepo repo live internedBefore =>
    cases h
    exact quiet quiet_retireRepo
  | addPullCounts deltas =>
    cases h
    exact quiet quiet_addPullCounts
  | restart entries =>
    cases h
    exact kept.later (quiet_of_store rfl rfl) (Nat.le_refl _) (fun plan mem => by cases mem)
      fun pass mem => by cases mem
  | purge =>
    cases h
    refine kept.later (quiet_of_store rfl rfl) (Nat.le_refl _) (fun plan mem => mem) fun pass mem => ?_
    exact (List.mem_append.mp mem).imp_right List.mem_singleton.mp
  | advance i =>
    obtain ⟨pass, taken, h⟩ := Option.bind_eq_some_iff.mp h
    exact kept.advance (List.mem_of_getElem? taken) (heeds pass taken) h

end Steps

/-! ## Runs -/

/-- What a push of the run made, and the blobs of its manifest. -/
def Complete (oci : Oci) (options : RegistryOptions) (acts : List Act) (s : Store) : Prop :=
  ∀ repo digest record, s.manifestRecord repo digest = some record →
    ∃ (c : CheckedPut) (extraTags : List Text), .plan (.putManifest c.put extraTags) ∈ acts ∧
      checkPut oci options c.put = .ok c ∧ c.digest = digest ∧ record = c.record repo ∧
      ∀ desc ∈ c.parsed.blobs, desc.foreign = false → (s.blobRecord desc.digest).isSome = true

/-- A blob that is committed within a pass, marked by it as of before, and collected an
hour after that mark while a push of it is between its plan and its application. -/
def marksEarly : List Act :=
  [.purge, .advance 0, .tick (.fromSecs 10001),
    .planCommit "app".toList emptyConfig 2 (.fromSecs 10001), .apply 0, .advance 0, .advance 0,
    .tick (.fromSecs 13600), .purge, .advance 1, .advance 1, .plan (.putManifest imagePut []),
    .advance 1, .apply 0]

theorem marksEarly_loses : ∃ st,
    Transition.exec (step imageOci 3600) (start {} 2 (.fromSecs 10000)) marksEarly = some st ∧
      st.store.manifestRecord 0 emptyImage.digest = some (checkedImage.record 0) ∧
      st.store.blobRecord emptyConfig = none := by
  have facts : (Transition.exec (step imageOci 3600) (start {} 2 (.fromSecs 10000)) marksEarly).map
      (fun st => decide (st.store.manifestRecord 0 emptyImage.digest = some (checkedImage.record 0)) &&
        decide (st.store.blobRecord emptyConfig = none)) = some true := by decide +kernel
  obtain ⟨st, run, h⟩ := Option.map_eq_some_iff.mp facts
  rw [Bool.and_eq_true, decide_eq_true_eq, decide_eq_true_eq] at h
  exact ⟨st, run, h⟩

end Layers

end Summ
