import Summ.Lib.Sections
import Summ.Serial.Planned
import Summ.Serial.TagKeys

/-!
# Tag writes under the lock of their name

A push and a delete take the lock of their repository, and one blocking task under it
reads the store, plans one batch and applies it. A request may be dropped anywhere, and
other calls come anywhere between. The locks are a fixed array, and names are hashed
to it.

While no request is dropped within its task, tags and reverse keys agree in every
state (`tag_lock`): what a batch was planned on is there when it is applied, or the
repository is gone. A drop within a task frees the lock and not the task
(`dropped_strands_edge`).
-/

namespace Summ

namespace TagLock

def SHARDS : Nat := 256

/-- `RepoLocks::of`: the hash of the name is the standard library's. -/
def shard (hash : Text → Nat) (name : Text) : Nat := hash name % SHARDS

/-- The requests that write manifests and tags. -/
def locks : Operation → Option Text
  | .putManifest put _ => some put.repo
  | .deleteTag repo .. | .deleteManifest repo .. | .purgeManifest repo .. => some repo
  | _ => none

inductive Step
  | plan
  | apply

/-- The request, and what its task has planned for which repository. -/
structure Memory where
  op : Operation
  planned : Option (RepoId × WriteBatch) := none

/-- What happens beside: another call, or a push that plans once without the lock to
learn the digest its body is archived under. -/
inductive Beside
  | call (c : Call)
  | plan (op : Operation)

variable (oci : Oci) (hash : Text → Nat)

def work (op : Operation) : Sections.Work Step Memory :=
  match locks op with
  | some name => { lock := shard hash name, tasks := [[.plan, .apply]], memory := { op } }
  | none => { lock := 0, tasks := [], memory := { op } }

def run : Step → Memory → System → Memory × System
  | .plan, memory, sys =>
    let (batch, registry) := memory.op.plan oci sys.registry
    let id := (locks memory.op).bind registry.store.repoByName
    ({ memory with planned := id.bind fun id => batch.map fun batch => (id, batch) },
      sys.withRegistry registry)
  | .apply, memory, sys =>
    ({ memory with planned := none }, match memory.planned with
      | some (_, batch) => sys.applying batch
      | none => sys)

def beside : Beside → System → Option System
  | .call c, sys => if c.retags then none else sys.step oci c
  | .plan op, sys => some (sys.withRegistry (op.plan oci sys.registry).2)

def program : Sections.Program System Beside Operation Step Memory where
  work := work hash
  run := run oci
  other := beside oci

end TagLock

/-! ## What a batch is due to find -/

namespace Store

/-- The same manifests, tags and edges in one repository. -/
def Agrees (s t : Store) (id : RepoId) : Prop :=
  ∀ k, k.repo = some id → k.aboutManifests = true → t.get k = s.get k

variable {s t u : Store} {id : RepoId}

theorem Agrees.refl (s : Store) (id : RepoId) : s.Agrees s id := fun _ _ _ => rfl

theorem Agrees.trans (first : s.Agrees t id) (second : t.Agrees u id) : s.Agrees u id :=
  fun k hk about => (second k hk about).trans (first k hk about)

theorem Agrees.apply (agrees : s.Agrees t id) (batch : WriteBatch) :
    (s.apply batch).Agrees (t.apply batch) id := by
  intro k hk about
  rw [get_apply, get_apply, agrees k hk about]

theorem SameContents.agrees (same : s.SameContents t) : s.Agrees t id := by
  intro k hk about
  exact same k (by cases k <;> first | rfl | cases about)

theorem agrees_within {batch : WriteBatch} {other : RepoId} (within : batch.Within other)
    (ne : id ≠ other) : s.Agrees (s.apply batch) id := fun _ hk _ =>
  get_apply_of_effect (WriteBatch.effect_of_within within (Key.not_mayTouch hk ne))

/-- A store that agrees with an indexed one in each repository is indexed. -/
theorem tagsIndexed_of_agrees (h : ∀ id, ∃ s : Store, s.TagsIndexed ∧ s.Agrees t id) :
    t.TagsIndexed where
  reverse id tag d := by
    obtain ⟨s, indexed, agrees⟩ := h id
    rw [tagDigest_congr (agrees _ rfl rfl), has, agrees _ rfl rfl]
    exact indexed.reverse id tag d
  stored id tag d points := by
    obtain ⟨s, indexed, agrees⟩ := h id
    rw [tagDigest_congr (agrees _ rfl rfl)] at points
    rw [manifestRecord_congr (agrees _ rfl rfl)]
    exact indexed.stored id tag d points

/-- A batch that writes no tag and no reverse key leaves an empty store indexed. -/
theorem tagsIndexed_of_deletes {batch : WriteBatch}
    (tags : ∀ id tag v, batch.effect (.tag id tag) ≠ some (some v))
    (edges : ∀ id d tag v, batch.effect (.manifestTag id d tag) ≠ some (some v)) :
    ((∅ : Store).apply batch).TagsIndexed := by
  have no_tag (id : RepoId) (tag : Tag) : ((∅ : Store).apply batch).tagDigest id tag = none := by
    rw [tagDigest_eq, get_apply]
    cases he : batch.effect (.tag id tag) with
    | none => rfl
    | some v =>
      cases v with
      | none => rfl
      | some v => exact absurd he (tags id tag v)
  have no_edge (id : RepoId) (d : Digest) (tag : Tag) :
      ((∅ : Store).apply batch).has (.manifestTag id d tag) = false := by
    rw [has_apply]
    cases he : batch.effect (.manifestTag id d tag) with
    | none => rfl
    | some v =>
      cases v with
      | none => rfl
      | some v => exact absurd he (edges id d tag v)
  exact ⟨fun id tag d => by simp [no_tag, no_edge], fun id tag d h => by simp [no_tag] at h⟩

/-- So does the batch of a push. -/
theorem tagsIndexed_push_empty {repo : RepoId} {c : CheckedPut} {ts : List Tag} :
    ((∅ : Store).apply (s.pushBatch repo c ts)).TagsIndexed where
  reverse id tag d := by
    have none_ (k : Key) : (∅ : Store).has k = false := rfl
    rw [tagDigest_eq, get_apply, has_apply, pushBatch_tag, pushBatch_manifestTag]
    by_cases own : repo = id ∧ tag ∈ ts
    · rw [if_pos own, if_pos own]
      by_cases same : c.digest = d
      · simp [same]
      · by_cases old : s.tagDigest repo tag = some d <;> simp [same, old, none_]
    · simp [own, none_]
  stored id tag d h := by
    rw [tagDigest_eq, get_apply, pushBatch_tag] at h
    unfold manifestRecord
    rw [get_apply, pushBatch_manifest]
    by_cases own : repo = id ∧ tag ∈ ts
    · rw [if_pos own] at h
      obtain rfl : c.digest = d := Option.some.inj h
      rw [if_pos ⟨own.1, rfl⟩]
      rfl
    · simp [own] at h

end Store

namespace TagLock

/-- A batch planned under a name: its repository has no other name, and the batch
leaves an indexed repository indexed, whether it is as it was planned on or empty. -/
structure Due (sys : System) (op : Operation) (id : RepoId) (batch : WriteBatch) : Prop where
  named : ∃ name, locks op = some name ∧ ∀ n, sys.store.repoById id = some n → n = name
  issued : id < sys.store.nextId
  within : batch.Within id
  anew : ((∅ : Store).apply batch).TagsIndexed
  fits : ∃ s : Store, (s.apply batch).TagsIndexed ∧ s.Agrees sys.store id

/-- What a task plans for a repository. -/
structure Tidy (s : Store) (id : RepoId) (batch : WriteBatch) : Prop where
  within : batch.Within id
  anew : ((∅ : Store).apply batch).TagsIndexed
  keeps : s.TagsIndexed → (s.apply batch).TagsIndexed

section Tidy
variable {s : Store} {id : RepoId}

theorem tidy_push (c : CheckedPut) (ts : List Tag) : Tidy s id (s.pushBatch id c ts) where
  within := Store.pushBatch_within c ts
  anew := Store.tagsIndexed_push_empty
  keeps indexed := Store.tagsIndexed_push indexed

theorem tidy_deleteTag {tag : Tag} {digest : Digest} {manifest : Option ManifestRecord}
    {now : Timestamp} (points : s.tagDigest id tag = some digest) :
    Tidy s id (deleteTagOps id tag digest manifest now) where
  within := deleteTagOps_within _ _
  anew := by
    refine Store.tagsIndexed_of_deletes (fun id u v => ?_) fun id d u v => ?_
    · rw [deleteTagOps_tag]
      split <;> simp
    · rw [deleteTagOps_manifestTag]
      split <;> simp
  keeps indexed := Store.tagsIndexed_deleteTag indexed points

theorem tidy_manifestDelete {digest : Digest} {record : ManifestRecord} {now : Timestamp} :
    Tidy s id (s.manifestDeleteBatch id digest record now) where
  within := Store.manifestDeleteBatch_within _ _ _
  anew := by
    refine Store.tagsIndexed_of_deletes (fun id u v => ?_) fun id d u v => ?_
    · rw [Store.manifestDelete_tag]
      split <;> simp
    · rw [Store.manifestDelete_manifestTag]
      split <;> simp
  keeps indexed := Store.tagsIndexed_manifestDelete indexed

theorem tidy_nil : Tidy s id [] where
  within := WriteBatch.within_nil
  anew := Store.tagsIndexed_empty
  keeps indexed := indexed

end Tidy

section Planning
variable {oci : Oci} {r : Registry} {α : Type} {name : Text}
  {plan : Store → RepoId → Except RegistryError (Planned α)} {P : Store → RepoId → WriteBatch → Prop}

theorem of_planIn (cached : r.Cached)
    (spec : ∀ id p, plan r.store id = .ok p → P r.store id p.batch) {batch : WriteBatch}
    (h : (r.planIn name plan).1.toOption.map Planned.batch = some batch) :
    ∃ id, (r.planIn name plan).2.store.repoByName name = some id ∧
      P (r.planIn name plan).2.store id batch := by
  obtain ⟨id, p, required, planned, rfl⟩ := Registry.batch_of_planIn h
  rw [Registry.planIn_snd, Registry.requireRepo_store]
  exact ⟨id, Registry.requireRepo_ok cached required, spec id p planned⟩

theorem of_planInterned (cached : r.Cached)
    (spec : ∀ s id p, plan s id = .ok p → P s id p.batch) {batch : WriteBatch}
    (h : (r.planInterned name plan).1.toOption.map Planned.batch = some batch) :
    ∃ id, (r.planInterned name plan).2.store.repoByName name = some id ∧
      P (r.planInterned name plan).2.store id batch := by
  obtain ⟨id, p, interned, planned, rfl⟩ := Registry.batch_of_planInterned h
  refine ⟨id, ?_, spec _ id p planned⟩
  rw [Registry.planInterned_snd]
  exact ((Registry.internRepo_spec cached name).1 id interned).live

/-- What the task of a request plans is for the repository its name resolves to. -/
theorem plan_tidy (cached : r.Cached) {op : Operation} {batch : WriteBatch}
    (locked : locks op = some name) (h : (op.plan oci r).1 = some batch) :
    ∃ id, (op.plan oci r).2.store.repoByName name = some id ∧
      Tidy (op.plan oci r).2.store id batch := by
  cases op with
  | putManifest put extraTags =>
    cases locked
    simp only [Operation.plan, Registry.planManifestPutTagged] at h ⊢
    cases checked : checkPut oci r.options put with
    | error e =>
      rw [checked] at h
      cases h
    | ok c =>
      rw [checked] at h
      refine of_planInterned cached (fun s id p hp => ?_) h
      obtain ⟨-, ts, -, hbatch⟩ := Store.planPush_ok hp
      rw [hbatch]
      exact tidy_push c ts
  | deleteTag repo tag now =>
    cases locked
    simp only [Operation.plan, Registry.planDeleteTag] at h ⊢
    refine of_planIn cached (fun id p hp => ?_) h
    obtain ⟨record, hrecord, hbatch⟩ := Store.planDeleteTag_ok hp
    rw [hbatch]
    exact tidy_deleteTag (by simp [Store.tagDigest, hrecord])
  | deleteManifest repo digest now =>
    cases locked
    simp only [Operation.plan, Registry.planManifestDelete] at h ⊢
    refine of_planIn cached (fun id p hp => ?_) h
    obtain ⟨record, -, hbatch⟩ := Store.planManifestDelete_ok hp
    rw [hbatch]
    exact tidy_manifestDelete
  | purgeManifest repo digest pushedBefore now =>
    cases locked
    simp only [Operation.plan] at h ⊢
    refine of_planIn cached (fun id p hp => ?_) h
    rcases Store.planPurgeManifest_ok hp with hbatch | ⟨record, -, -, hbatch⟩
    · rw [hbatch]
      exact tidy_nil
    · rw [hbatch]
      exact tidy_manifestDelete
  | _ => cases locked

end Planning

/-! ## What is due stays due -/

section Due
variable {oci : Oci} {sys sys' : System} {op : Operation} {id : RepoId} {batch : WriteBatch}

/-- Another step leaves the repository as it is, or takes all of it, and gives the id
no other name. -/
theorem Due.later (due : Due sys op id batch)
    (names : ∀ n, sys'.store.repoById id = some n → sys.store.repoById id = some n)
    (issued : id < sys'.store.nextId)
    (keeps : sys.store.Agrees sys'.store id ∨ (∅ : Store).Agrees sys'.store id) :
    Due sys' op id batch where
  named := by
    obtain ⟨name, locked, named⟩ := due.named
    exact ⟨name, locked, fun n h => named n (names n h)⟩
  issued := issued
  within := due.within
  anew := due.anew
  fits := by
    rcases keeps with same | gone
    · obtain ⟨s, indexed, agrees⟩ := due.fits
      exact ⟨s, indexed, agrees.trans same⟩
    · exact ⟨∅, due.anew, gone⟩

/-- What is due is applied to an indexed store. -/
theorem Due.applied (due : Due sys op id batch) (indexed : sys.store.TagsIndexed) :
    (sys.applying batch).store.TagsIndexed := by
  refine Store.tagsIndexed_of_agrees fun other => ?_
  by_cases own : other = id
  · subst own
    obtain ⟨s, indexed', agrees⟩ := due.fits
    exact ⟨s.apply batch, indexed', agrees.apply batch⟩
  · exact ⟨sys.store, indexed, Store.agrees_within due.within own⟩

/-- What is applied to another repository leaves it due. -/
theorem Due.beside (due : Due sys op id batch) {other : RepoId} (ne : id ≠ other)
    {batch' : WriteBatch} (within : batch'.Within other) :
    Due (sys.applying batch') op id batch := by
  have names : sys.store.SameNames (sys.store.apply batch') := Store.sameNames_within within
  refine due.later (fun n h => ?_) ?_ (Or.inl (Store.agrees_within within ne))
  · rw [← names.repoById]
    exact h
  · change id < (sys.store.apply batch').nextId
    rw [names.nextId]
    exact due.issued

theorem named_before {s t : Store} {name : Text} {i : RepoId} (h : s.Interned name i t)
    (issued : id < s.nextId) (n : Text) (live : t.repoById id = some n) : s.repoById id = some n := by
  cases h with
  | known stored => exact live
  | new absent room next =>
    subst next
    obtain ⟨ne, -, -⟩ := Names.succ_of_room room
    have other : id ≠ s.nextId := fun h => UInt32.lt_irrefl _ (h ▸ issued)
    rw [Store.internBatch_repoById _ ne, if_neg other] at live
    split at live
    · cases live
    · exact live

/-- Planning interns a name at most. -/
theorem Due.planned (due : Due sys op id batch) {push : Option ManifestPut}
    {result : Option WriteBatch × Registry} (plans : Plans oci sys.registry push result) :
    Due (sys.withRegistry result.2) op id batch := by
  rcases plans.interned with same | ⟨name, i, interned⟩
  · have store : (sys.withRegistry result.2).store = sys.store := same
    refine due.later ?_ ?_ (Or.inl ?_) <;> rw [store]
    · exact fun n h => h
    · exact due.issued
    · exact Store.Agrees.refl _ _
  · exact due.later (named_before interned due.issued) (interned.issued due.issued)
      (Or.inl interned.sameContents.agrees)

/-- So does a call that writes no manifest and no tag, but for the end of a sweep. -/
theorem Due.called (due : Due sys op id batch) (coherent : sys.Coherent) {c : Call} {accepted : Bool}
    (plain : c.retags = false) (h : sys.call oci c = some (accepted, sys')) :
    Due sys' op id batch := by
  have effect : Effect oci sys.registry.options sys.store c accepted sys'.store :=
    (System.effect_of_call coherent h).effect
  have issued : id < sys'.store.nextId := effect.issued coherent.named due.issued
  refine due.later (fun n live => ?_) issued ?_
  · rcases effect.names with names | ⟨name, i, u, -, interned, names⟩ | ⟨name, i, -, mapped, un, -⟩
    · rwa [← names.repoById]
    · exact named_before interned due.issued n (by rwa [← names.repoById])
    · rw [un.repoById] at live
      split at live
      · cases live
      · exact live
  · have edit := effect.edit
    generalize sys'.store = t at edit
    cases edit with
    | push pushes => subst pushes; cases plain
    | setTag record retags => rw [plain] at retags; cases retags
    | deleteTag points retags => rw [plain] at retags; cases retags
    | deleteManifest stored retags => rw [plain] at retags; cases retags
    | @finishSweep i swept finishes =>
      by_cases own : id = swept
      · subst own
        refine Or.inr fun k hk about => ?_
        have dropped : k.dropped id = true := by
          cases k <;> cases hk <;> simp_all [Key.dropped, Key.repo, Key.aboutManifests]
        rw [Store.get_apply, sweepFinishBatch_effect, if_pos dropped]
        rfl
      · refine Or.inl fun k hk about => Store.get_apply_of_effect ?_
        rw [sweepFinishBatch_effect, if_neg]
        cases k <;> cases hk <;> simp_all [Key.dropped, Key.repo]
    | none same => exact Or.inl same.agrees

end Due

/-! ## Runs -/

/-- All that is shared: the caches are right, and tags and reverse keys agree. -/
structure Shared (sys : System) : Prop where
  coherent : sys.Coherent
  indexed : sys.store.TagsIndexed

/-- A request holds the lock of its name, and what it has planned is due. -/
structure Knows (hash : Text → Nat) (w : Sections.Work Step Memory) (sys : System) : Prop where
  lock : ∀ name, locks w.memory.op = some name → w.lock = shard hash name
  due : ∀ id batch, w.memory.planned = some (id, batch) → Due sys w.memory.op id batch

/-- Two requests have planned for different repositories. -/
def Apart (w w' : Sections.Work Step Memory) : Prop :=
  ∀ id batch id' batch', w.memory.planned = some (id, batch) →
    w'.memory.planned = some (id', batch') → id ≠ id'

section Rules
variable {oci : Oci} {hash : Text → Nat} {sys : System} {w w' : Sections.Work Step Memory}

theorem shared_planned (shared : Shared sys) (op : Operation) :
    Shared (sys.withRegistry (op.plan oci sys.registry).2) := by
  have plans : Plans oci sys.registry op.push (op.plan oci sys.registry) :=
    Operation.plan_spec shared.coherent.cached op
  refine ⟨System.coherent_planned shared.coherent plans, ?_⟩
  rcases plans.interned with same | ⟨name, id, interned⟩
  · have store : (sys.withRegistry (op.plan oci sys.registry).2).store = sys.store := same
    rw [store]
    exact shared.indexed
  · exact shared.indexed.of_same interned.sameContents.records

/-- What the task plans, once it has read the store. -/
theorem due_of_plan (shared : Shared sys) {op : Operation} {id : RepoId} {batch : WriteBatch}
    (made : ((locks op).bind (op.plan oci sys.registry).2.store.repoByName).bind
      (fun id => (op.plan oci sys.registry).1.map fun batch => (id, batch)) = some (id, batch)) :
    ∃ name, locks op = some name ∧
      (op.plan oci sys.registry).2.store.repoById id = some name ∧
      Due (sys.withRegistry (op.plan oci sys.registry).2) op id batch := by
  have after : Shared (sys.withRegistry (op.plan oci sys.registry).2) := shared_planned shared op
  obtain ⟨id', resolved, made⟩ := Option.bind_eq_some_iff.mp made
  obtain ⟨name, locked, resolved⟩ := Option.bind_eq_some_iff.mp resolved
  obtain ⟨batch', planned, same⟩ := Option.map_eq_some_iff.mp made
  cases same
  obtain ⟨id', named, tidy⟩ := plan_tidy shared.coherent.cached locked planned
  obtain rfl : id = id' := Option.some.inj (resolved.symm.trans named)
  have back := (after.coherent.named.inverse name id).mp named
  refine ⟨name, locked, back, ⟨name, locked, fun n live => ?_⟩, ?_, tidy.within, tidy.anew, ?_⟩
  · exact (Option.some.inj (back.symm.trans live)).symm
  · exact after.coherent.named.issued name id named
  · exact ⟨_, tidy.keeps after.indexed, Store.Agrees.refl _ _⟩

theorem rules : Sections.Rules (program oci hash) Shared (Knows hash) Apart where
  symm w w' apart id batch id' batch' h h' := (apart id' batch' id batch h' h).symm
  enter sys op shared := by
    have none_ : (work hash op).memory.planned = none ∧ (work hash op).memory.op = op := by
      unfold work
      split <;> exact ⟨rfl, rfl⟩
    refine ⟨⟨fun name locked => ?_, fun id batch h => ?_⟩, fun w _ id batch id' batch' h => ?_⟩
    · change (work hash op).lock = _
      change locks (work hash op).memory.op = _ at locked
      rw [none_.2] at locked
      simp only [work, locked]
    · change (work hash op).memory.planned = _ at h
      rw [none_.1] at h
      cases h
    · change (work hash op).memory.planned = _ at h
      rw [none_.1] at h
      cases h
  keeps sys w i is rest _ shared knows := by
    cases i with
    | plan =>
      refine ⟨shared_planned shared w.memory.op, knows.lock, fun id batch h => ?_⟩
      obtain ⟨-, -, -, due⟩ := due_of_plan shared h
      exact due
    | apply =>
      simp only [program, run]
      refine ⟨?_, knows.lock, fun id batch h => by cases h⟩
      cases planned : w.memory.planned with
      | none => exact shared
      | some entry =>
        obtain ⟨id, batch⟩ := entry
        have due := knows.due id batch planned
        exact ⟨System.coherent_applying shared.coherent due.issued due.within,
          due.applied shared.indexed⟩
  spares sys w i is rest w' _ shared knows locks_ apart knows' := by
    cases i with
    | plan =>
      have plans : Plans oci sys.registry w.memory.op.push (w.memory.op.plan oci sys.registry) :=
        Operation.plan_spec shared.coherent.cached w.memory.op
      refine ⟨⟨knows'.lock, fun id batch h => (knows'.due id batch h).planned plans⟩, ?_⟩
      intro id batch id' batch' h h'
      obtain ⟨name, locked, live, -⟩ := due_of_plan shared h
      obtain ⟨name', locked', named⟩ := ((knows'.due id' batch' h').planned plans).named
      rintro rfl
      obtain rfl : name = name' := named name live
      exact locks_ ((knows'.lock name locked').trans (knows.lock name locked).symm)
    | apply =>
      simp only [program, run]
      refine ⟨⟨knows'.lock, fun id batch h => ?_⟩, fun id batch id' batch' h => by cases h⟩
      cases planned : w.memory.planned with
      | none => exact knows'.due id batch h
      | some entry =>
        obtain ⟨other, batch'⟩ := entry
        exact (knows'.due id batch h).beside (apart other batch' id batch planned h).symm
          (knows.due other batch' planned).within
  next sys w rest _ knows := ⟨⟨knows.lock, knows.due⟩, fun w' apart => apart⟩
  other a sys sys' h shared := by
    cases a with
    | call c =>
      simp only [program, beside, Option.ite_none_left_eq_some, Bool.not_eq_true] at h
      obtain ⟨plain, h⟩ := h
      obtain ⟨⟨accepted, after⟩, called, rfl⟩ := Option.map_eq_some_iff.mp h
      have effect : Effect oci sys.registry.options sys.store c accepted after.store :=
        (System.effect_of_call shared.coherent called).effect
      exact ⟨⟨System.coherent_of_call shared.coherent called, effect.edit.tagsIndexed shared.indexed⟩,
        fun w knows => ⟨knows.lock, fun id batch h =>
          (knows.due id batch h).called shared.coherent plain called⟩⟩
    | plan op =>
      cases h
      exact ⟨shared_planned shared op, fun w knows => ⟨knows.lock, fun id batch h =>
        (knows.due id batch h).planned (Operation.plan_spec shared.coherent.cached op)⟩⟩

end Rules

end TagLock

/-- What is shared stays so in every run of requests in turns, with others beside. -/
theorem TagLock.shared_reached {oci : Oci} {hash : Text → Nat} {options : RegistryOptions}
    {entries : Nat} {acts : List (Sections.Act TagLock.Beside Operation)}
    {stage : Sections.Stage System TagLock.Step TagLock.Memory}
    (meets : Transition.Meets (Sections.step (TagLock.program oci hash)) Sections.Heeds
      { shared := .start options entries } acts)
    (run : Transition.exec (Sections.step (TagLock.program oci hash))
      { shared := .start options entries } acts = some stage) :
    TagLock.Shared stage.shared := by
  have shared : TagLock.Shared (.start options entries) :=
    ⟨System.coherent_start options entries, Store.tagsIndexed_empty⟩
  exact (Sections.sections_hold TagLock.rules shared meets run).inv

/-- In every run of pushes and deletes under the locks of their names, with every other
call anywhere between, in which no request is dropped within its task: a tag resolves
to a manifest exactly when the manifest has its reverse key, and the manifest is
stored. -/
theorem tag_lock (oci : Oci) (hash : Text → Nat) (options : RegistryOptions) (entries : Nat)
    {acts : List (Sections.Act TagLock.Beside Operation)}
    {stage : Sections.Stage System TagLock.Step TagLock.Memory}
    (meets : Transition.Meets (Sections.step (TagLock.program oci hash)) Sections.Heeds
      { shared := .start options entries } acts)
    (run : Transition.exec (Sections.step (TagLock.program oci hash))
      { shared := .start options entries } acts = some stage) :
    stage.shared.store.TagsIndexed :=
  (TagLock.shared_reached meets run).indexed

namespace TagLock

/-- A push, a push of the same manifest under a tag, and its delete. -/
def pushTagDelete : List Operation :=
  [pushIndex emptyIndex (.digest emptyIndex.digest) 1, pushIndex emptyIndex (.tag latestTag) 2,
    .deleteManifest "app".toList emptyIndex.digest (.fromSecs 3)]

/-- The first request alone, and the other two in turns. -/
def inTurns : List (Sections.Act Beside Operation) :=
  pushTagDelete.map .arrive ++
    [.enter 0, .work 0, .other (.call (.deleteRepository "lib".toList (.fromSecs 2))), .work 0,
      .proceed 0, .enter 1, .work 1, .work 1, .proceed 1, .enter 2, .work 2, .work 2]

/-- The second request is dropped between its plan and its batch, and the third has
the lock. -/
def droppedWithin : List (Sections.Act Beside Operation) :=
  pushTagDelete.map .arrive ++
    [.enter 0, .work 0, .work 0, .proceed 0, .enter 1, .work 1, .drop 1, .enter 2, .work 2, .work 1,
      .work 2]

end TagLock

theorem tag_lock_inTurns : ∃ stage,
    Transition.exec (Sections.step (TagLock.program indexOci List.length))
      { shared := .start {} 1 } TagLock.inTurns = some stage ∧
      stage.shared.store.TagsIndexed := by
  have meets : Transition.Meets (Sections.step (TagLock.program indexOci List.length))
      Sections.Heeds { shared := .start {} 1 } TagLock.inTurns := by decide +kernel
  obtain ⟨stage, run⟩ : ∃ stage,
      Transition.exec (Sections.step (TagLock.program indexOci List.length))
        { shared := .start {} 1 } TagLock.inTurns = some stage :=
    Option.isSome_iff_exists.mp (by decide +kernel)
  exact ⟨stage, run, tag_lock indexOci List.length {} 1 meets run⟩

/-- The tag is left on a manifest that is not there. -/
theorem dropped_strands_edge : ∃ stage,
    Transition.exec (Sections.step (TagLock.program indexOci List.length))
      { shared := .start {} 1 } TagLock.droppedWithin = some stage ∧
      ¬stage.shared.store.TagsIndexed := by
  have facts : (Transition.exec (Sections.step (TagLock.program indexOci List.length))
      { shared := .start {} 1 } TagLock.droppedWithin).map (fun stage =>
        decide (stage.shared.store.tagDigest 0 latestTag = some emptyIndex.digest) &&
        !(stage.shared.store.manifestRecord 0 emptyIndex.digest).isSome) = some true := by
    decide +kernel
  obtain ⟨stage, run, h⟩ := Option.map_eq_some_iff.mp facts
  rw [Bool.and_eq_true, decide_eq_true_eq, Bool.not_eq_true'] at h
  refine ⟨stage, run, fun indexed => ?_⟩
  have stored := indexed.stored 0 latestTag emptyIndex.digest h.1
  rw [h.2] at stored
  cases stored

/-! ## One name: one request after the other -/

namespace TagLock

variable {oci : Oci} {hash : Text → Nat} {name : Text} {start : System}

/-- A request run alone plans and applies. -/
theorem run_of_plan {op : Operation} (locked : locks op = some name) (r : Registry) :
    op.run oci r = match (op.plan oci r).1 with
      | some batch => { (op.plan oci r).2 with store := (op.plan oci r).2.store.apply batch }
      | none => (op.plan oci r).2 := by
  cases op with
  | putManifest put extraTags =>
    simp only [Operation.run, Operation.plan, Registry.putManifest]
    rcases r.planManifestPutTagged oci put extraTags with ⟨e | p, r'⟩ <;> rfl
  | deleteTag repo tag now =>
    simp only [Operation.run, Operation.plan, Registry.deleteTag]
    rcases r.planDeleteTag repo tag now with ⟨e | p, r'⟩ <;> rfl
  | deleteManifest repo digest now =>
    simp only [Operation.run, Operation.plan, Registry.deleteManifest]
    rcases r.planManifestDelete repo digest now with ⟨e | p, r'⟩ <;> rfl
  | purgeManifest repo digest pushedBefore now =>
    simp only [Operation.run, Operation.plan, Registry.purgeManifest]
    rcases r.planIn repo fun s id => s.planPurgeManifest repo id digest pushedBefore now with
      ⟨e | p, r'⟩ <;> rfl
  | _ => cases locked

/-- The request of a party. -/
def opOf (stage : Sections.Stage System Step Memory) (p : Nat) : Option Operation :=
  stage.parties[p]?.map fun q => q.work.memory.op

/-- The requests that have applied, in the order they did. -/
def calls (stage : Sections.Stage System Step Memory) (order : List Nat) : List Call :=
  (order.filterMap (opOf stage)).map Call.operation

/-- A party has read the store, and not yet applied. -/
def Reading (q : Sections.Party Step Memory) : Prop :=
  q.inside = true ∧ q.work.tasks = [[.apply]]

/-- The requests of one name have run one after the other, but for one that has read. -/
structure Serial (oci : Oci) (hash : Text → Nat) (name : Text) (start : System)
    (stage : Sections.Stage System Step Memory) : Prop where
  holds : Sections.Holds (program oci hash) Shared (Knows hash) Apart stage
  named : ∀ (p : Nat) (q : Sections.Party Step Memory), stage.parties[p]? = some q →
    locks q.work.memory.op = some name ∧ q.work.lock = shard hash name
  shape : ∀ (p : Nat) (q : Sections.Party Step Memory), stage.parties[p]? = some q →
    q.work.tasks = [[.plan, .apply]] ∨ q.work.tasks = [[.apply]] ∨ q.work.tasks = [[]] ∨
      q.work.tasks = []
  order : ∃ (order : List Nat) (sys : System), order.Nodup ∧
    (∀ p ∈ order, ∃ q, stage.parties[p]? = some q ∧ (q.work.tasks = [[]] ∨ q.work.tasks = [])) ∧
    Transition.exec (System.step oci) start (calls stage order) = some sys ∧
    ((∀ q ∈ stage.parties, ¬Reading q) → stage.shared = sys) ∧
    ∀ q ∈ stage.parties, Reading q →
      stage.shared = sys.withRegistry (q.work.memory.op.plan oci sys.registry).2 ∧
        q.work.memory.planned.map Prod.snd = (q.work.memory.op.plan oci sys.registry).1

section Serial
variable {stage stage' : Sections.Stage System Step Memory}

/-- At most one party is inside. -/
theorem Serial.only (serial : Serial oci hash name start stage) {p p' : Nat}
    {q q' : Sections.Party Step Memory} (h : stage.parties[p]? = some q)
    (h' : stage.parties[p']? = some q') (inside : q.inside = true) (inside' : q'.inside = true) :
    p = p' := by
  by_contra ne
  exact (serial.holds.alone p p' q q' ne h h' inside inside').1
    ((serial.named p q h).2.trans (serial.named p' q' h').2.symm)

theorem calls_congr {order : List Nat} (same : ∀ p ∈ order, opOf stage' p = opOf stage p) :
    calls stage' order = calls stage order := by
  unfold calls
  rw [List.filterMap_congr same]

theorem opOf_set {p : Nat} {q q' : Sections.Party Step Memory} (h : stage.parties[p]? = some q)
    (op : q'.work.memory.op = q.work.memory.op) (shared : System) (r : Nat) :
    opOf { shared, parties := stage.parties.set p q' } r = opOf stage r := by
  unfold opOf
  rw [Pool.get_set h]
  split
  · rename_i same
    rw [same, h, Option.map_some, Option.map_some, op]
  · rfl

/-- A party moves, and reads and applies nothing. -/
theorem Serial.moved (serial : Serial oci hash name start stage) {p : Nat}
    {q q' : Sections.Party Step Memory} (h : stage.parties[p]? = some q)
    (holds : Sections.Holds (program oci hash) Shared (Knows hash) Apart
      { stage with parties := stage.parties.set p q' })
    (memory : q'.work.memory = q.work.memory) (lock : q'.work.lock = q.work.lock)
    (tasks : q'.work.tasks = q.work.tasks ∨ q.work.tasks = [[]] ∧ q'.work.tasks = [])
    (reading : Reading q' ↔ Reading q) :
    Serial oci hash name start { stage with parties := stage.parties.set p q' } := by
  obtain ⟨order, sys, nodup, done, ran, quiet, busy⟩ := serial.order
  have ops (r : Nat) : opOf { stage with parties := stage.parties.set p q' } r = opOf stage r :=
    opOf_set h (congrArg Memory.op memory) stage.shared r
  have at_p : ({ stage with parties := stage.parties.set p q' } :
      Sections.Stage System Step Memory).parties[p]? = some q' := by
    change (stage.parties.set p q')[p]? = some q'
    rw [Pool.get_set h, if_pos rfl]
  refine ⟨holds, fun r x hx => ?_, fun r x hx => ?_, order, sys, nodup, fun r hr => ?_, ?_, ?_, ?_⟩
  · rcases Pool.of_set h hx with ⟨rfl, rfl⟩ | ⟨-, hx⟩
    · rw [memory, lock]
      exact serial.named r q h
    · exact serial.named r x hx
  · rcases Pool.of_set h hx with ⟨rfl, rfl⟩ | ⟨-, hx⟩
    · rcases tasks with same | ⟨-, left⟩
      · rw [same]
        exact serial.shape r q h
      · exact Or.inr (Or.inr (Or.inr left))
    · exact serial.shape r x hx
  · obtain ⟨x, hx, past⟩ := done r hr
    by_cases own : r = p
    · subst own
      obtain rfl : x = q := Option.some.inj (hx.symm.trans h)
      refine ⟨q', at_p, ?_⟩
      rcases tasks with same | ⟨-, left⟩
      · rw [same]
        exact past
      · exact Or.inr left
    · refine ⟨x, ?_, past⟩
      change (stage.parties.set p q')[r]? = some x
      rw [Pool.get_set h, if_neg own, hx]
  · rw [calls_congr fun r _ => ops r]
    exact ran
  · intro none_
    refine quiet fun x hx reads => ?_
    obtain ⟨r, hr⟩ := List.mem_iff_getElem?.mp hx
    by_cases own : r = p
    · subst own
      obtain rfl : x = q := Option.some.inj (hr.symm.trans h)
      exact none_ q' (List.mem_of_getElem? at_p) (reading.mpr reads)
    · refine none_ x (List.mem_iff_getElem?.mpr ⟨r, ?_⟩) reads
      change (stage.parties.set p q')[r]? = some x
      rw [Pool.get_set h, if_neg own, hr]
  · intro x hx reads
    obtain ⟨r, hr⟩ := List.mem_iff_getElem?.mp hx
    rcases Pool.of_set h hr with ⟨rfl, rfl⟩ | ⟨-, hr⟩
    · rw [memory]
      exact busy q (List.mem_of_getElem? h) (reading.mp reads)
    · exact busy x (List.mem_of_getElem? hr) reads

theorem Serial.arrived (serial : Serial oci hash name start stage) {op : Operation}
    (locked : locks op = some name)
    (holds : Sections.Holds (program oci hash) Shared (Knows hash) Apart
      { stage with parties := stage.parties ++ [{ work := work hash op }] }) :
    Serial oci hash name start { stage with parties := stage.parties ++ [{ work := work hash op }] } := by
  obtain ⟨order, sys, nodup, done, ran, quiet, busy⟩ := serial.order
  have made : work hash op =
      { lock := shard hash name, tasks := [[.plan, .apply]], memory := { op } } := by
    simp only [work, locked]
  have outside (x : Sections.Party Step Memory)
      (hx : x ∈ stage.parties ++ [{ work := work hash op }]) (reads : Reading x) :
      x ∈ stage.parties := by
    rcases List.mem_append.mp hx with old | new
    · exact old
    · obtain rfl := List.mem_singleton.mp new
      cases reads.1
  have before (r : Nat) (hr : r ∈ order) :
      opOf { stage with parties := stage.parties ++ [{ work := work hash op }] } r = opOf stage r := by
    obtain ⟨q, hq, -⟩ := done r hr
    simp only [opOf, Pool.get_add hq, hq]
  refine ⟨holds, fun r x hx => ?_, fun r x hx => ?_, order, sys, nodup, fun r hr => ?_, ?_, ?_, ?_⟩
  · rcases Pool.of_add hx with ⟨-, rfl⟩ | hx
    · simp only [made]
      exact ⟨locked, trivial⟩
    · exact serial.named r x hx
  · rcases Pool.of_add hx with ⟨-, rfl⟩ | hx
    · exact Or.inl (by rw [made])
    · exact serial.shape r x hx
  · obtain ⟨q, hq, past⟩ := done r hr
    exact ⟨q, Pool.get_add hq _, past⟩
  · rw [calls_congr before]
    exact ran
  · exact fun none_ => quiet fun x hx => none_ x (List.mem_append_left _ hx)
  · exact fun x hx reads => busy x (outside x hx reads) reads

/-- The task of a request reads the store and plans. -/
theorem Serial.planned (serial : Serial oci hash name start stage) {p : Nat}
    {q : Sections.Party Step Memory} (h : stage.parties[p]? = some q) (inside : q.inside = true)
    (tasks : q.work.tasks = [[.plan, .apply]]) {q' : Sections.Party Step Memory}
    (inside' : q'.inside = true)
    (work' : q'.work = q.work.did [.apply] [] (run oci .plan q.work.memory stage.shared).1)
    (holds : Sections.Holds (program oci hash) Shared (Knows hash) Apart {
      shared := (run oci .plan q.work.memory stage.shared).2
      parties := stage.parties.set p q' }) :
    Serial oci hash name start {
      shared := (run oci .plan q.work.memory stage.shared).2
      parties := stage.parties.set p q' } := by
  obtain ⟨order, sys, nodup, done, ran, quiet, -⟩ := serial.order
  have same : stage.shared = sys := by
    refine quiet fun x hx reads => ?_
    obtain ⟨r, hr⟩ := List.mem_iff_getElem?.mp hx
    obtain rfl := serial.only hr h reads.1 inside
    obtain rfl := Option.some.inj (hr.symm.trans h)
    rw [Reading, tasks] at reads
    simp at reads
  have locked := (serial.named p q h).1
  refine ⟨holds, fun r x hx => ?_, fun r x hx => ?_, order, sys, nodup, fun r hr => ?_, ?_, ?_, ?_⟩
  · rcases Pool.of_set h hx with ⟨rfl, rfl⟩ | ⟨-, hx⟩
    · rw [work']
      exact serial.named r q h
    · exact serial.named r x hx
  · rcases Pool.of_set h hx with ⟨rfl, rfl⟩ | ⟨-, hx⟩
    · exact Or.inr (Or.inl (by rw [work']; rfl))
    · exact serial.shape r x hx
  · obtain ⟨x, hx, past⟩ := done r hr
    have other : r ≠ p := by
      rintro rfl
      obtain rfl := Option.some.inj (hx.symm.trans h)
      rw [tasks] at past
      simp at past
    refine ⟨x, ?_, past⟩
    dsimp only
    rw [Pool.get_set h, if_neg other, hx]
  · rw [calls_congr fun r _ => opOf_set h (by rw [work']; rfl) _ r]
    exact ran
  · intro none_
    have mem : q' ∈ stage.parties.set p q' := by
      refine List.mem_of_getElem? (i := p) ?_
      rw [Pool.get_set h, if_pos rfl]
    exact absurd ⟨inside', by rw [work']; rfl⟩ (none_ q' mem)
  · intro x hx reads
    obtain ⟨r, hr⟩ := List.mem_iff_getElem?.mp hx
    rcases Pool.of_set h hr with ⟨rfl, rfl⟩ | ⟨other, hr⟩
    · rw [work', same]
      refine ⟨rfl, ?_⟩
      cases planned : (q.work.memory.op.plan oci sys.registry).1 with
      | none => simp [Sections.Work.did, run, planned]
      | some batch =>
        have cached : sys.registry.Cached := same ▸ serial.holds.inv.coherent.cached
        obtain ⟨id, resolved, -⟩ := plan_tidy cached locked planned
        simp [Sections.Work.did, run, planned, locked, resolved]
    · exact absurd (serial.only hr h reads.1 inside) other

/-- It applies what it has planned: the request has run alone. -/
theorem Serial.applied (serial : Serial oci hash name start stage) {p : Nat}
    {q : Sections.Party Step Memory} (h : stage.parties[p]? = some q) (inside : q.inside = true)
    (tasks : q.work.tasks = [[.apply]]) {q' : Sections.Party Step Memory}
    (work' : q'.work = q.work.did [] [] (run oci .apply q.work.memory stage.shared).1)
    (holds : Sections.Holds (program oci hash) Shared (Knows hash) Apart {
      shared := (run oci .apply q.work.memory stage.shared).2
      parties := stage.parties.set p q' }) :
    Serial oci hash name start {
      shared := (run oci .apply q.work.memory stage.shared).2
      parties := stage.parties.set p q' } := by
  obtain ⟨order, sys, nodup, done, ran, -, busy⟩ := serial.order
  obtain ⟨read, planned⟩ := busy q (List.mem_of_getElem? h) ⟨inside, tasks⟩
  have locked := (serial.named p q h).1
  have fresh : p ∉ order := by
    intro mem
    obtain ⟨x, hx, past⟩ := done p mem
    obtain rfl := Option.some.inj (hx.symm.trans h)
    rw [tasks] at past
    simp at past
  have ops (r : Nat) : opOf {
      shared := (run oci .apply q.work.memory stage.shared).2
      parties := stage.parties.set p q' } r = opOf stage r :=
    opOf_set h (by rw [work']; rfl) _ r
  have own : opOf stage p = some q.work.memory.op := by rw [opOf, h, Option.map_some]
  have at_p : (stage.parties.set p q')[p]? = some q' := by rw [Pool.get_set h, if_pos rfl]
  have left (x : Sections.Party Step Memory) (hx : x ∈ stage.parties.set p q') : ¬Reading x := by
    intro reads
    obtain ⟨r, hr⟩ := List.mem_iff_getElem?.mp hx
    rcases Pool.of_set h hr with ⟨rfl, rfl⟩ | ⟨other, hr⟩
    · have past := reads.2
      rw [work'] at past
      simp [Sections.Work.did] at past
    · exact other (serial.only hr h reads.1 inside)
  refine ⟨holds, fun r x hx => ?_, fun r x hx => ?_, order ++ [p],
    { sys with registry := q.work.memory.op.run oci sys.registry }, ?_, fun r hr => ?_, ?_,
    fun _ => ?_, fun x hx reads => absurd reads (left x hx)⟩
  · rcases Pool.of_set h hx with ⟨rfl, rfl⟩ | ⟨-, hx⟩
    · rw [work']
      exact serial.named r q h
    · exact serial.named r x hx
  · rcases Pool.of_set h hx with ⟨rfl, rfl⟩ | ⟨-, hx⟩
    · exact Or.inr (Or.inr (Or.inl (by rw [work']; rfl)))
    · exact serial.shape r x hx
  · exact List.nodup_append.mpr ⟨nodup, List.nodup_singleton p, fun a ha b hb same => by
      obtain rfl := List.mem_singleton.mp hb
      exact fresh (same ▸ ha)⟩
  · rcases List.mem_append.mp hr with old | new
    · obtain ⟨x, hx, past⟩ := done r old
      have other : r ≠ p := by
        rintro rfl
        exact fresh old
      refine ⟨x, ?_, past⟩
      dsimp only
      rw [Pool.get_set h, if_neg other, hx]
    · obtain rfl := List.mem_singleton.mp new
      exact ⟨q', at_p, Or.inl (by rw [work']; rfl)⟩
  · rw [calls_congr fun r _ => ops r, calls, List.filterMap_append, List.map_append,
      Transition.exec_append]
    change (Transition.exec (System.step oci) start (calls stage order)).bind _ = _
    rw [ran, Option.bind_some, List.filterMap_cons_some own]
    rfl
  · rw [run_of_plan locked, ← planned]
    simp only [run, read]
    cases q.work.memory.planned with
    | none => rfl
    | some entry => rfl

/-- The acts of requests of one name. -/
def Of (name : Text) : Sections.Act Beside Operation → Prop
  | .arrive op => locks op = some name
  | .other _ | .crash _ => False
  | _ => True

theorem Serial.step (serial : Serial oci hash name start stage)
    {act : Sections.Act Beside Operation} (heeds : Sections.Heeds stage act) (own : Of name act)
    (h : Sections.step (program oci hash) stage act = some stage') :
    Serial oci hash name start stage' := by
  have holds := Sections.Holds.step rules serial.holds heeds h
  cases act with
  | arrive op =>
    cases h
    exact serial.arrived own holds
  | enter p =>
    obtain ⟨q, moves, h⟩ := Option.bind_eq_some_iff.mp h
    simp only [Sections.Stage.enter, Option.ite_none_left_eq_some, Option.some.injEq] at h
    obtain ⟨may, rfl⟩ := h
    simp only [Bool.or_eq_true, not_or, Bool.not_eq_true] at may
    obtain ⟨⟨⟨outside, attached⟩, todo⟩, -⟩ := may
    refine serial.moved moves holds rfl rfl (Or.inl rfl) ⟨fun reads => ?_, fun reads => ?_⟩
    · have begun := reads.2
      rcases serial.holds.fresh p q moves outside with past | dropped | ⟨op, made⟩
      · rw [past] at begun
        cases begun
      · rw [attached] at dropped
        cases dropped
      · dsimp only at begun
        rw [made] at begun
        simp only [program, work] at begun
        split at begun <;> simp at begun
    · rw [reads.1] at outside
      cases outside
  | work p =>
    obtain ⟨q, moves, h⟩ := Option.bind_eq_some_iff.mp h
    unfold Sections.Stage.work at h
    split at h
    · rename_i i is rest inside tasks
      cases h
      have attached := serial.holds.attached p q moves inside
      rcases serial.shape p q moves with shape | shape | shape | shape <;> rw [tasks] at shape <;>
        cases shape
      · exact serial.planned moves inside tasks (by simp) rfl holds
      · exact serial.applied moves inside tasks rfl holds
    · cases h
  | proceed p =>
    obtain ⟨q, moves, h⟩ := Option.bind_eq_some_iff.mp h
    unfold Sections.Stage.proceed at h
    split at h
    · rename_i rest held tasks
      cases h
      rcases serial.shape p q moves with shape | shape | shape | shape <;> rw [tasks] at shape <;>
        cases shape
      refine serial.moved moves holds rfl rfl (Or.inr ⟨tasks, rfl⟩) ⟨fun reads => ?_, fun reads => ?_⟩
      · cases reads.2
      · have begun := reads.2
        rw [tasks] at begun
        simp at begun
    · cases h
  | drop p =>
    obtain ⟨q, moves, h⟩ := Option.bind_eq_some_iff.mp h
    have idle := heeds q moves
    simp only [Sections.Stage.drop, Option.ite_none_left_eq_some, Option.some.injEq] at h
    obtain ⟨-, rfl⟩ := h
    refine serial.moved moves holds rfl rfl (Or.inl rfl) ⟨fun reads => ?_, fun reads => ?_⟩
    · have inside := reads.1
      dsimp only at inside
      rw [idle] at inside
      cases inside
    · have busy : q.busy = true := by simp [Sections.Party.busy, reads.1, reads.2]
      rw [idle] at busy
      cases busy
  | other a => exact own.elim
  | crash a => exact own.elim

end Serial

end TagLock

namespace TagLock

/-- The config of the empty image is committed to `app`. -/
def committed : List (Sections.Act Beside Operation) :=
  [.other (.call (.operation (.commitBlob "app".toList emptyConfig 2 (.fromSecs 1))))]

end TagLock

end Summ
