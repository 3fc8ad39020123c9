import Summ.Registry.Bodies
import Summ.Serial.Edits

/-!
# Batches planned before they are applied

An operation on manifests reads the store and builds a batch; the batch is
applied later, to whatever is stored by then. `Plans` is what planning answers
and changes, `Write` a batch in flight.
-/

namespace Summ

/-- What an operation on manifests plans: its batch, where it comes to one. -/
def Operation.plan (oci : Oci) (r : Registry) : Operation → Option WriteBatch × Registry
  | putManifest put extraTags =>
    let (planned, r) := r.planManifestPutTagged oci put extraTags
    (planned.toOption.map Planned.batch, r)
  | setTag repo tag digest now =>
    let (planned, r) := r.planSetTag oci repo tag digest now
    (planned.toOption.map Planned.batch, r)
  | deleteTag repo tag now =>
    let (planned, r) := r.planDeleteTag repo tag now
    (planned.toOption.map Planned.batch, r)
  | deleteManifest repo digest now =>
    let (planned, r) := r.planManifestDelete repo digest now
    (planned.toOption.map Planned.batch, r)
  | purgeManifest repo digest pushedBefore now =>
    let (planned, r) := r.planIn repo fun s id =>
      s.planPurgeManifest repo id digest pushedBefore now
    (planned.toOption.map Planned.batch, r)
  | _ => (none, r)

/-- The push an operation is. -/
def Operation.push : Operation → Option ManifestPut
  | putManifest put _ => some put
  | _ => none

/-- A batch in flight, and the push it is of. -/
structure Write where
  batch : WriteBatch
  push : Option ManifestPut

/-! ## The two keys of a manifest -/

/-- A batch that writes or deletes a manifest's record does the same to its body; it
writes the bytes of its push. -/
def Write.Paired (oci : Oci) (w : Write) : Prop := ∀ (r : RepoId) (d : Digest),
  w.batch.effect (.manifest r d) = none ∧ w.batch.effect (.manifestBody r d) = none ∨
  w.batch.effect (.manifest r d) = some none ∧ w.batch.effect (.manifestBody r d) = some none ∨
  ∃ put record, w.push = some put ∧ digestBody oci put.body put.reference.asDigest = d ∧
    w.batch.effect (.manifest r d) = some (some (.manifest record)) ∧
    w.batch.effect (.manifestBody r d) = some (some (.manifestBody put.body))

namespace Store

variable {s : Store} {oci : Oci}

theorem paired_push {options : RegistryOptions} {put : ManifestPut} {c : CheckedPut} {repo : RepoId}
    {ts : List Tag} (checked : checkPut oci options put = .ok c) :
    Write.Paired oci { batch := s.pushBatch repo c ts, push := some put } := by
  intro r d
  obtain ⟨rfl, digest, -⟩ := checkPut_ok checked
  rw [pushBatch_manifest, pushBatch_manifestBody]
  by_cases h : repo = r ∧ c.digest = d
  · rw [if_pos h, if_pos h]
    exact Or.inr (Or.inr ⟨c.put, _, rfl, digest.symm.trans h.2, rfl, rfl⟩)
  · rw [if_neg h, if_neg h]
    exact Or.inl ⟨rfl, rfl⟩

theorem paired_other {batch : WriteBatch} (push : Option ManifestPut)
    (h : ∀ k : Key, k.aboutTags = false → WriteBatch.effect batch k = none) :
    Write.Paired oci { batch, push } := fun _ _ => Or.inl ⟨h _ rfl, h _ rfl⟩

theorem paired_delete {repo : RepoId} {digest : Digest} {record : ManifestRecord} {now : Timestamp}
    (push : Option ManifestPut) :
    Write.Paired oci { batch := s.manifestDeleteBatch repo digest record now, push } := by
  intro r d
  dsimp only
  rw [manifestDelete_manifest, manifestDelete_manifestBody]
  by_cases h : repo = r ∧ digest = d
  · rw [if_pos h]
    exact Or.inr (Or.inl ⟨rfl, rfl⟩)
  · rw [if_neg h]
    exact Or.inl ⟨rfl, rfl⟩

end Store

/-! ## Planning -/

namespace Registry

variable {r : Registry} {α : Type} {name : Text}
  {plan : Store → RepoId → Except RegistryError (Planned α)} {batch : WriteBatch}

/-- A batch that is planned is one planned for the id the name has. -/
theorem batch_of_planIn (h : (r.planIn name plan).1.toOption.map Planned.batch = some batch) :
    ∃ id p, (r.requireRepo name).1 = .ok id ∧ plan r.store id = .ok p ∧ p.batch = batch := by
  rcases made : r.planIn name plan with ⟨e | p, r'⟩
  · rw [made] at h
    cases h
  · rw [made] at h
    obtain ⟨-, id, required, planned⟩ := planIn_ok made
    exact ⟨id, p, required, planned, Option.some.inj h⟩

theorem batch_of_planInterned
    (h : (r.planInterned name plan).1.toOption.map Planned.batch = some batch) :
    ∃ id p, (r.internRepo name).1 = .ok id ∧
      plan (r.planInterned name plan).2.store id = .ok p ∧ p.batch = batch := by
  rcases made : r.planInterned name plan with ⟨e | p, r'⟩
  · rw [made] at h
    cases h
  · rw [made] at h
    obtain ⟨id, interned, planned⟩ := planInterned_ok made
    exact ⟨id, p, by rw [interned], planned, Option.some.inj h⟩

end Registry

/-- What planning answers, and all it changes. -/
structure Plans (oci : Oci) (r : Registry) (push : Option ManifestPut)
    (result : Option WriteBatch × Registry) : Prop where
  cached : result.2.Cached
  options : result.2.options = r.options
  interned : result.2.store = r.store ∨
    ∃ name id, r.store.Interned name id result.2.store
  batch : ∀ batch, result.1 = some batch →
    (∃ name id, result.2.store.repoByName name = some id ∧ batch.Within id) ∧
      Write.Paired oci { batch, push }

section
variable {oci : Oci} {r : Registry} {α : Type} {name : Text} {push : Option ManifestPut}
  {plan : Store → RepoId → Except RegistryError (Planned α)}

theorem plans_none (cached : r.Cached) : Plans oci r push (none, r) where
  cached := cached
  options := rfl
  interned := Or.inl rfl
  batch := fun _ h => by cases h

theorem plans_planIn (cached : r.Cached)
    (batch : ∀ id p, plan r.store id = .ok p →
      p.batch.Within id ∧ Write.Paired oci { batch := p.batch, push }) :
    Plans oci r push ((r.planIn name plan).1.toOption.map Planned.batch, (r.planIn name plan).2) := by
  obtain ⟨-, store, options, kept⟩ := Registry.requireRepo_spec cached name
  have snd : (r.planIn name plan).2 = (r.requireRepo name).2 := Registry.planIn_snd
  refine ⟨snd ▸ kept, snd ▸ options, Or.inl (snd ▸ store), ?_⟩
  intro b hb
  rcases hplan : r.planIn name plan with ⟨e | p, r'⟩
  · rw [hplan] at hb
    cases hb
  · rw [hplan] at hb snd
    cases hb
    obtain ⟨-, id, hreq, hok⟩ := Registry.planIn_ok hplan
    obtain ⟨within, paired⟩ := batch id p hok
    refine ⟨⟨name, id, ?_, within⟩, paired⟩
    dsimp only at snd ⊢
    rw [snd, store]
    exact Registry.requireRepo_ok cached hreq

theorem plans_planInterned (cached : r.Cached)
    (batch : ∀ s id p, plan s id = .ok p →
      p.batch.Within id ∧ Write.Paired oci { batch := p.batch, push }) :
    Plans oci r push
      ((r.planInterned name plan).1.toOption.map Planned.batch, (r.planInterned name plan).2) := by
  obtain ⟨interned, failed, options, kept⟩ := Registry.internRepo_spec cached name
  have snd : (r.planInterned name plan).2 = (r.internRepo name).2 := Registry.planInterned_snd
  refine ⟨snd ▸ kept, snd ▸ options, ?_, ?_⟩
  · dsimp only
    rw [snd]
    cases hid : (r.internRepo name).1 with
    | error e => exact Or.inl (failed e hid)
    | ok id => exact Or.inr ⟨name, id, interned id hid⟩
  · intro b hb
    rcases hplan : r.planInterned name plan with ⟨e | p, r'⟩
    · rw [hplan] at hb
      cases hb
    · rw [hplan] at hb snd
      cases hb
      obtain ⟨id, hintern, hok⟩ := Registry.planInterned_ok hplan
      obtain ⟨within, paired⟩ := batch _ id p hok
      refine ⟨⟨name, id, ?_, within⟩, paired⟩
      have hid : (r.internRepo name).1 = .ok id := by rw [hintern]
      dsimp only at snd ⊢
      rw [snd]
      exact (interned id hid).live

end

theorem Operation.plan_spec {oci : Oci} {r : Registry} (cached : r.Cached) (op : Operation) :
    Plans oci r op.push (op.plan oci r) := by
  cases op with
  | putManifest put extraTags =>
    simp only [Operation.plan, Registry.planManifestPutTagged]
    cases checked : checkPut oci r.options put with
    | error e => exact plans_none cached
    | ok c =>
      refine plans_planInterned cached fun s id p hp => ?_
      obtain ⟨-, ts, -, hbatch⟩ := Store.planPush_ok hp
      rw [hbatch]
      exact ⟨Store.pushBatch_within c ts, Store.paired_push checked⟩
  | setTag repo tag digest now =>
    simp only [Operation.plan, Registry.planSetTag]
    cases validateTag tag with
    | error e => exact plans_none cached
    | ok t =>
      refine plans_planIn cached fun id p hp => ?_
      obtain ⟨target, record, -, -, hbatch⟩ := Store.planSetTag_ok hp
      rw [hbatch]
      exact ⟨setTagOps_within _ _, Store.paired_other _ fun k => setTagOps_other⟩
  | deleteTag repo tag now =>
    simp only [Operation.plan, Registry.planDeleteTag]
    refine plans_planIn cached fun id p hp => ?_
    obtain ⟨record, -, hbatch⟩ := Store.planDeleteTag_ok hp
    rw [hbatch]
    exact ⟨deleteTagOps_within _ _, Store.paired_other _ fun k => deleteTagOps_other⟩
  | deleteManifest repo digest now =>
    simp only [Operation.plan, Registry.planManifestDelete]
    refine plans_planIn cached fun id p hp => ?_
    obtain ⟨record, -, hbatch⟩ := Store.planManifestDelete_ok hp
    rw [hbatch]
    exact ⟨Store.manifestDeleteBatch_within _ _ _, Store.paired_delete _⟩
  | purgeManifest repo digest pushedBefore now =>
    simp only [Operation.plan]
    refine plans_planIn cached fun id p hp => ?_
    rcases Store.planPurgeManifest_ok hp with hbatch | ⟨record, -, -, hbatch⟩
    · rw [hbatch]
      exact ⟨WriteBatch.within_nil, Store.paired_other _ fun k _ => rfl⟩
    · rw [hbatch]
      exact ⟨Store.manifestDeleteBatch_within _ _ _, Store.paired_delete _⟩
  | _ => exact plans_none cached

/-! ## The system with batches in flight -/

theorem Store.Interned.issued {s t : Store} {name : Text} {i id : RepoId}
    (h : s.Interned name i t) (issued : id < s.nextId) : id < t.nextId := by
  cases h with
  | known stored => exact issued
  | new absent room next =>
    subst next
    obtain ⟨-, -, later⟩ := Names.succ_of_room room
    rw [internBatch_nextId]
    exact later id issued

theorem Store.Interned.gone {s t : Store} {name : Text} {i id : RepoId}
    (h : s.Interned name i t) (issued : id < s.nextId) (gone : s.repoById id = none) :
    t.repoById id = none := by
  cases h with
  | known stored => exact gone
  | new absent room next =>
    subst next
    obtain ⟨ne, -, -⟩ := Names.succ_of_room room
    have other : id ≠ s.nextId := fun h => UInt32.lt_irrefl _ (h ▸ issued)
    rw [internBatch_repoById _ ne, if_neg other, gone]
    simp

/-- An id that was issued stays issued. -/
theorem Effect.issued {oci : Oci} {options : RegistryOptions} {s t : Store} {c : Call}
    {accepted : Bool} (h : Effect oci options s c accepted t) (named : s.Named) {id : RepoId}
    (issued : id < s.nextId) : id < t.nextId := by
  rcases h.names with names | ⟨name, i, u, -, interned, names⟩ | ⟨name, i, -, mapped, un, -⟩
  · rw [names.nextId]
    exact issued
  · rw [names.nextId]
    exact interned.issued issued
  · rw [un.nextId (Names.ne_nextId_key (named.issued name i mapped))]
    exact issued

namespace System

variable {oci : Oci} {sys : System}

/-- The system with another registry. -/
def withRegistry (sys : System) (registry : Registry) : System := { sys with registry }

/-- The system once a batch has been applied. -/
def applying (sys : System) (batch : WriteBatch) : System :=
  sys.withRegistry { sys.registry with store := sys.store.apply batch }

/-- A batch within an issued id leaves a coherent system. -/
theorem coherent_applying (coherent : sys.Coherent) {id : RepoId} (issued : id < sys.store.nextId)
    {batch : WriteBatch} (within : batch.Within id) : (sys.applying batch).Coherent := by
  have names : sys.store.SameNames (sys.store.apply batch) := Store.sameNames_within within
  refine ⟨coherent.named.of_issued issued within, Registry.cached_apply coherent.cached names, ?_⟩
  intro w hw
  obtain ⟨before, gone⟩ := coherent.sweeping w hw
  exact ⟨by rw [applying]; exact names.nextId ▸ before, (names.repoById _).trans gone⟩

/-- So does what changes the caches alone. -/
theorem coherent_withRegistry (coherent : sys.Coherent) {r : Registry}
    (same : r.store = sys.registry.store) (cached : r.Cached) : (sys.withRegistry r).Coherent := by
  refine ⟨?_, cached, fun w hw => ?_⟩
  · change r.store.Named
    rw [same]
    exact coherent.named
  · obtain ⟨before, gone⟩ := coherent.sweeping w hw
    change w.repo < r.store.nextId ∧ r.store.repoById w.repo = none
    rw [same]
    exact ⟨before, gone⟩

/-- So does planning. -/
theorem coherent_planned (coherent : sys.Coherent) {push : Option ManifestPut}
    {result : Option WriteBatch × Registry} (plans : Plans oci sys.registry push result) :
    (sys.withRegistry result.2).Coherent := by
  rcases plans.interned with same | ⟨name, id, interned⟩
  · exact coherent_withRegistry coherent same plans.cached
  · refine ⟨interned.named coherent.named, plans.cached, fun w hw => ?_⟩
    obtain ⟨before, gone⟩ := coherent.sweeping w hw
    exact ⟨interned.issued before, interned.gone before gone⟩

end System

end Summ
