import Summ.Serial.Calls

/-!
# What a call does

`Effect` lists what each call can do to the store, with what it had read;
`System.Coherent` is what makes the list complete: the caches hold what is
stored, the name maps are inverse, and nothing is stored under an id that has
not been issued. An invariant over a run is proved by the cases of `Effect`
(`effect_of_call`, `coherent_of_call`).
-/

namespace Summ

/-- The name a call is addressed to. -/
def Operation.repo : Operation → Option Text
  | putManifest put _ => some put.repo
  | setTag repo .. | deleteTag repo .. | deleteManifest repo .. | purgeManifest repo ..
  | retireRepo repo .. | commitBlob repo .. => some repo
  | sweepRepoBlobs .. | scanBlobs .. | collectBlob .. => none

def Call.repo : Call → Option Text
  | operation op => op.repo
  | deleteBlobReference repo _ | mountBlob repo .. | deleteRepository repo _ => some repo
  | addPullCounts _ | startSweep _ | sweepPage _ | finishSweep _ | restart _ => none

namespace Store

/-- `t` is `s` with the name interned under `id`. -/
inductive Interned (s : Store) (name : Text) (id : RepoId) : Store → Prop
  | known (stored : s.repoByName name = some id) : Interned s name id s
  | new (absent : s.repoByName name = none) (room : ¬ MAX_REPO_ID < s.nextId)
      (next : id = s.nextId) : Interned s name id (s.apply (RepoInterner.internBatch name id))

/-- The name maps are inverse, and ids are issued before anything is stored
under them. A repository with a `D` record is not live. -/
structure Named (s : Store) : Prop where
  inverse : ∀ name id, s.repoByName name = some id ↔ s.repoById id = some name
  issued : ∀ name id, s.repoByName name = some id → id < s.nextId
  dead : ∀ id, s.has (.deadRepo id) = true → id < s.nextId ∧ s.repoById id = none
  data : ∀ k id, k.repo = some id → s.has k = true → id < s.nextId

theorem named_empty : (∅ : Store).Named where
  inverse name id := by simp [repoByName, repoById]
  issued name id h := by simp [repoByName] at h
  dead id h := by simp [has] at h
  data k id _ h := by simp [has] at h

end Store

/-- What the cache holds of a name is what is stored. -/
def Registry.Cached (r : Registry) : Prop :=
  ∀ name id, r.interner.byName.peek name = some id → r.store.repoByName name = some id

/-! ## Resolving and interning a name -/

namespace Registry

variable {r : Registry}

theorem cached_of_names {r' : Registry} (cached : r.Cached) (names : r.store.SameNames r'.store)
    (kept : ∀ name id, r'.interner.byName.peek name = some id →
      r.interner.byName.peek name = some id ∨ r.store.repoByName name = some id) : r'.Cached := by
  intro name id h
  rw [names.repoByName]
  rcases kept name id h with h | h
  · exact cached name id h
  · exact h

/-- What a lookup answers, and all it changes. -/
structure LooksUp (r : Registry) (name : Text) (result : Option RepoId × Registry) : Prop where
  found : result.1 = r.store.repoByName name
  store : result.2.store = r.store
  options : result.2.options = r.options
  cached : result.2.Cached

theorem lookupRepo_spec (cached : r.Cached) (name : Text) :
    r.LooksUp name (r.lookupRepo name) := by
  unfold lookupRepo RepoInterner.lookup
  rcases hget : r.interner.byName.get name with ⟨id | id, byName⟩
  · have miss : r.interner.byName.get name = (none, r.interner.byName) := by
      have := Lru.get_fst r.interner.byName name
      rw [hget] at this
      simp [Lru.get, ← this]
    obtain rfl : byName = r.interner.byName := (Prod.mk.inj (hget.symm.trans miss)).2
    cases hstored : r.store.repoByName name with
    | none => exact ⟨hstored.symm, rfl, rfl, cached⟩
    | some id =>
      refine ⟨hstored.symm, rfl, rfl, cached_of_names cached (fun _ _ => rfl) ?_⟩
      intro name' id' h
      by_cases hname : name' = name
      · subst hname
        have : id = id' := by simpa [RepoInterner.remember] using h
        exact Or.inr (this ▸ hstored)
      · exact Or.inl (Lru.peek_put_ne hname h)
  · have hit : r.interner.byName.peek name = some id := by
      rw [← Lru.get_fst, hget]
    refine ⟨(cached name id hit).symm, rfl, rfl, cached_of_names cached (fun _ _ => rfl) ?_⟩
    intro name' id' h
    refine Or.inl (Lru.peek_get r.interner.byName name name' ?_)
    rw [hget]
    exact h

/-- What `require_repo` answers. -/
theorem requireRepo_spec (cached : r.Cached) (name : Text) :
    (r.requireRepo name).1 =
        (match r.store.repoByName name with
          | some id => .ok id
          | none => .error (.nameUnknown name)) ∧
      (r.requireRepo name).2.store = r.store ∧ (r.requireRepo name).2.options = r.options ∧
      (r.requireRepo name).2.Cached := by
  obtain ⟨found, store, options, kept⟩ := lookupRepo_spec cached name
  unfold requireRepo
  rcases hlookup : r.lookupRepo name with ⟨id | id, r'⟩ <;> rw [hlookup] at found store options kept
  · exact ⟨by rw [← found], store, options, kept⟩
  · exact ⟨by rw [← found], store, options, kept⟩

theorem requireRepo_ok (cached : r.Cached) {name : Text} {id : RepoId}
    (h : (r.requireRepo name).1 = .ok id) : r.store.repoByName name = some id := by
  rw [(requireRepo_spec cached name).1] at h
  split at h
  · rename_i id' stored
    cases h
    exact stored
  · cases h

theorem peek_remember {c : RepoInterner} {name name' : Text} {id id' : RepoId}
    (h : (c.remember name id).byName.peek name' = some id') :
    name' = name ∧ id' = id ∨ name' ≠ name ∧ c.byName.peek name' = some id' := by
  by_cases hname : name' = name
  · subst hname
    rw [RepoInterner.remember, Lru.peek_put] at h
    exact Or.inl ⟨rfl, (Option.some.inj h).symm⟩
  · exact Or.inr ⟨hname, Lru.peek_put_ne hname h⟩

/-- An intern finds the name or gives it the next id; a failed one changes
nothing that is stored. -/
theorem internRepo_spec (cached : r.Cached) (name : Text) :
    (∀ id, (r.internRepo name).1 = .ok id →
      r.store.Interned name id (r.internRepo name).2.store) ∧
    (∀ e, (r.internRepo name).1 = .error e → (r.internRepo name).2.store = r.store) ∧
    (r.internRepo name).2.options = r.options ∧ (r.internRepo name).2.Cached := by
  obtain ⟨found, -, -, kept⟩ := lookupRepo_spec cached name
  rcases hfirst : r.interner.lookup r.store name with ⟨id | id, c⟩
  · simp only [lookupRepo, hfirst] at found kept
    obtain ⟨found', -, -, kept'⟩ := lookupRepo_spec kept name
    rcases hsecond : c.lookup r.store name with ⟨id | id, c'⟩
    · simp only [lookupRepo, hsecond] at found' kept'
      unfold internRepo RepoInterner.intern
      simp only [hfirst, hsecond]
      by_cases full : MAX_REPO_ID < r.store.nextId
      · simp only [if_pos full, Except.mapError]
        exact ⟨fun id h => (by cases h), fun e _ => trivial, trivial, kept'⟩
      · simp only [if_neg full, Except.mapError]
        refine ⟨?_, fun e h => (by cases h), trivial, ?_⟩
        · intro id h
          obtain rfl := Except.ok.inj h
          exact .new found.symm full rfl
        · intro name' id' h
          change (r.store.apply _).repoByName name' = some id'
          rw [Store.internBatch_repoByName]
          rcases peek_remember h with ⟨rfl, rfl⟩ | ⟨hne, h⟩
          · rw [if_pos rfl]
          · rw [if_neg hne]
            exact kept' name' id' h
    · simp only [lookupRepo, hsecond] at found'
      rw [← found] at found'
      cases found'
  · simp only [lookupRepo, hfirst] at found kept
    unfold internRepo RepoInterner.intern
    simp only [hfirst, Except.mapError]
    refine ⟨?_, fun e h => (by cases h), trivial, kept⟩
    intro id' h
    obtain rfl := Except.ok.inj h
    exact .known found.symm

/-! ## Plans and their application -/

section Plans
variable {α : Type} {name : Text} {plan : Store → RepoId → Except RegistryError (Planned α)}

theorem planIn_snd : (r.planIn name plan).2 = (r.requireRepo name).2 := by
  unfold planIn
  split <;> rename_i hreq <;> rw [hreq]

theorem planInterned_snd : (r.planInterned name plan).2 = (r.internRepo name).2 := by
  unfold planInterned
  split <;> rename_i hint <;> rw [hint]

end Plans

theorem cached_apply (cached : r.Cached) {batch : WriteBatch}
    (names : r.store.SameNames (r.store.apply batch)) :
    Registry.Cached { r with store := r.store.apply batch } :=
  cached_of_names cached names fun _ _ h => Or.inl h

end Registry

/-- A batch within a repository changes no name. -/
theorem Store.sameNames_within {s : Store} {id : RepoId} {batch : WriteBatch}
    (h : batch.Within id) : s.SameNames (s.apply batch) := by
  refine sameNames_apply fun k hk => WriteBatch.effect_of_within h ?_
  cases k <;> first | rfl | cases hk

/-! ## The cases -/

/-- What a call leaves in the store, and whether it was accepted. -/
inductive Effect (oci : Oci) (options : RegistryOptions) (s : Store) : Call → Bool → Store → Prop
  | putManifest {put : ManifestPut} {extraTags : List Text} {c : CheckedPut} {id : RepoId}
      {s₀ : Store} {ts : List Tag} (checked : checkPut oci options put = .ok c)
      (interned : s.Interned put.repo id s₀)
      (held : options.validateReferences = true →
        ∀ desc ∈ c.parsed.blobs, desc.foreign = true ∨ s₀.holdsBlob id desc.digest = true)
      (tags : ∀ t, t ∈ ts ↔ t ∈ c.validTags extraTags) :
      Effect oci options s (.operation (.putManifest put extraTags)) true
        (s₀.apply (s₀.pushBatch id c ts))
  | setTag {repo : Text} {t : Tag} {target : TagTarget} {now : Timestamp} {id : RepoId}
      (live : s.repoByName repo = some id)
      (record : (s.manifestRecord id target.digest).isSome = true) :
      Effect oci options s (.operation (.setTag repo t.text target.digest now)) true
        (s.apply (setTagOps id t (s.tagDigest id t) target now))
  | deleteTag {repo : Text} {t : Tag} {now : Timestamp} {id : RepoId} {digest : Digest}
      (live : s.repoByName repo = some id) (points : s.tagDigest id t = some digest) :
      Effect oci options s (.operation (.deleteTag repo t now)) true
        (s.apply (deleteTagOps id t digest (s.manifestRecord id digest) now))
  | deleteManifest {repo : Text} {digest : Digest} {now : Timestamp} {id : RepoId}
      {record : ManifestRecord} (live : s.repoByName repo = some id)
      (stored : s.manifestRecord id digest = some record) :
      Effect oci options s (.operation (.deleteManifest repo digest now)) true
        (s.apply (s.manifestDeleteBatch id digest record now))
  | purgeManifest {repo : Text} {digest : Digest} {pushedBefore now : Timestamp} {id : RepoId}
      {record : ManifestRecord} (live : s.repoByName repo = some id)
      (stored : s.manifestRecord id digest = some record) :
      Effect oci options s (.operation (.purgeManifest repo digest pushedBefore now)) true
        (s.apply (s.manifestDeleteBatch id digest record now))
  | sweepRepoBlobs {cursor : Option Key} {limit : Nat} {addedBefore : Timestamp} :
      Effect oci options s (.operation (.sweepRepoBlobs cursor limit addedBefore)) true
        (s.apply (Store.retractBatch
          (s.staleMemberships addedBefore (s.scan .repoBlobs cursor limit).entries)))
  | scanBlobs {cursor : Option Key} {limit : Nat} {seenBefore now : Timestamp} :
      Effect oci options s (.operation (.scanBlobs cursor limit seenBefore now)) true
        (s.apply (Store.markBatch now
          (s.blobVerdicts seenBefore (s.scan .blobs cursor limit).entries)))
  | collectBlob {digest : Digest} {seenBefore : Timestamp}
      (unreferenced : s.existsPrefix (.blobRefs digest) = false) :
      Effect oci options s (.operation (.collectBlob digest seenBefore)) true
        (s.apply [.delete (.blob digest), .delete (.blobMark digest)])
  | retireRepo {repo : Text} {live : List RepoId} {internedBefore id : RepoId}
      (mapped : s.repoByName repo = some id) (empty : s.repoIsEmpty id live = true) :
      Effect oci options s (.operation (.retireRepo repo live internedBefore)) true
        (s.apply (Store.retireBatch repo id))
  | commitBlob {repo : Text} {digest : Digest} {size : Nat} {now : Timestamp} {id : RepoId}
      {s₀ : Store} (interned : s.Interned repo id s₀) :
      Effect oci options s (.operation (.commitBlob repo digest size now)) true
        (s₀.apply (s₀.blobCommitBatch id digest size now))
  | deleteBlobReference {repo : Text} {digest : Digest} {id : RepoId}
      (live : s.repoByName repo = some id) :
      Effect oci options s (.deleteBlobReference repo digest) true
        (s.apply (s.blobReferenceDeleteBatch id digest))
  | mountBlob {repo : Text} {digest : Digest} {from_ : Option Text} {now : Timestamp} {id : RepoId}
      {s₀ : Store} {record : BlobRecord} (stored : s.blobRecord digest = some record)
      (interned : s.Interned repo id s₀) :
      Effect oci options s (.mountBlob repo digest from_ now) true
        (s₀.apply (s₀.blobCommitBatch id digest record.size now))
  | deleteRepository {repo : Text} {now : Timestamp} {id : RepoId}
      (mapped : s.repoByName repo = some id) :
      Effect oci options s (.deleteRepository repo now) true
        (s.apply (Store.tombstoneBatch repo id now))
  | addPullCounts {deltas : List CountDelta} {batch : WriteBatch}
      (puts : ∀ op ∈ batch, ∃ (g : CountGroup) (id : RepoId) (bucket : CounterBucket),
        s.repoByName g.repo = some id ∧ op = .put (g.key id) (.counter bucket) (g.fits ..)) :
      Effect oci options s (.addPullCounts deltas) true (s.apply batch)
  | sweepPage {i : Nat} {id : RepoId} {cursor : Option Key} (dead : s.repoById id = none) :
      Effect oci options s (.sweepPage i) true
        (s.apply (Store.sweepRefsBatch id (s.scan (.manifestsInRepo id) cursor SWEEP_STEP).entries))
  | finishSweep {i : Nat} {id : RepoId} (dead : s.repoById id = none) :
      Effect oci options s (.finishSweep i) true (s.apply (sweepFinishBatch id))
  | startSweep {id : RepoId} : Effect oci options s (.startSweep id) true s
  | restart {entries : Nat} : Effect oci options s (.restart entries) true s
  | refused {c : Call} {t : Store}
      (kept : t = s ∨ ∃ name id, c.repo = some name ∧ s.Interned name id t) :
      Effect oci options s c false t

/-- The caches hold what is stored, and no sweep is of a live repository. -/
structure System.Coherent (sys : System) : Prop where
  named : sys.store.Named
  cached : sys.registry.Cached
  sweeping : ∀ w ∈ sys.sweeps, w.repo < sys.store.nextId ∧ sys.store.repoById w.repo = none

theorem System.coherent_start (options : RegistryOptions) (entries : Nat) :
    (System.start options entries).Coherent where
  named := Store.named_empty
  cached name id h := by cases h
  sweeping w h := by cases h

/-- A call of the registry: what it leaves, with the caches still right. -/
structure Served (oci : Oci) (r : Registry) (c : Call) (accepted : Bool) (r' : Registry) :
    Prop where
  effect : Effect oci r.options r.store c accepted r'.store
  options : r'.options = r.options
  cached : r'.Cached

section Served
variable {oci : Oci} {r : Registry} {c : Call} {α : Type} {name : Text}
  {plan : Store → RepoId → Except RegistryError (Planned α)}

open Registry

theorem served_refused (cached : r.Cached) : Served oci r c false r where
  effect := .refused (Or.inl rfl)
  options := rfl
  cached := cached

/-- An operation that plans in a repository that must exist. -/
theorem served_planIn (cached : r.Cached)
    (names : ∀ id p, plan r.store id = .ok p → r.store.SameNames (r.store.apply p.batch))
    (effect : ∀ id p, r.store.repoByName name = some id → plan r.store id = .ok p →
      Effect oci r.options r.store c true (r.store.apply p.batch)) :
    Served oci r c (commit (r.planIn name plan)).1.isOk (commit (r.planIn name plan)).2 := by
  obtain ⟨-, store, options, kept⟩ := requireRepo_spec cached name
  have snd : (r.planIn name plan).2 = (r.requireRepo name).2 := planIn_snd
  rcases hplan : r.planIn name plan with ⟨e | p, r'⟩
  · obtain rfl : r' = (r.requireRepo name).2 := by rw [← snd, hplan]
    exact ⟨.refused (Or.inl store), options, kept⟩
  · obtain rfl : r' = (r.requireRepo name).2 := by rw [← snd, hplan]
    obtain ⟨-, id, hreq, hok⟩ := planIn_ok hplan
    have live := requireRepo_ok cached hreq
    refine ⟨?_, options, ?_⟩
    · rw [commit_ok_store, store]
      exact effect id p live hok
    · exact cached_apply kept (store.symm ▸ names id p hok)

/-- An operation that plans in a repository it creates when it is not there. -/
theorem served_planInterned (cached : r.Cached) (addressed : c.repo = some name)
    (names : ∀ s id p, plan s id = .ok p → s.SameNames (s.apply p.batch))
    (effect : ∀ s₀ id p, r.store.Interned name id s₀ → plan s₀ id = .ok p →
      Effect oci r.options r.store c true (s₀.apply p.batch)) :
    Served oci r c (commit (r.planInterned name plan)).1.isOk
      (commit (r.planInterned name plan)).2 := by
  obtain ⟨interned, failed, options, kept⟩ := internRepo_spec cached name
  have snd : (r.planInterned name plan).2 = (r.internRepo name).2 := planInterned_snd
  rcases hplan : r.planInterned name plan with ⟨e | p, r'⟩
  · obtain rfl : r' = (r.internRepo name).2 := by rw [← snd, hplan]
    refine ⟨.refused ?_, options, kept⟩
    cases hid : (r.internRepo name).1 with
    | error e => exact Or.inl (failed e hid)
    | ok id => exact Or.inr ⟨name, id, addressed, interned id hid⟩
  · obtain rfl : r' = (r.internRepo name).2 := by rw [← snd, hplan]
    obtain ⟨id, hintern, hok⟩ := planInterned_ok hplan
    have hid : (r.internRepo name).1 = .ok id := by rw [hintern]
    refine ⟨?_, options, cached_apply kept (names _ id p hok)⟩
    rw [commit_ok_store]
    exact effect _ id p (interned id hid) hok

/-- A registry whose store alone has changed. -/
theorem served_store (cached : r.Cached) {t : Store} (names : r.store.SameNames t)
    (effect : Effect oci r.options r.store c true t) : Served oci r c true { r with store := t } where
  effect := effect
  options := rfl
  cached := cached_of_names cached names fun _ _ h => Or.inl h

theorem putManifest_served (cached : r.Cached) (put : ManifestPut) (extraTags : List Text) :
    Served oci r (.operation (.putManifest put extraTags))
      (Operation.accepted oci r (.putManifest put extraTags))
      (Operation.run oci r (.putManifest put extraTags)) := by
  simp only [Operation.accepted, Operation.run, putManifest]
  cases hcheck : checkPut oci r.options put with
  | error e =>
    have : r.planManifestPutTagged oci put extraTags = (.error e, r) := by
      simp [planManifestPutTagged, hcheck]
    rw [this]
    exact served_refused cached
  | ok c =>
    have planned : r.planManifestPutTagged oci put extraTags =
        r.planInterned put.repo fun s repo => s.planPush r.options repo c extraTags := by
      simp [planManifestPutTagged, hcheck]
    rw [planned]
    refine served_planInterned cached rfl ?_ ?_
    · intro s id p hp
      obtain ⟨-, ts, -, hbatch⟩ := Store.planPush_ok hp
      rw [hbatch]
      exact Store.sameNames_within (Store.pushBatch_within c ts)
    · intro s₀ id p interned hp
      obtain ⟨held, ts, hts, hbatch⟩ := Store.planPush_ok hp
      rw [hbatch]
      refine .putManifest hcheck interned (fun hv => (held hv).1) fun t => ?_
      rw [CheckedPut.mem_validTags, hts]

theorem setTag_served (cached : r.Cached) (repo tag : Text) (digest : Digest) (now : Timestamp) :
    Served oci r (.operation (.setTag repo tag digest now))
      (Operation.accepted oci r (.setTag repo tag digest now))
      (Operation.run oci r (.setTag repo tag digest now)) := by
  simp only [Operation.accepted, Operation.run, setTag]
  cases htag : validateTag tag with
  | error e =>
    have : r.planSetTag oci repo tag digest now = (.error e, r) := by
      simp [planSetTag, htag]
    rw [this]
    exact served_refused cached
  | ok t =>
    have planned : r.planSetTag oci repo tag digest now =
        r.planIn repo fun s id => s.planSetTag oci repo id t digest now := by
      simp [planSetTag, htag]
    obtain rfl := validateTag_eq_ok.mp htag
    rw [planned]
    refine served_planIn cached ?_ ?_
    · intro id p hp
      obtain ⟨target, record, -, -, hbatch⟩ := Store.planSetTag_ok hp
      rw [hbatch]
      exact Store.sameNames_within (setTagOps_within _ _)
    · intro id p live hp
      obtain ⟨target, record, hrecord, rfl, hbatch⟩ := Store.planSetTag_ok hp
      rw [hbatch]
      exact .setTag live (by rw [hrecord]; rfl)

theorem deleteTag_served (cached : r.Cached) (repo : Text) (tag : Tag) (now : Timestamp) :
    Served oci r (.operation (.deleteTag repo tag now))
      (Operation.accepted oci r (.deleteTag repo tag now))
      (Operation.run oci r (.deleteTag repo tag now)) := by
  refine served_planIn cached ?_ ?_
  · intro id p hp
    obtain ⟨record, -, hbatch⟩ := Store.planDeleteTag_ok hp
    rw [hbatch]
    exact Store.sameNames_within (deleteTagOps_within _ _)
  · intro id p live hp
    obtain ⟨record, hrecord, hbatch⟩ := Store.planDeleteTag_ok hp
    rw [hbatch]
    exact .deleteTag live (by simp [Store.tagDigest, hrecord])

theorem deleteManifest_served (cached : r.Cached) (repo : Text) (digest : Digest)
    (now : Timestamp) :
    Served oci r (.operation (.deleteManifest repo digest now))
      (Operation.accepted oci r (.deleteManifest repo digest now))
      (Operation.run oci r (.deleteManifest repo digest now)) := by
  refine served_planIn cached ?_ ?_
  · intro id p hp
    obtain ⟨record, -, hbatch⟩ := Store.planManifestDelete_ok hp
    rw [hbatch]
    exact Store.sameNames_within (Store.manifestDeleteBatch_within _ _ _)
  · intro id p live hp
    obtain ⟨record, hrecord, hbatch⟩ := Store.planManifestDelete_ok hp
    rw [hbatch]
    exact .deleteManifest live hrecord

theorem deleteBlobReference_served (cached : r.Cached) (repo : Text) (digest : Digest) :
    Served oci r (.deleteBlobReference repo digest) (r.deleteBlobReference repo digest).1.isOk
      (r.deleteBlobReference repo digest).2 := by
  refine served_planIn cached ?_ ?_
  · intro id p hp
    rw [Store.planBlobReferenceDelete_ok hp]
    exact Store.sameNames_within (Store.blobReferenceDeleteBatch_within _)
  · intro id p live hp
    rw [Store.planBlobReferenceDelete_ok hp]
    exact .deleteBlobReference live

theorem commitBlob_served (cached : r.Cached) (repo : Text) (digest : Digest) (size : Nat)
    (now : Timestamp) :
    Served oci r (.operation (.commitBlob repo digest size now))
      (Operation.accepted oci r (.commitBlob repo digest size now))
      (Operation.run oci r (.commitBlob repo digest size now)) := by
  refine served_planInterned cached rfl ?_ ?_
  · intro s id p hp
    cases hp
    exact Store.sameNames_within (Store.blobCommitBatch_within _ _ _)
  · intro s₀ id p interned hp
    cases hp
    exact .commitBlob interned

theorem purgeManifest_served (cached : r.Cached) (repo : Text) (digest : Digest)
    (pushedBefore now : Timestamp) :
    Served oci r (.operation (.purgeManifest repo digest pushedBefore now))
      (Operation.accepted oci r (.purgeManifest repo digest pushedBefore now))
      (Operation.run oci r (.purgeManifest repo digest pushedBefore now)) := by
  obtain ⟨-, store, options, kept⟩ := requireRepo_spec cached repo
  have snd : (r.planIn repo fun s id => s.planPurgeManifest repo id digest pushedBefore now).2 =
      (r.requireRepo repo).2 := planIn_snd
  simp only [Operation.accepted, Operation.run, purgeManifest]
  rcases hplan : r.planIn repo (fun s id => s.planPurgeManifest repo id digest pushedBefore now)
    with ⟨e | p, r'⟩
  · obtain rfl : r' = (r.requireRepo repo).2 := by rw [← snd, hplan]
    exact ⟨.refused (Or.inl store), options, kept⟩
  · obtain rfl : r' = (r.requireRepo repo).2 := by rw [← snd, hplan]
    obtain ⟨-, id, hreq, hok⟩ := planIn_ok hplan
    have live := requireRepo_ok cached hreq
    have stored := hok
    unfold Store.planPurgeManifest at hok
    split at hok
    · cases hok
      exact ⟨.refused (Or.inl store), options, kept⟩
    · rename_i record hrecord
      split at hok
      · rw [Store.planManifestDelete, hrecord] at hok
        cases hok
        refine ⟨?_, options, ?_⟩
        · rw [commit_ok_store, store]
          exact .purgeManifest live hrecord
        · exact cached_apply kept (store.symm ▸
            Store.sameNames_within (Store.manifestDeleteBatch_within _ _ _))
      · cases hok
        exact ⟨.refused (Or.inl store), options, kept⟩

/-- A name and its id are unmapped and forgotten together. -/
theorem cached_forget {r r' : Registry} (cached : r.Cached) {id : RepoId}
    (unmapped : r.store.Unmapped name id r'.store)
    (forgot : ∀ n i, r'.interner.byName.peek n = some i →
      n ≠ name ∧ r.interner.byName.peek n = some i) : r'.Cached := by
  intro n i h
  obtain ⟨hn, h⟩ := forgot n i h
  rw [unmapped.repoByName, if_neg hn]
  exact cached n i h

theorem peek_forget {i : RepoInterner} {id : RepoId} {n : Text} {k : RepoId}
    (h : (i.forget name id).byName.peek n = some k) : n ≠ name ∧ i.byName.peek n = some k := by
  rw [RepoInterner.forget, Lru.peek_pop] at h
  split at h
  · cases h
  · rename_i hn
    exact ⟨hn, h⟩

theorem retireRepo_served (cached : r.Cached) (repo : Text) (live : List RepoId)
    (internedBefore : RepoId) :
    Served oci r (.operation (.retireRepo repo live internedBefore))
      (Operation.accepted oci r (.retireRepo repo live internedBefore))
      (Operation.run oci r (.retireRepo repo live internedBefore)) := by
  obtain ⟨found, store, options, kept⟩ := lookupRepo_spec cached repo
  simp only [Operation.accepted, Operation.run, retireRepo]
  rcases hlookup : r.lookupRepo repo with ⟨id | id, r'⟩ <;>
    rw [hlookup] at found store options kept
  · exact ⟨.refused (Or.inl store), options, kept⟩
  · dsimp only at found store options kept ⊢
    split
    · exact ⟨.refused (Or.inl store), options, kept⟩
    · rename_i passed
      obtain ⟨-, empty⟩ := not_or.mp passed
      rw [store] at empty
      refine ⟨?_, options, ?_⟩
      · dsimp only
        rw [store]
        exact .retireRepo found.symm (by simpa using empty)
      · exact cached_forget kept (Store.unmapped_retire repo id) fun n i h => peek_forget h

theorem deleteRepository_served (cached : r.Cached) (repo : Text) (now : Timestamp) :
    Served oci r (.deleteRepository repo now) (r.deleteRepository repo now).1.isOk
      (r.deleteRepository repo now).2 := by
  obtain ⟨-, store, options, kept⟩ := requireRepo_spec cached repo
  have snd : (r.planIn repo fun _ id => .ok {
      outcome := { id, name := repo : RepoTombstoned }
      batch := Store.tombstoneBatch repo id now }).2 = (r.requireRepo repo).2 := planIn_snd
  simp only [deleteRepository, planRepoTombstone]
  rcases hplan : r.planIn repo (fun _ id => .ok {
      outcome := { id, name := repo : RepoTombstoned }
      batch := Store.tombstoneBatch repo id now }) with ⟨e | p, r'⟩
  · obtain rfl : r' = (r.requireRepo repo).2 := by rw [← snd, hplan]
    exact ⟨.refused (Or.inl store), options, kept⟩
  · obtain rfl : r' = (r.requireRepo repo).2 := by rw [← snd, hplan]
    obtain ⟨-, id, hreq, hok⟩ := planIn_ok hplan
    have live := requireRepo_ok cached hreq
    cases hok
    refine ⟨?_, options, ?_⟩
    · dsimp only [commit]
      rw [store]
      exact .deleteRepository live
    · exact cached_forget kept (Store.unmapped_tombstone repo id now) fun n i h => peek_forget h

/-- Asking whether a mount is entitled changes the caches alone. -/
theorem mountEntitled_spec (cached : r.Cached) (digest : Digest) (from_ : Option Text) :
    (r.mountEntitled digest from_).2.store = r.store ∧
      (r.mountEntitled digest from_).2.options = r.options ∧
      (r.mountEntitled digest from_).2.Cached := by
  cases from_ with
  | none => exact ⟨rfl, rfl, cached⟩
  | some source =>
    obtain ⟨-, store, options, kept⟩ := lookupRepo_spec cached source
    simp only [mountEntitled, blobIsServable, readOr]
    split <;> rename_i hlookup <;> rw [hlookup] at store options kept <;>
      exact ⟨store, options, kept⟩

theorem mountBlob_served (cached : r.Cached) (repo : Text) (digest : Digest)
    (from_ : Option Text) (now : Timestamp) :
    Served oci r (.mountBlob repo digest from_ now)
      ((r.mountBlob repo digest from_ now).1.toOption.getD false)
      (r.mountBlob repo digest from_ now).2 := by
  have source := mountEntitled_spec cached digest from_
  unfold mountBlob
  rcases hsource : r.mountEntitled digest from_ with ⟨entitled, r'⟩
  rw [hsource] at source
  obtain ⟨store, options, kept⟩ := source
  cases entitled with
  | false => exact ⟨.refused (Or.inl store), options, kept⟩
  | true =>
    dsimp only at store options kept ⊢
    cases hrecord : r'.store.blobRecord digest with
    | none => exact ⟨.refused (Or.inl store), options, kept⟩
    | some record =>
      have served : Served oci r' (.operation (.commitBlob repo digest record.size now)) _ _ :=
        commitBlob_served kept repo digest record.size now
      obtain ⟨effect, options', cached'⟩ := served
      simp only [Operation.accepted, Operation.run] at effect options' cached'
      rw [store, options] at effect
      rw [store] at hrecord
      dsimp only
      rcases hcommit : r'.commitBlob repo digest record.size now with ⟨e | u, r''⟩ <;>
        rw [hcommit] at effect options' cached' <;>
        refine ⟨?_, options'.trans options, cached'⟩ <;>
        dsimp only [Except.isOk, Except.toBool] at effect ⊢ <;>
        generalize r''.store = s'' at effect ⊢
      · cases effect with
        | refused h => exact .refused h
      · cases effect with
        | commitBlob interned => exact .mountBlob hrecord interned

theorem countOps_spec (deltas : List CountDelta) (groups : List CountGroup) (r : Registry)
    (cached : r.Cached) :
    (∀ op ∈ (countOps deltas r groups).1,
      ∃ (g : CountGroup) (id : RepoId) (bucket : CounterBucket),
        r.store.repoByName g.repo = some id ∧ op = .put (g.key id) (.counter bucket) (g.fits ..)) ∧
    (countOps deltas r groups).2.store = r.store ∧
    (countOps deltas r groups).2.options = r.options ∧ (countOps deltas r groups).2.Cached := by
  induction groups generalizing r with
  | nil => exact ⟨fun op hop => (by cases hop), rfl, rfl, cached⟩
  | cons g groups ih =>
    obtain ⟨found, store, options, kept⟩ := lookupRepo_spec cached g.repo
    rw [countOps]
    rcases hlookup : r.lookupRepo g.repo with ⟨id | id, r'⟩ <;>
      rw [hlookup] at found store options kept
    · obtain ⟨ops, store', options', kept'⟩ := ih r' kept
      dsimp only at store options ⊢
      rw [store] at ops store'
      rw [options] at options'
      exact ⟨ops, store', options', kept'⟩
    · obtain ⟨ops, store', options', kept'⟩ := ih r' kept
      dsimp only at found store options ⊢
      rw [store] at ops store'
      rw [options] at options'
      refine ⟨?_, store', options', kept'⟩
      intro op hop
      rcases List.mem_cons.mp hop with rfl | hop
      · exact ⟨g, id, _, found.symm, rfl⟩
      · exact ops op hop

theorem addPullCounts_served (cached : r.Cached) (deltas : List CountDelta) :
    Served oci r (.addPullCounts deltas) true (r.addPullCounts deltas).2 := by
  obtain ⟨ops, store, options, kept⟩ :=
    countOps_spec deltas (deltas.map CountDelta.group).dedup r cached
  simp only [addPullCounts]
  have names : r.store.SameNames
      (r.store.apply (countOps deltas r (deltas.map CountDelta.group).dedup).1) := by
    refine Store.sameNames_apply fun k hk => ?_
    rw [WriteBatch.effect_eq_none]
    intro op hop
    obtain ⟨g, id, bucket, -, rfl⟩ := ops op hop
    refine if_neg fun h => ?_
    subst h
    unfold CountGroup.key at hk
    split at hk <;> cases hk
  refine ⟨?_, options, cached_apply kept (store.symm ▸ names)⟩
  dsimp only
  rw [store]
  exact .addPullCounts ops

theorem operation_served (cached : r.Cached) (op : Operation) :
    Served oci r (.operation op) (op.accepted oci r) (op.run oci r) := by
  cases op with
  | putManifest put extraTags => exact putManifest_served cached put extraTags
  | setTag repo tag digest now => exact setTag_served cached repo tag digest now
  | deleteTag repo tag now => exact deleteTag_served cached repo tag now
  | deleteManifest repo digest now => exact deleteManifest_served cached repo digest now
  | purgeManifest repo digest pushedBefore now =>
    exact purgeManifest_served cached repo digest pushedBefore now
  | sweepRepoBlobs cursor limit addedBefore =>
    refine served_store cached (Store.sameNames_apply fun k hk => ?_) .sweepRepoBlobs
    apply WriteBatch.effect_flatMap_none
    rintro ⟨repo, digest⟩ -
    cases k <;> cases hk <;> rfl
  | scanBlobs cursor limit seenBefore now =>
    refine served_store cached (Store.sameNames_apply fun k hk => ?_) .scanBlobs
    apply WriteBatch.effect_flatMap_none
    rintro ⟨digest, record, verdict⟩ -
    cases verdict with
    | referenced marked => cases marked <;> cases k <;> cases hk <;> rfl
    | unmarked | ripe | young => cases k <;> cases hk <;> rfl
  | collectBlob digest seenBefore =>
    simp only [Operation.accepted, Operation.run, Store.collectBlob]
    split
    · split
      · exact served_refused cached
      · split
        · exact served_refused cached
        · rename_i unreferenced
          refine served_store cached (Store.sameNames_apply fun k hk => ?_)
            (.collectBlob (by simpa using unreferenced))
          cases k <;> cases hk <;> rfl
    · exact served_refused cached
  | retireRepo repo live internedBefore => exact retireRepo_served cached repo live internedBefore
  | commitBlob repo digest size now => exact commitBlob_served cached repo digest size now

end Served

end Summ
