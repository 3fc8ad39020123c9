import Summ.Serial.Coherence

/-!
# The ids in the cache

An id is answered with its name from the cache as well. Along every run of calls,
and of the lookups and resolutions of reads between them, what the cache holds of
an id is what is stored: `right_moved`.
-/

namespace Summ

/-- What the cache holds of an id is what is stored. -/
def Registry.CachedIds (r : Registry) : Prop :=
  ∀ id name, r.interner.byId.peek id = some name → r.store.repoById id = some name

/-! ## What the cache learns -/

namespace Registry

variable {r r' r'' : Registry} {name : Text}

/-- An id that is new in the cache is stored with its name, before or after. -/
def Learns (r r' : Registry) : Prop :=
  ∀ id n, r'.interner.byId.peek id = some n → r.interner.byId.peek id = some n ∨
    r.store.repoById id = some n ∨ r'.store.repoById id = some n

theorem Learns.of_interner (same : r'.interner = r.interner) : r.Learns r' := by
  intro id n h
  rw [same] at h
  exact Or.inl h

theorem Learns.trans (first : r.Learns r') (store : r'.store = r.store) (later : r'.Learns r'') :
    r.Learns r'' := by
  intro id n h
  rcases later id n h with old | stored | after
  · rcases first id n old with older | stored | stored
    · exact Or.inl older
    · exact Or.inr (Or.inl stored)
    · exact Or.inr (Or.inl (store ▸ stored))
  · exact Or.inr (Or.inl (store ▸ stored))
  · exact Or.inr (Or.inr after)

theorem peek_remember_id {c : RepoInterner} {id id' : RepoId} {n : Text}
    (h : (c.remember name id).byId.peek id' = some n) :
    id' = id ∧ n = name ∨ c.byId.peek id' = some n := by
  by_cases same : id' = id
  · subst same
    rw [RepoInterner.remember, Lru.peek_put] at h
    exact Or.inl ⟨rfl, (Option.some.inj h).symm⟩
  · exact Or.inr (Lru.peek_put_ne same h)

theorem peek_forget_id {c : RepoInterner} {id id' : RepoId} {n : Text}
    (h : (c.forget name id).byId.peek id' = some n) : id' ≠ id ∧ c.byId.peek id' = some n := by
  rw [RepoInterner.forget, Lru.peek_pop] at h
  split at h
  · cases h
  · rename_i other
    exact ⟨other, h⟩

theorem lookup_ids {s : Store} (named : s.Named) (c : RepoInterner) {id : RepoId} {n : Text}
    (h : (c.lookup s name).2.byId.peek id = some n) :
    c.byId.peek id = some n ∨ s.repoById id = some n := by
  unfold RepoInterner.lookup at h
  split at h
  · exact Or.inl h
  · split at h
    · rename_i stored
      rcases peek_remember_id h with ⟨rfl, rfl⟩ | old
      · exact Or.inr ((named.inverse _ _).mp stored)
      · exact Or.inl old
    · exact Or.inl h

theorem learns_lookup (named : r.store.Named) (name : Text) : r.Learns (r.lookupRepo name).2 := by
  intro id n h
  rcases lookup_ids named r.interner h with old | stored
  · exact Or.inl old
  · exact Or.inr (Or.inl stored)

theorem requireRepo_snd (name : Text) : (r.requireRepo name).2 = (r.lookupRepo name).2 := by
  unfold requireRepo
  split <;> rename_i looked <;> rw [looked]

theorem learns_require (named : r.store.Named) (name : Text) :
    r.Learns (r.requireRepo name).2 := by
  rw [requireRepo_snd]
  exact learns_lookup named name

/-- An intern knows the id it gives. -/
theorem learns_intern (named : r.store.Named) (name : Text) : r.Learns (r.internRepo name).2 := by
  intro id n h
  have first : (r.interner.lookup r.store name).2.byId.peek id = some n →
      r.interner.byId.peek id = some n ∨ r.store.repoById id = some n :=
    lookup_ids named r.interner
  unfold internRepo RepoInterner.intern at h ⊢
  rcases looked : r.interner.lookup r.store name with ⟨known | known, c⟩ <;> rw [looked] at first
  · have second : (c.lookup r.store name).2.byId.peek id = some n →
        c.byId.peek id = some n ∨ r.store.repoById id = some n :=
      lookup_ids named c
    rcases again : c.lookup r.store name with ⟨known | known, c'⟩ <;> rw [again] at second
    · have before (peeked : c'.byId.peek id = some n) :
          r.interner.byId.peek id = some n ∨ r.store.repoById id = some n := by
        rcases second peeked with old | stored
        · exact first old
        · exact Or.inr stored
      simp only [looked, again] at h ⊢
      by_cases full : MAX_REPO_ID < r.store.nextId
      · rw [if_pos full] at h ⊢
        exact (before h).imp_right Or.inl
      · rw [if_neg full] at h ⊢
        rcases peek_remember_id h with ⟨rfl, rfl⟩ | old
        · obtain ⟨ne, -, -⟩ := Names.succ_of_room full
          refine Or.inr (Or.inr ?_)
          rw [Store.internBatch_repoById _ ne, if_neg ne, if_pos rfl]
        · exact (before old).imp_right Or.inl
    · simp only [looked, again] at h ⊢
      rcases second h with old | stored
      · exact (first old).imp_right Or.inl
      · exact Or.inr (Or.inl stored)
  · simp only [looked] at h ⊢
    exact (first h).imp_right Or.inl

section Plans
variable {α : Type} {plan : Store → RepoId → Except RegistryError (Planned α)}

theorem commit_interner (p : Except RegistryError (Planned α) × Registry) :
    (commit p).2.interner = p.2.interner := by
  rcases p with ⟨e | planned, r⟩ <;> rfl

theorem learns_planIn (named : r.store.Named) : r.Learns (commit (r.planIn name plan)).2 := by
  have interner : (commit (r.planIn name plan)).2.interner = (r.requireRepo name).2.interner := by
    rw [commit_interner, planIn_snd]
  intro id n h
  rw [interner] at h
  rcases learns_require named name id n h with old | stored | stored
  · exact Or.inl old
  · exact Or.inr (Or.inl stored)
  · rw [r.requireRepo_store name] at stored
    exact Or.inr (Or.inl stored)

theorem learns_planInterned (named : r.store.Named)
    (names : ∀ s id p, plan s id = .ok p → s.SameNames (s.apply p.batch)) :
    r.Learns (commit (r.planInterned name plan)).2 := by
  have snd : (r.planInterned name plan).2 = (r.internRepo name).2 := planInterned_snd
  have learnt := learns_intern named name
  rcases planned : r.planInterned name plan with ⟨e | p, r'⟩
  · obtain rfl : r' = (r.internRepo name).2 := by rw [← snd, planned]
    exact learnt
  · obtain rfl : r' = (r.internRepo name).2 := by rw [← snd, planned]
    obtain ⟨id, -, ok⟩ := planInterned_ok planned
    have same := names _ id p ok
    intro i n h
    rcases learnt i n h with old | stored | stored
    · exact Or.inl old
    · exact Or.inr (Or.inl stored)
    · refine Or.inr (Or.inr ?_)
      rw [commit_ok_store, same.repoById]
      exact stored

end Plans

theorem learns_commitBlob (named : r.store.Named) (name : Text) (digest : Digest) (size : Nat)
    (now : Timestamp) : r.Learns (r.commitBlob name digest size now).2 := by
  refine learns_planInterned named fun s id p planned => ?_
  cases planned
  exact Store.sameNames_within (Store.blobCommitBatch_within _ _ _)

theorem countOps_learns (deltas : List CountDelta) (groups : List CountGroup) (r : Registry)
    (named : r.store.Named) : (countOps deltas r groups).2.store = r.store ∧
      r.Learns (countOps deltas r groups).2 := by
  induction groups generalizing r with
  | nil => exact ⟨rfl, .of_interner rfl⟩
  | cons g groups ih =>
    have learnt := learns_lookup named g.repo
    have store : (r.lookupRepo g.repo).2.store = r.store := rfl
    rw [countOps]
    rcases looked : r.lookupRepo g.repo with ⟨id | id, r'⟩ <;> rw [looked] at learnt store
    · obtain ⟨kept, more⟩ := ih r' (store.symm ▸ named)
      exact ⟨kept.trans store, learnt.trans store more⟩
    · obtain ⟨kept, more⟩ := ih r' (store.symm ▸ named)
      exact ⟨kept.trans store, learnt.trans store more⟩

end Registry

open Registry

/-! ## The calls -/

section Calls
variable {oci : Oci} {r : Registry}

theorem learns_operation (named : r.store.Named) (op : Operation) : r.Learns (op.run oci r) := by
  cases op with
  | putManifest put extraTags =>
    simp only [Operation.run, Registry.putManifest]
    cases checked : checkPut oci r.options put with
    | error e =>
      have refused : r.planManifestPutTagged oci put extraTags = (.error e, r) := by
        simp [planManifestPutTagged, checked]
      rw [refused]
      exact .of_interner rfl
    | ok c =>
      have planned : r.planManifestPutTagged oci put extraTags =
          r.planInterned put.repo fun s repo => s.planPush r.options repo c extraTags := by
        simp [planManifestPutTagged, checked]
      rw [planned]
      refine learns_planInterned named fun s id p hp => ?_
      obtain ⟨-, ts, -, batch⟩ := Store.planPush_ok hp
      rw [batch]
      exact Store.sameNames_within (Store.pushBatch_within c ts)
  | setTag repo tag digest now =>
    simp only [Operation.run, Registry.setTag]
    cases valid : validateTag tag with
    | error e =>
      have refused : r.planSetTag oci repo tag digest now = (.error e, r) := by
        simp [planSetTag, valid]
      rw [refused]
      exact .of_interner rfl
    | ok t =>
      have planned : r.planSetTag oci repo tag digest now =
          r.planIn repo fun s id => s.planSetTag oci repo id t digest now := by
        simp [planSetTag, valid]
      rw [planned]
      exact learns_planIn named
  | deleteTag repo tag now => exact learns_planIn named
  | deleteManifest repo digest now => exact learns_planIn named
  | purgeManifest repo digest pushedBefore now => exact learns_planIn named
  | sweepRepoBlobs | scanBlobs => exact .of_interner rfl
  | collectBlob digest seenBefore => exact .of_interner rfl
  | retireRepo repo live internedBefore =>
    have learnt := learns_lookup named repo
    have store : (r.lookupRepo repo).2.store = r.store := rfl
    simp only [Operation.run, Registry.retireRepo]
    rcases looked : r.lookupRepo repo with ⟨id | id, r'⟩ <;> rw [looked] at learnt store
    · exact learnt
    · dsimp only at learnt store ⊢
      split
      · exact learnt
      · intro i n h
        rcases learnt i n (peek_forget_id h).2 with old | stored | stored
        · exact Or.inl old
        · exact Or.inr (Or.inl stored)
        · exact Or.inr (Or.inl (store ▸ stored))
  | commitBlob repo digest size now => exact learns_commitBlob named repo digest size now

theorem learns_mountBlob (named : r.store.Named) (repo : Text) (digest : Digest)
    (from_ : Option Text) (now : Timestamp) : r.Learns (r.mountBlob repo digest from_ now).2 := by
  have source : (r.mountEntitled digest from_).2.store = r.store ∧
      r.Learns (r.mountEntitled digest from_).2 := by
    cases from_ with
    | none => exact ⟨rfl, .of_interner rfl⟩
    | some source =>
      have learnt := learns_lookup named source
      have store : (r.lookupRepo source).2.store = r.store := rfl
      simp only [mountEntitled, blobIsServable, readOr]
      split <;> rename_i looked <;> rw [looked] at learnt store <;> exact ⟨store, learnt⟩
  unfold mountBlob
  rcases asked : r.mountEntitled digest from_ with ⟨entitled, r'⟩
  rw [asked] at source
  obtain ⟨store, learnt⟩ := source
  cases entitled with
  | false => exact learnt
  | true =>
    dsimp only at store learnt ⊢
    cases r'.store.blobRecord digest with
    | none => exact learnt
    | some record =>
      have more := learns_commitBlob (store.symm ▸ named) repo digest record.size now
      dsimp only
      rcases committed : r'.commitBlob repo digest record.size now with ⟨e | u, r''⟩ <;>
        rw [committed] at more <;> exact learnt.trans store more

theorem learns_deleteRepository (named : r.store.Named) (repo : Text) (now : Timestamp) :
    r.Learns (r.deleteRepository repo now).2 := by
  have learnt : r.Learns (commit (r.planRepoTombstone repo now)).2 := learns_planIn named
  unfold deleteRepository
  rcases dropped : commit (r.planRepoTombstone repo now) with ⟨e | outcome, r'⟩ <;>
    rw [dropped] at learnt
  · exact learnt
  · intro i n h
    exact learnt i n (peek_forget_id h).2

theorem forgets (c : RepoInterner) (name : Text) (id : RepoId) :
    (c.forget name id).byId.peek id = none := by
  rw [RepoInterner.forget, Lru.peek_pop, if_pos rfl]

/-- An id whose name is dropped is forgotten with it. -/
theorem forgot_of_unmaps {c : Call} {sys sys' : System} {accepted : Bool} {name : Text} {id : RepoId}
    (coherent : sys.Coherent) (h : sys.call oci c = some (accepted, sys')) (unmaps : c.unmaps = true)
    (addressed : c.repo = some name) (mapped : sys.store.repoByName name = some id) :
    sys'.store.repoByName name = some id ∨ sys'.registry.interner.byId.peek id = none := by
  cases c with
  | deleteRepository repo now =>
    cases h
    cases addressed
    have found : (sys.registry.requireRepo name).1 = .ok id := by
      have stored : sys.registry.store.repoByName name = some id := mapped
      rw [(requireRepo_spec coherent.cached name).1, stored]
    have planned : sys.registry.planRepoTombstone name now = _ := planIn_eq found
    simp only [planned, commit]
    exact Or.inr (forgets _ name id)
  | operation op =>
    cases op with
    | retireRepo repo live internedBefore =>
      cases h
      cases addressed
      obtain ⟨found, store, -, -⟩ := lookupRepo_spec coherent.cached name
      have stored : sys.registry.store.repoByName name = some id := mapped
      simp only [Operation.run, Registry.retireRepo, System.store]
      rcases looked : sys.registry.lookupRepo name with ⟨known | known, r'⟩ <;>
        rw [looked] at found store <;> dsimp only at found store ⊢
      · rw [store]
        exact Or.inl stored
      · obtain rfl : known = id := Option.some.inj (found.trans stored)
        split
        · dsimp only
          rw [store]
          exact Or.inl stored
        · exact Or.inr (forgets _ name known)
    | _ => cases unmaps
  | _ => cases unmaps

end Calls

namespace System

variable {oci : Oci} {sys sys' : System}

theorem learns_call (coherent : sys.Coherent) {c : Call} {accepted : Bool}
    (h : sys.call oci c = some (accepted, sys')) : sys.registry.Learns sys'.registry := by
  have named := coherent.named
  cases c with
  | operation op =>
    cases h
    exact learns_operation named op
  | deleteBlobReference repo digest =>
    cases h
    exact learns_planIn named
  | mountBlob repo digest from_ now =>
    cases h
    exact learns_mountBlob named repo digest from_ now
  | deleteRepository repo now =>
    cases h
    exact learns_deleteRepository named repo now
  | addPullCounts deltas =>
    cases h
    obtain ⟨store, learnt⟩ := countOps_learns deltas (deltas.map CountDelta.group).dedup _ named
    intro id n peeked
    rcases learnt id n peeked with old | stored | stored
    · exact Or.inl old
    · exact Or.inr (Or.inl stored)
    · rw [store] at stored
      exact Or.inr (Or.inl stored)
  | startSweep id =>
    simp only [call] at h
    split at h
    · cases h
      exact .of_interner rfl
    · cases h
  | sweepPage i =>
    obtain ⟨w, -, h⟩ := Option.bind_eq_some_iff.mp h
    split at h
    · cases h
    · cases h
      exact .of_interner rfl
  | finishSweep i =>
    obtain ⟨w, -, h⟩ := Option.bind_eq_some_iff.mp h
    split at h
    · cases h
      exact .of_interner rfl
    · cases h
  | restart entries =>
    cases h
    intro id n peeked
    cases peeked

/-- A stored name stays its id's, unless it is dropped. -/
theorem repoById_of_call (coherent : sys.Coherent) {c : Call} {accepted : Bool}
    (h : sys.call oci c = some (accepted, sys')) {id : RepoId} {name : Text}
    (stored : sys.store.repoById id = some name) : sys'.store.repoById id = some name ∨
      c.unmaps = true ∧ c.repo = some name ∧ sys'.store.repoByName name = none := by
  have effect := (effect_of_call coherent h).effect
  have mapped := (coherent.named.inverse name id).mpr stored
  rcases effect.names with names | ⟨n, i, u, -, interned, names⟩ | ⟨n, i, addressed, found, un, unmaps⟩
  · exact Or.inl ((names.repoById id).trans stored)
  · refine Or.inl ((names.repoById id).trans ?_)
    cases interned with
    | known => exact stored
    | new absent room next =>
      subst next
      obtain ⟨ne, -, -⟩ := Names.succ_of_room room
      have issued := coherent.named.issued name id mapped
      rw [Store.internBatch_repoById _ ne, if_neg (Names.ne_nextId_key issued),
        if_neg fun same => UInt32.lt_irrefl _ (same ▸ issued)]
      exact stored
  · by_cases same : id = i
    · subst same
      obtain rfl : n = name :=
        Option.some.inj (((coherent.named.inverse n id).mp found).symm.trans stored)
      refine Or.inr ⟨unmaps, addressed, ?_⟩
      rw [show sys'.store.repoByName n = _ from un.repoByName n, if_pos rfl]
    · refine Or.inl ?_
      rw [show sys'.store.repoById id = _ from un.repoById id, if_neg same]
      exact stored

theorem cachedIds_of_call (coherent : sys.Coherent) {c : Call} {accepted : Bool}
    (ids : sys.registry.CachedIds) (h : sys.call oci c = some (accepted, sys')) :
    sys'.registry.CachedIds := by
  intro id name peeked
  have before : sys.store.repoById id = some name ∨ sys'.store.repoById id = some name := by
    rcases learns_call coherent h id name peeked with old | stored | stored
    · exact Or.inl (ids id name old)
    · exact Or.inl stored
    · exact Or.inr stored
  rcases before with stored | stored
  · rcases repoById_of_call coherent h stored with kept | ⟨unmaps, addressed, gone⟩
    · exact kept
    · have mapped := (coherent.named.inverse name id).mpr stored
      rcases forgot_of_unmaps coherent h unmaps addressed mapped with still | forgot
      · rw [gone] at still
        cases still
      · rw [forgot] at peeked
        cases peeked
  · exact stored

end System

namespace Registry

variable {r : Registry}

/-- `repo_name`. -/
def repoName (r : Registry) (id : RepoId) : Except RegistryError Text × Registry :=
  match r.interner.resolve r.store id with
  | (some name, interner) => (.ok name, { r with interner })
  | (none, interner) => (.error (.corrupt "repo id with no name"), { r with interner })

/-- The caches hold what is stored. -/
structure CachesRight (r : Registry) : Prop where
  named : r.store.Named
  names : r.Cached
  ids : r.CachedIds

theorem CachesRight.lookup (right : r.CachesRight) (name : Text) :
    (r.lookupRepo name).1 = r.store.repoByName name ∧ (r.lookupRepo name).2.store = r.store ∧
      (r.lookupRepo name).2.CachesRight := by
  obtain ⟨found, store, -, cached⟩ := lookupRepo_spec right.names name
  refine ⟨found, store, store ▸ right.named, cached, fun id n peeked => ?_⟩
  rw [store]
  rcases lookup_ids right.named r.interner peeked with old | stored
  · exact right.ids id n old
  · exact stored

/-- An id is answered with the name stored for it. -/
theorem CachesRight.resolve (right : r.CachesRight) (id : RepoId) :
    (r.repoName id).1 = (match r.store.repoById id with
      | some name => .ok name
      | none => .error (.corrupt "repo id with no name")) ∧
      (r.repoName id).2.store = r.store ∧ (r.repoName id).2.options = r.options ∧
      (r.repoName id).2.CachesRight := by
  unfold repoName RepoInterner.resolve
  rcases hit : r.interner.byId.get id with ⟨name | name, byId⟩
  · have miss : byId = r.interner.byId := by
      have absent := Lru.get_fst r.interner.byId id
      rw [hit] at absent
      have whole : r.interner.byId.get id = (none, r.interner.byId) := by
        simp [Lru.get, ← absent]
      exact (Prod.mk.inj (hit.symm.trans whole)).2
    subst miss
    cases stored : r.store.repoById id with
    | none => exact ⟨rfl, rfl, rfl, right⟩
    | some name =>
      refine ⟨rfl, rfl, rfl, right.named, fun n i peeked => ?_, fun i n peeked => ?_⟩
      · rcases peek_remember peeked with ⟨rfl, rfl⟩ | ⟨-, old⟩
        · exact (right.named.inverse _ _).mpr stored
        · exact right.names n i old
      · rcases peek_remember_id peeked with ⟨rfl, rfl⟩ | old
        · exact stored
        · exact right.ids i n old
  · have held : r.interner.byId.peek id = some name := by
      rw [← Lru.get_fst, hit]
    have kept (i : RepoId) (n : Text) (peeked : byId.peek i = some n) :
        r.interner.byId.peek i = some n := by
      refine Lru.peek_get r.interner.byId id i ?_
      rw [hit]
      exact peeked
    rw [right.ids id name held]
    exact ⟨rfl, rfl, rfl, right.named, right.names, fun i n peeked => right.ids i n (kept i n peeked)⟩

end Registry

/-! ## Reads between the calls -/

/-- A call, or what a read does to the caches: it looks a name up or resolves an id. -/
inductive Move
  | call (c : Call)
  | lookup (name : Text)
  | resolve (id : RepoId)

namespace System

variable {oci : Oci} {sys sys' : System}

def move (oci : Oci) (sys : System) : Move → Option System
  | .call c => step oci sys c
  | .lookup name => some { sys with registry := (sys.registry.lookupRepo name).2 }
  | .resolve id => some { sys with registry := (sys.registry.repoName id).2 }

/-- Some run of calls and reads from an empty store leads to `sys`. -/
def Moved (oci : Oci) (options : RegistryOptions) (entries : Nat) (sys : System) : Prop :=
  ∃ moves, Transition.exec (move oci) (start options entries) moves = some sys

theorem right_move {m : Move} (inv : sys.Coherent ∧ sys.registry.CachedIds)
    (h : move oci sys m = some sys') : sys'.Coherent ∧ sys'.registry.CachedIds := by
  obtain ⟨coherent, ids⟩ := inv
  have right : sys.registry.CachesRight := ⟨coherent.named, coherent.cached, ids⟩
  cases m with
  | call c =>
    obtain ⟨accepted, called⟩ := call_of_step h
    exact ⟨coherent_of_call coherent called, cachedIds_of_call coherent ids called⟩
  | lookup name =>
    cases h
    obtain ⟨-, store, after⟩ := right.lookup name
    refine ⟨⟨after.named, after.names, fun w hw => ?_⟩, after.ids⟩
    have swept := coherent.sweeping w hw
    exact swept
  | resolve id =>
    cases h
    obtain ⟨-, store, -, after⟩ := right.resolve id
    refine ⟨⟨after.named, after.names, fun w hw => ?_⟩, after.ids⟩
    have swept := coherent.sweeping w hw
    change w.repo < (sys.registry.repoName id).2.store.nextId ∧
      (sys.registry.repoName id).2.store.repoById w.repo = none
    rw [store]
    exact swept

/-- The caches are right after every run. -/
theorem right_moved {options : RegistryOptions} {entries : Nat}
    (h : Moved oci options entries sys) : sys.registry.CachesRight := by
  obtain ⟨moves, run⟩ := h
  obtain ⟨coherent, ids⟩ := Transition.exec_invariant
    (I := fun sys : System => sys.Coherent ∧ sys.registry.CachedIds)
    (fun sys m sys' inv _ step => right_move inv step)
    ⟨coherent_start options entries, fun id name peeked => by cases peeked⟩
    (Transition.meets_true _ moves) run
  exact ⟨coherent.named, coherent.cached, ids⟩

end System

end Summ
