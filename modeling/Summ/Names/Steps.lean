import Summ.Names.Requests

/-!
# What a step of a request does

`Moves` lists the steps with the conditions they are taken under; an invariant
is proved by its cases. `Coherent` is what always holds of names and ids: the
allocation lock has one holder, and a name that is known under an id, anywhere,
is the only name the id is ever stored with.
-/

namespace Summ

/-! ## Name and id records under each batch -/

/-- The kinds of key that map names to ids and ids to names. -/
def Key.aboutNames : Key → Bool
  | .repoByName _ | .repoById _ => true
  | _ => false

namespace Store

variable {s : Store}

/-- The two stores map the same names to the same ids. -/
def SameNames (s t : Store) : Prop := ∀ k, k.aboutNames = true → t.get k = s.get k

theorem sameNames_apply {batch : WriteBatch}
    (h : ∀ k, k.aboutNames = true → WriteBatch.effect batch k = none) :
    s.SameNames (s.apply batch) := fun k hk => get_apply_of_effect (h k hk)

section SameNames
variable {t : Store} (same : s.SameNames t)
include same

theorem SameNames.repoByName (name : Text) : t.repoByName name = s.repoByName name := by
  simp only [Store.repoByName, same (.repoByName name) rfl]

theorem SameNames.repoById (id : RepoId) : t.repoById id = s.repoById id := by
  simp only [Store.repoById, same (.repoById id) rfl]

theorem SameNames.nextId : t.nextId = s.nextId := by
  simp only [Store.nextId, same (.repoById NEXT_ID_KEY_ID) rfl]

end SameNames

theorem pushBatch_names {repo : RepoId} {c : CheckedPut} {ts : List Tag} (k : Key)
    (hk : k.aboutNames = true) : WriteBatch.effect (s.pushBatch repo c ts) k = none := by
  have blobs : k.aboutBlobs = false := by cases k <;> first | rfl | cases hk
  have tags : k.aboutTags = false := by cases k <;> first | rfl | cases hk
  have record : WriteBatch.effect (recordOps repo c) k = none := by
    unfold recordOps
    cases k <;> cases hk <;> cases c.parsed.subject <;> simp [MetaOp.effect]
  rw [pushBatch_records blobs, pushTags_other tags, record, if_neg]
  · rfl
  · cases k <;> cases hk <;> simp

/-- A sweep's page retracts references and nothing else. -/
theorem sweepRefsBatch_other {repo : RepoId} {entries : List (Key × Value)} {k : Key}
    (hk : ∀ b r m, k ≠ .blobRef b r m) :
    WriteBatch.effect (sweepRefsBatch repo entries) k = none := by
  apply WriteBatch.effect_flatMap_none
  rintro ⟨key, value⟩ -
  cases value with
  | manifest record =>
    rw [WriteBatch.effect_map_delete (fun blob => Key.blobRef blob repo record.digest), if_neg]
    rw [List.mem_map]
    rintro ⟨blob, -, rfl⟩
    exact hk _ _ _ rfl
  | _ => rfl

theorem sweepFinishBatch_names {repo : RepoId} (k : Key) (hk : k.aboutNames = true) :
    WriteBatch.effect (sweepFinishBatch repo) k = none := by
  cases k <;> cases hk <;> rfl

theorem internBatch_repoByName (name n : Text) (id : RepoId) :
    (s.apply (RepoInterner.internBatch name id)).repoByName n =
      if n = name then some id else s.repoByName n := by
  simp only [repoByName, get_apply, RepoInterner.internBatch, WriteBatch.effect_cons,
    WriteBatch.effect_nil, MetaOp.effect, reduceCtorEq, if_false, Option.none_or,
    Key.repoByName.injEq]
  by_cases h : n = name
  · simp [h]
  · simp [h, Ne.symm h]

theorem internBatch_repoById (name : Text) {id : RepoId} (hid : id ≠ NEXT_ID_KEY_ID) (k : RepoId) :
    (s.apply (RepoInterner.internBatch name id)).repoById k =
      if k = NEXT_ID_KEY_ID then none else if k = id then some name else s.repoById k := by
  simp only [repoById, get_apply, RepoInterner.internBatch, WriteBatch.effect_cons,
    WriteBatch.effect_nil, MetaOp.effect, reduceCtorEq, if_false, Option.none_or,
    Key.repoById.injEq]
  by_cases hk : k = NEXT_ID_KEY_ID
  · simp [hk]
  · by_cases hki : k = id
    · simp [hki, hid, Ne.symm hid]
    · simp [hk, hki, Ne.symm hk, Ne.symm hki]

theorem internBatch_nextId (name : Text) (id : RepoId) :
    (s.apply (RepoInterner.internBatch name id)).nextId = id + 1 := by
  simp [nextId, get_apply, RepoInterner.internBatch, MetaOp.effect]

/-- `t` is `s` less the records of `name` and `id`. -/
structure Unmapped (s : Store) (name : Text) (id : RepoId) (t : Store) : Prop where
  repoByName : ∀ n, t.repoByName n = if n = name then none else s.repoByName n
  repoById : ∀ k, t.repoById k = if k = id then none else s.repoById k
  nextId : id ≠ NEXT_ID_KEY_ID → t.nextId = s.nextId

theorem unmapped_of_effect {batch : WriteBatch} {name : Text} {id : RepoId}
    (h : ∀ k, k.aboutNames = true → WriteBatch.effect batch k =
      if k = .repoByName name ∨ k = .repoById id then some none else none) :
    s.Unmapped name id (s.apply batch) where
  repoByName n := by
    simp only [Store.repoByName, get_apply, h (.repoByName n) rfl, Key.repoByName.injEq,
      reduceCtorEq, or_false]
    by_cases hn : n = name <;> simp [hn]
  repoById k := by
    simp only [Store.repoById, get_apply, h (.repoById k) rfl, Key.repoById.injEq, reduceCtorEq,
      false_or]
    by_cases hk : k = id <;> simp [hk]
  nextId hid := by
    simp only [Store.nextId, get_apply, h (.repoById NEXT_ID_KEY_ID) rfl, Key.repoById.injEq,
      reduceCtorEq, false_or, if_neg (Ne.symm hid), Option.getD_none]

theorem unmapped_tombstone (name : Text) (id : RepoId) (now : Timestamp) :
    s.Unmapped name id (s.apply (tombstoneBatch name id now)) := by
  apply unmapped_of_effect
  intro k hk
  cases k <;> cases hk <;> simp [tombstoneBatch, MetaOp.effect, eq_comm]

theorem unmapped_retire (name : Text) (id : RepoId) :
    s.Unmapped name id (s.apply (retireBatch name id)) := by
  apply unmapped_of_effect
  intro k hk
  cases k <;> cases hk <;> simp [retireBatch, MetaOp.effect, eq_comm]

end Store

namespace Names

/-! ## The steps -/

/-- The steps of request `r`: how far it had come and comes, and the state but
for that. -/
inductive Moves (s : State) (r : Nat) (q : Request) : Progress → Progress → State → Prop
  | hit {locked : Bool} {name : Text} {id : RepoId} (named : q.name = some name)
      (cached : s.interner.byName.peek name = some id) :
      Moves s r q (.probe locked) (q.found id)
        ((s.withInterner (s.interner.touchName name)).unlock locked)
  | miss {locked : Bool} {name : Text} (named : q.name = some name) :
      Moves s r q (.probe locked) (.get locked) s
  | fetched {locked : Bool} {name : Text} {id : RepoId} (named : q.name = some name)
      (stored : s.store.repoByName name = some id) :
      Moves s r q (.get locked) (.remember locked id) s
  | absent {name : Text} (named : q.name = some name) (unmapped : s.store.repoByName name = none) :
      Moves s r q (.get false) q.missed s
  | stillAbsent {name : Text} (named : q.name = some name)
      (unmapped : s.store.repoByName name = none) : Moves s r q (.get true) .allocate s
  | remembered {locked : Bool} {name : Text} {id : RepoId} (named : q.name = some name) :
      Moves s r q (.remember locked id) (q.found id)
        ((s.withInterner (s.interner.remember name id)).unlock locked)
  | acquired (free : s.alloc = none) : Moves s r q .lock (.probe true) { s with alloc := some r }
  | exhausted {name : Text} (named : q.name = some name) :
      Moves s r q .allocate (.returned none) (s.unlock true)
  | allocated {name : Text} (named : q.name = some name) (room : ¬ MAX_REPO_ID < s.store.nextId) :
      Moves s r q .allocate (.remember true s.store.nextId)
        (s.applyBatch (RepoInterner.internBatch name s.store.nextId))
  | idHit {id : RepoId} {name : Text} (resolves : q = .resolve id)
      (cached : s.interner.byId.peek id = some name) :
      Moves s r q .probeId (.named (some name)) (s.withInterner (s.interner.touchId id))
  | idMiss : Moves s r q .probeId .getId s
  | idFetched {id : RepoId} {name : Text} (resolves : q = .resolve id)
      (stored : s.store.repoById id = some name) : Moves s r q .getId (.rememberName name) s
  | idAbsent : Moves s r q .getId (.named none) s
  | idRemembered {id : RepoId} {name : Text} (resolves : q = .resolve id) :
      Moves s r q (.rememberName name) (.named (some name))
        (s.withInterner (s.interner.remember name id))
  | tombstoned {name : Text} {now : Timestamp} {id : RepoId}
      (deletes : q = .deleteRepository name now) :
      Moves s r q (.resolved id) (.applied id) (s.applyBatch (Store.tombstoneBatch name id now))
  | declined {name : Text} {id : RepoId} (named : q.name = some name) :
      Moves s r q (.resolved id) (.returned none) s
  | checked {name : Text} {live : List RepoId} {internedBefore id : RepoId}
      (retires : q = .retireRepo name live internedBefore) (older : id < internedBefore)
      (empty : s.store.repoIsEmpty id live = true) : Moves s r q (.resolved id) (.checked id) s
  | planned {put : CheckedPut} {extraTags : List Text} {id : RepoId} {plan : PushPlan}
      (pushes : q = .putManifest put extraTags) (repo : plan.repo = id) (same : plan.put = put) :
      Moves s r q (.resolved id) (.planned plan) s
  | retired {name : Text} {live : List RepoId} {internedBefore id : RepoId}
      (retires : q = .retireRepo name live internedBefore) :
      Moves s r q (.checked id) (.applied id) (s.applyBatch (Store.retireBatch name id))
  | pushed {put : CheckedPut} {extraTags : List Text} {plan : PushPlan}
      (pushes : q = .putManifest put extraTags) :
      Moves s r q (.planned plan) (.returned (some plan.repo)) (s.applyBatch plan.batch)
  | forgot {name : Text} {id : RepoId} (removes : q.removed = some name) :
      Moves s r q (.applied id) (.returned (some id))
        (s.withInterner (s.interner.forget name id))
  | scanned {id : RepoId} {cursor : Option Key} (sweeps : q = .sweep id) :
      Moves s r q (.sweeping cursor)
        (.scanned (s.store.scan (.manifestsInRepo id) cursor SWEEP_STEP)) s
  | retracted {id : RepoId} {page : Page Key Value} (sweeps : q = .sweep id) :
      Moves s r q (.scanned page) (.afterPage page.next)
        (s.applyBatch (Store.sweepRefsBatch id page.entries))
  | finished {id : RepoId} (sweeps : q = .sweep id) :
      Moves s r q .swept (.returned (some id)) (s.applyBatch (sweepFinishBatch id))

theorem moves_allocateId {s : State} {r : Nat} {q : Request} {name : Text}
    (named : q.name = some name) :
    ∃ p' u, Moves s r q .allocate p' u ∧ s.allocateId r q name = u.goto r q p' := by
  unfold State.allocateId
  split
  · exact ⟨_, _, .exhausted named, rfl⟩
  · rename_i room
    exact ⟨_, _, .allocated named room, rfl⟩

theorem moves_planPush {s : State} {r : Nat} {put : CheckedPut} {extraTags : List Text}
    {id : RepoId} :
    ∃ p' u, Moves s r (.putManifest put extraTags) (.resolved id) p' u ∧
      s.planPush r (.putManifest put extraTags) put extraTags id =
        u.goto r (.putManifest put extraTags) p' := by
  unfold State.planPush
  split
  · exact ⟨_, _, .planned rfl rfl rfl, rfl⟩
  · exact ⟨_, _, .declined rfl, rfl⟩

theorem moves_of_advance {s t : State} {r : Nat} {q : Request} {p : Progress}
    (h : s.advance r q p = some t) : ∃ p' u, Moves s r q p p' u ∧ t = u.goto r q p' := by
  cases p with
  | probe locked =>
    obtain ⟨name, named, rfl⟩ := Option.map_eq_some_iff.mp h
    split
    · rename_i id cached
      exact ⟨_, _, .hit named cached, rfl⟩
    · exact ⟨_, _, .miss named, rfl⟩
  | get locked =>
    obtain ⟨name, named, rfl⟩ := Option.map_eq_some_iff.mp h
    split
    · rename_i id stored
      exact ⟨_, _, .fetched named stored, rfl⟩
    · rename_i unmapped
      cases locked with
      | false => exact ⟨_, _, .absent named unmapped, rfl⟩
      | true => exact ⟨_, _, .stillAbsent named unmapped, rfl⟩
  | remember locked id =>
    obtain ⟨name, named, rfl⟩ := Option.map_eq_some_iff.mp h
    exact ⟨_, _, .remembered named, rfl⟩
  | lock =>
    simp only [State.advance] at h
    split at h
    · rename_i free
      exact ⟨_, _, .acquired free, (Option.some.inj h).symm⟩
    · cases h
  | allocate =>
    obtain ⟨name, named, rfl⟩ := Option.map_eq_some_iff.mp h
    exact moves_allocateId named
  | probeId =>
    cases q <;> cases h
    split
    · rename_i name cached
      exact ⟨_, _, .idHit rfl cached, rfl⟩
    · exact ⟨_, _, .idMiss, rfl⟩
  | getId =>
    cases q <;> cases h
    split
    · rename_i name stored
      exact ⟨_, _, .idFetched rfl stored, rfl⟩
    · exact ⟨_, _, .idAbsent, rfl⟩
  | rememberName name =>
    cases q <;> cases h
    exact ⟨_, _, .idRemembered rfl, rfl⟩
  | resolved id =>
    cases q <;> cases h
    · exact ⟨_, _, .tombstoned rfl, rfl⟩
    · rename_i name live internedBefore
      split
      · exact ⟨_, _, .declined rfl, rfl⟩
      · rename_i passed
        obtain ⟨older, empty⟩ := not_or.mp passed
        exact ⟨_, _, .checked rfl (UInt32.not_le.mp older) (by simpa using empty), rfl⟩
    · exact moves_planPush
  | checked id =>
    cases q <;> cases h
    exact ⟨_, _, .retired rfl, rfl⟩
  | planned plan =>
    cases q <;> cases h
    exact ⟨_, _, .pushed rfl, rfl⟩
  | applied id =>
    obtain ⟨name, named, rfl⟩ := Option.map_eq_some_iff.mp h
    exact ⟨_, _, .forgot named, rfl⟩
  | sweeping cursor =>
    cases q <;> cases h
    exact ⟨_, _, .scanned rfl, rfl⟩
  | scanned page =>
    cases q <;> cases h
    exact ⟨_, _, .retracted rfl, rfl⟩
  | swept =>
    cases q <;> cases h
    exact ⟨_, _, .finished rfl, rfl⟩
  | returned id => cases h
  | named name => cases h

theorem step_cases {s t : State} {a : Action} (h : step s a = some t) :
    (∃ q, a = .arrive q ∧ s.admits q = true ∧
      t = { s with requests := s.requests ++ [(q, q.start)] }) ∨
    ∃ r q p p' u, a = .advance r ∧ s.requests[r]? = some (q, p) ∧ Moves s r q p p' u ∧
      t = u.goto r q p' := by
  cases a with
  | arrive q =>
    simp only [step] at h
    split at h
    · rename_i admitted
      exact Or.inl ⟨q, rfl, admitted, (Option.some.inj h).symm⟩
    · cases h
  | advance r =>
    obtain ⟨⟨q, p⟩, at_, h⟩ := Option.bind_eq_some_iff.mp h
    obtain ⟨p', u, moves, ht⟩ := moves_of_advance h
    exact Or.inr ⟨r, q, p, p', u, rfl, at_, moves, ht⟩

/-! ## What is known of a name -/

/-- Whether a request at this point holds the allocation lock. -/
def Progress.locked : Progress → Bool
  | .probe locked | .get locked | .remember locked _ => locked
  | .allocate => true
  | _ => false

/-- The id a request has for the name it resolves. -/
def Progress.id : Progress → Option RepoId
  | .remember _ id | .resolved id | .checked id | .applied id => some id
  | .planned plan => some plan.repo
  | .returned id => id
  | _ => none

/-- How far a request comes that writes no name record. -/
def Progress.plain : Progress → Bool
  | .probe locked | .get locked | .remember locked _ => !locked
  | .lock | .allocate | .resolved _ | .checked _ | .planned _ | .applied _ => false
  | _ => true

def Progress.checkedId : Progress → Option RepoId
  | .checked id => some id
  | _ => none

def Progress.plan : Progress → Option PushPlan
  | .planned plan => some plan
  | _ => none

/-- What a request is about to take out of the store. -/
def unmaps : Request → Progress → Option (Text × RepoId)
  | .deleteRepository name _, .resolved id | .retireRepo name _ _, .checked id => some (name, id)
  | _, _ => none

theorem of_unmaps {q : Request} {p : Progress} {name : Text} {id : RepoId}
    (h : unmaps q p = some (name, id)) : q.removed = some name ∧ p.id = some id := by
  unfold unmaps at h
  split at h <;> cases h <;> exact ⟨rfl, rfl⟩

/-- The name a request has for the id it resolves. -/
def Progress.recalled : Progress → Option Text
  | .rememberName name => some name
  | _ => none

/-- The request has `id` in hand for `name`. -/
def Holds (q : Request) (p : Progress) (name : Text) (id : RepoId) : Prop :=
  q.name = some name ∧ p.id = some id ∨ q = .resolve id ∧ p.recalled = some name

/-- What a request is about to put into the cache. -/
def publishes (q : Request) : Progress → Option (Text × RepoId)
  | .remember _ id => q.name.map fun name => (name, id)
  | .rememberName name =>
    match q with
    | .resolve id => some (name, id)
    | _ => none
  | _ => none

theorem holds_of_publishes {q : Request} {p : Progress} {name : Text} {id : RepoId}
    (h : publishes q p = some (name, id)) : Holds q p name id := by
  cases p with
  | remember locked id' =>
    obtain ⟨name', named, hx⟩ := Option.map_eq_some_iff.mp h
    cases hx
    exact Or.inl ⟨named, rfl⟩
  | rememberName name' =>
    cases q <;> cases h
    exact Or.inr ⟨rfl, rfl⟩
  | _ => cases h

/-- The store, the cache or a request has `id` for `name`. -/
def State.Knows (s : State) (name : Text) (id : RepoId) : Prop :=
  s.store.repoByName name = some id ∨ s.interner.byName.peek name = some id ∨
    ∃ (r : Nat) (q : Request) (p : Progress), s.requests[r]? = some (q, p) ∧ Holds q p name id

@[simp] theorem id_found (q : Request) (id : RepoId) : (q.found id).id = some id := by
  cases q <;> rfl

@[simp] theorem id_missed (q : Request) : q.missed.id = none := by
  cases q <;> rfl

@[simp] theorem id_start (q : Request) : q.start.id = none := by
  cases q <;> rfl

@[simp] theorem recalled_found (q : Request) (id : RepoId) : (q.found id).recalled = none := by
  cases q <;> rfl

@[simp] theorem recalled_missed (q : Request) : q.missed.recalled = none := by
  cases q <;> rfl

@[simp] theorem recalled_start (q : Request) : q.start.recalled = none := by
  cases q <;> rfl

theorem name_of_removed {q : Request} {name : Text} (h : q.removed = some name) :
    q.name = some name := by
  cases q <;> first | exact h | cases h

/-- The step gives `name` the next id. -/
structure Allocates (s : State) (q : Request) (p : Progress) (name : Text) (u : State) : Prop where
  allocating : p = .allocate
  named : q.name = some name
  room : ¬ MAX_REPO_ID < s.store.nextId
  store : u.store = s.store.apply (RepoInterner.internBatch name s.store.nextId)

section Moves
variable {s u : State} {r : Nat} {q : Request} {p p' : Progress}

theorem Moves.requests (moves : Moves s r q p p' u) : u.requests = s.requests := by
  cases moves <;> rfl

/-- What a step does to the name and id records. -/
theorem Moves.names (moves : Moves s r q p p' u) :
    s.store.SameNames u.store ∨
      (∃ name, Allocates s q p name u) ∨
      ∃ name id, unmaps q p = some (name, id) ∧ p' = .applied id ∧
        s.store.Unmapped name id u.store := by
  cases moves with
  | allocated named room => exact Or.inr (Or.inl ⟨_, rfl, named, room, rfl⟩)
  | tombstoned deletes =>
    exact Or.inr (Or.inr ⟨_, _, by rw [deletes]; rfl, rfl, Store.unmapped_tombstone ..⟩)
  | retired retires =>
    exact Or.inr (Or.inr ⟨_, _, by rw [retires]; rfl, rfl, Store.unmapped_retire ..⟩)
  | @pushed _ _ plan pushes =>
    obtain ⟨s₀, ts, hbatch⟩ := plan.planned
    refine Or.inl (Store.sameNames_apply fun k hk => ?_)
    rw [hbatch]
    exact Store.pushBatch_names k hk
  | retracted sweeps =>
    refine Or.inl (Store.sameNames_apply fun k hk => Store.sweepRefsBatch_other ?_)
    rintro b r m rfl
    cases hk
  | finished sweeps => exact Or.inl (Store.sameNames_apply Store.sweepFinishBatch_names)
  | _ => exact Or.inl fun _ _ => rfl

/-- What a step may add to the cache is what the request publishes. -/
theorem Moves.cache (moves : Moves s r q p p' u) {name : Text} {id : RepoId}
    (h : u.interner.byName.peek name = some id) :
    s.interner.byName.peek name = some id ∨ publishes q p = some (name, id) := by
  cases moves with
  | hit named cached => exact Or.inl (Lru.peek_get _ _ _ h)
  | @remembered locked name' id' named =>
    by_cases hn : name = name'
    · subst hn
      obtain rfl : id' = id := Option.some.inj ((Lru.peek_put ..).symm.trans h)
      exact Or.inr (by rw [publishes, named]; rfl)
    · exact Or.inl (Lru.peek_put_ne hn h)
  | @idRemembered id' name' resolves =>
    by_cases hn : name = name'
    · subst hn
      obtain rfl : id' = id := Option.some.inj ((Lru.peek_put ..).symm.trans h)
      exact Or.inr (by rw [resolves]; rfl)
    · exact Or.inl (Lru.peek_put_ne hn h)
  | forgot removes =>
    have popped := (Lru.peek_pop ..).symm.trans h
    split at popped
    · cases popped
    · exact Or.inl popped
  | _ => exact Or.inl h

/-- How a request came by what it has in hand after a step. -/
theorem Moves.holds (moves : Moves s r q p p' u) {name : Text} {id : RepoId}
    (h : Holds q p' name id) :
    Holds q p name id ∨ s.interner.byName.peek name = some id ∨
      s.store.repoByName name = some id ∨ q.name = none ∧ s.store.repoById id = some name ∨
      Allocates s q p name u ∧ id = s.store.nextId := by
  cases moves with
  | hit named cached =>
    obtain ⟨hname, hid⟩ | ⟨-, hrec⟩ := h
    · obtain rfl := Option.some.inj (named.symm.trans hname)
      rw [id_found] at hid
      exact Or.inr (Or.inl (hid ▸ cached))
    · rw [recalled_found] at hrec
      cases hrec
  | fetched named stored =>
    obtain ⟨hname, hid⟩ | ⟨-, hrec⟩ := h
    · obtain rfl := Option.some.inj (named.symm.trans hname)
      exact Or.inr (Or.inr (Or.inl (hid ▸ stored)))
    · cases hrec
  | absent named unmapped =>
    obtain ⟨-, hid⟩ | ⟨-, hrec⟩ := h
    · rw [id_missed] at hid
      cases hid
    · rw [recalled_missed] at hrec
      cases hrec
  | remembered named =>
    obtain ⟨hname, hid⟩ | ⟨-, hrec⟩ := h
    · rw [id_found] at hid
      exact Or.inl (Or.inl ⟨hname, hid⟩)
    · rw [recalled_found] at hrec
      cases hrec
  | allocated named room =>
    obtain ⟨hname, hid⟩ | ⟨-, hrec⟩ := h
    · obtain rfl := Option.some.inj (named.symm.trans hname)
      refine Or.inr (Or.inr (Or.inr (Or.inr ⟨⟨rfl, named, room, rfl⟩, ?_⟩)))
      exact (Option.some.inj hid).symm
    · cases hrec
  | idFetched resolves stored =>
    obtain ⟨hname, hid⟩ | ⟨hq, hrec⟩ := h
    · cases hid
    · cases hrec
      cases resolves.symm.trans hq
      exact Or.inr (Or.inr (Or.inr (Or.inl ⟨hq ▸ rfl, stored⟩)))
  | planned pushes repo same =>
    obtain ⟨hname, hid⟩ | ⟨hq, hrec⟩ := h
    · exact Or.inl (Or.inl ⟨hname, by rw [← hid, ← repo]; rfl⟩)
    · cases hrec
  | tombstoned _ | checked _ _ _ | retired _ | pushed _ | forgot _ =>
    obtain ⟨hname, hid⟩ | ⟨hq, hrec⟩ := h
    · exact Or.inl (Or.inl ⟨hname, hid⟩)
    · cases hrec
  | scanned sweeps | retracted sweeps | finished sweeps =>
    obtain ⟨hname, -⟩ | ⟨hq, -⟩ := h
    · rw [sweeps] at hname
      cases hname
    · rw [sweeps] at hq
      cases hq
  | _ =>
    obtain ⟨-, hid⟩ | ⟨-, hrec⟩ := h
    · cases hid
    · cases hrec

/-- How a step passes the allocation lock on. -/
theorem Moves.lock (moves : Moves s r q p p' u) :
    u.alloc = s.alloc ∧ p'.locked = p.locked ∨
      p'.locked = true ∧ s.alloc = none ∧ u.alloc = some r ∨
      p'.locked = false ∧ p.locked = true ∧ u.alloc = none := by
  cases moves with
  | @hit locked _ _ _ _ | @remembered locked _ _ _ =>
    cases locked with
    | false => exact Or.inl ⟨rfl, by cases q <;> rfl⟩
    | true => exact Or.inr (Or.inr ⟨by cases q <;> rfl, rfl, rfl⟩)
  | acquired free => exact Or.inr (Or.inl ⟨rfl, free, rfl⟩)
  | exhausted _ => exact Or.inr (Or.inr ⟨rfl, rfl, rfl⟩)
  | absent _ _ => exact Or.inl ⟨rfl, by cases q <;> rfl⟩
  | @retracted _ page _ => exact Or.inl ⟨rfl, by cases page.next <;> rfl⟩
  | _ => exact Or.inl ⟨rfl, rfl⟩

theorem Moves.plain (moves : Moves s r q p p' u) (reads : q.mutates = false)
    (plain : p.plain = true) : p'.plain = true := by
  cases moves with
  | hit _ _ | absent _ _ | remembered _ => cases q <;> first | rfl | cases reads
  | fetched _ _ => exact plain
  | miss _ => exact plain
  | @retracted _ page _ => cases page.next <;> rfl
  | stillAbsent _ _ | acquired _ | allocated _ _ | checked _ _ _ | planned _ _ _ | tombstoned _
  | retired _ => cases plain
  | _ => rfl

/-- A request is about to allocate only where it read that its name has no id. -/
theorem Moves.allocates (moves : Moves s r q p .allocate u) {name : Text}
    (named : q.name = some name) : u.store.repoByName name = none := by
  generalize hp : Progress.allocate = p' at moves
  cases moves with
  | stillAbsent named' unmapped =>
    obtain rfl := Option.some.inj (named.symm.trans named')
    exact unmapped
  | absent _ _ => cases q <;> cases hp
  | hit _ _ | remembered _ => cases q <;> cases hp
  | @retracted _ page _ => cases hn : page.next <;> rw [hn] at hp <;> cases hp
  | _ => cases hp

theorem requests_goto (at_ : s.requests[r]? = some (q, p)) (same : u.requests = s.requests)
    {r' : Nat} {q' : Request} {p'' : Progress}
    (h : (u.goto r q p').requests[r']? = some (q', p'')) :
    r' = r ∧ q' = q ∧ p'' = p' ∨ r' ≠ r ∧ s.requests[r']? = some (q', p'') := by
  rw [State.goto, same] at h
  rcases Pool.of_set at_ h with ⟨hr, hx⟩ | ⟨hr, hx⟩
  · obtain ⟨hq, hp⟩ := Prod.mk.inj hx
    exact Or.inl ⟨hr, hq, hp⟩
  · exact Or.inr ⟨hr, hx⟩

/-- What is known after a step was known, or is in an id record, or is new. -/
theorem Moves.knows (moves : Moves s r q p p' u) (at_ : s.requests[r]? = some (q, p))
    {name : Text} {id : RepoId} (h : (u.goto r q p').Knows name id) :
    s.Knows name id ∨ s.store.repoById id = some name ∨
      Allocates s q p name u ∧ id = s.store.nextId := by
  have held (h : Holds q p name id) : s.Knows name id := Or.inr (Or.inr ⟨r, q, p, at_, h⟩)
  rcases h with h | h | ⟨r', q', p'', hget, h⟩
  · change u.store.repoByName name = some id at h
    rcases moves.names with same | ⟨name', allocates⟩ | ⟨name', id', -, -, unmapped⟩
    · exact Or.inl (Or.inl (same.repoByName name ▸ h))
    · rw [allocates.store, Store.internBatch_repoByName] at h
      split at h
      · rename_i hn
        exact Or.inr (Or.inr ⟨hn ▸ allocates, (Option.some.inj h).symm⟩)
      · exact Or.inl (Or.inl h)
    · rw [unmapped.repoByName] at h
      split at h
      · cases h
      · exact Or.inl (Or.inl h)
  · rcases moves.cache h with h | h
    · exact Or.inl (Or.inr (Or.inl h))
    · exact Or.inl (held (holds_of_publishes h))
  · rcases requests_goto at_ moves.requests hget with ⟨rfl, rfl, rfl⟩ | ⟨-, hget⟩
    · rcases moves.holds h with h | h | h | h | h
      · exact Or.inl (held h)
      · exact Or.inl (Or.inr (Or.inl h))
      · exact Or.inl (Or.inl h)
      · exact Or.inr (Or.inl h.2)
      · exact Or.inr (Or.inr h)
    · exact Or.inl (Or.inr (Or.inr ⟨r', q', p'', hget, h⟩))

end Moves

/-! ## What always holds -/

/-- The lock has one holder, ids are handed out in order, and a name that is
known under an id is the only one the id is stored with. -/
structure Coherent (s : State) : Prop where
  holder : ∀ (r : Nat) (q : Request) (p : Progress), s.requests[r]? = some (q, p) →
    (p.locked = true ↔ s.alloc = some r)
  holds : ∀ r, s.alloc = some r → r < s.requests.length
  unmapped : ∀ (r : Nat) (q : Request) (name : Text), s.requests[r]? = some (q, .allocate) →
    q.name = some name → s.store.repoByName name = none
  known : ∀ name id, s.Knows name id → id < s.store.nextId ∧
    ∀ x, s.store.repoById id = some x → x = name
  issued : ∀ id name, s.store.repoById id = some name → id < s.store.nextId
  plain : ∀ (r : Nat) (q : Request) (p : Progress), s.requests[r]? = some (q, p) →
    q.mutates = false → p.plain = true

theorem coherent_init (options : RegistryOptions) (entries : Nat) :
    Coherent (State.init options entries) where
  holder r q p h := by simp [State.init] at h
  holds r h := by simp [State.init] at h
  unmapped r q name h := by simp [State.init] at h
  known name id h := by
    rcases h with h | h | ⟨r, q, p, h, -⟩
    · simp [State.init, Store.repoByName] at h
    · simp [State.init, RepoInterner.withCapacity] at h
    · simp [State.init] at h
  issued id name h := by simp [State.init, Store.repoById] at h
  plain r q p h := by simp [State.init] at h

theorem locked_start (q : Request) : q.start.locked = false := by
  cases q <;> rfl

/-- A request that is only there knows nothing yet. -/
theorem knows_arrive {s : State} {q : Request} {name : Text} {id : RepoId}
    (h : State.Knows { s with requests := s.requests ++ [(q, q.start)] } name id) :
    s.Knows name id := by
  rcases h with h | h | ⟨r, q', p, hget, h⟩
  · exact Or.inl h
  · exact Or.inr (Or.inl h)
  · rcases Pool.of_add hget with ⟨-, hx⟩ | hget
    · cases hx
      obtain ⟨-, hid⟩ | ⟨-, hrec⟩ := h
      · rw [id_start] at hid
        cases hid
      · rw [recalled_start] at hrec
        cases hrec
    · exact Or.inr (Or.inr ⟨r, q', p, hget, h⟩)

theorem Coherent.arrive {s : State} (inv : Coherent s) (q : Request) :
    Coherent { s with requests := s.requests ++ [(q, q.start)] } where
  holder r q' p h := by
    rcases Pool.of_add h with ⟨rfl, hx⟩ | h
    · cases hx
      rw [locked_start]
      constructor
      · intro hl
        cases hl
      · intro halloc
        exact absurd (inv.holds _ halloc) (lt_irrefl _)
    · exact inv.holder r q' p h
  holds r h := by
    have := inv.holds r h
    rw [List.length_append]
    omega
  unmapped r q' name h := by
    rcases Pool.of_add h with ⟨-, hx⟩ | h
    · cases q <;> cases hx
    · exact inv.unmapped r q' name h
  known name id h := inv.known name id (knows_arrive h)
  issued := inv.issued
  plain r q' p h reads := by
    rcases Pool.of_add h with ⟨-, hx⟩ | h
    · cases hx
      cases q <;> rfl
    · exact inv.plain r q' p h reads

theorem ne_nextId_key {id n : RepoId} (h : id < n) : id ≠ NEXT_ID_KEY_ID := by
  rintro rfl
  have := UInt32.lt_iff_toNat_lt.mp h
  have := n.toNat_lt
  simp [NEXT_ID_KEY_ID] at *
  omega

/-- An id within the space has a successor. -/
theorem succ_of_room {n : RepoId} (room : ¬ MAX_REPO_ID < n) :
    n ≠ NEXT_ID_KEY_ID ∧ n < n + 1 ∧ ∀ k, k < n → k < n + 1 := by
  have last : n.toNat ≤ 4294967294 := UInt32.le_iff_toNat_le.mp (UInt32.not_lt.mp room)
  have succ : (n + 1).toNat = n.toNat + 1 := by
    rw [UInt32.toNat_add]
    exact Nat.mod_eq_of_lt (by simp; omega)
  refine ⟨?_, ?_, ?_⟩
  · rintro rfl
    simp [NEXT_ID_KEY_ID] at last
  · rw [UInt32.lt_iff_toNat_lt, succ]
    omega
  · intro k hk
    rw [UInt32.lt_iff_toNat_lt] at hk ⊢
    omega

section Coherent
variable {s u : State} {r : Nat} {q : Request} {p p' : Progress}

theorem Coherent.of_holds (inv : Coherent s) (at_ : s.requests[r]? = some (q, p)) {name : Text}
    {id : RepoId} (named : q.name = some name) (hid : p.id = some id) :
    id < s.store.nextId ∧ ∀ x, s.store.repoById id = some x → x = name :=
  inv.known name id (Or.inr (Or.inr ⟨r, q, p, at_, Or.inl ⟨named, hid⟩⟩))

/-- The counter only grows. -/
theorem Coherent.nextId_mono (inv : Coherent s) (moves : Moves s r q p p' u)
    (at_ : s.requests[r]? = some (q, p)) {k : RepoId} (hk : k < s.store.nextId) :
    k < u.store.nextId := by
  rcases moves.names with same | ⟨name, allocates⟩ | ⟨name, id, unmaps, -, unmapped⟩
  · rwa [same.nextId]
  · rw [allocates.store, Store.internBatch_nextId]
    exact (succ_of_room allocates.room).2.2 k hk
  · obtain ⟨removes, hid⟩ := of_unmaps unmaps
    obtain ⟨lt, -⟩ := inv.of_holds at_ (name_of_removed removes) hid
    rwa [unmapped.nextId (ne_nextId_key lt)]

/-- An id record is an old one or that of a new id. -/
theorem Moves.repoById (moves : Moves s r q p p' u) {k : RepoId} {x : Text}
    (h : u.store.repoById k = some x) :
    s.store.repoById k = some x ∨ Allocates s q p x u ∧ k = s.store.nextId := by
  rcases moves.names with same | ⟨name, allocates⟩ | ⟨name, id, -, -, unmapped⟩
  · rw [same.repoById] at h
    exact Or.inl h
  · rw [allocates.store, Store.internBatch_repoById _ (succ_of_room allocates.room).1] at h
    split at h
    · cases h
    · split at h
      · rename_i hk
        exact Or.inr ⟨Option.some.inj h ▸ allocates, hk⟩
      · exact Or.inl h
  · rw [unmapped.repoById] at h
    split at h
    · cases h
    · exact Or.inl h

theorem Allocates.lt_nextId {name : Text} (h : Allocates s q p name u) :
    s.store.nextId < u.store.nextId := by
  rw [h.store, Store.internBatch_nextId]
  exact (succ_of_room h.room).2.1

theorem Coherent.advance (inv : Coherent s) (moves : Moves s r q p p' u)
    (at_ : s.requests[r]? = some (q, p)) : Coherent (u.goto r q p') where
  holder r' q' p'' h := by
    have here := inv.holder r q p at_
    change p''.locked = true ↔ u.alloc = some r'
    rcases requests_goto at_ moves.requests h with ⟨rfl, rfl, rfl⟩ | ⟨hne, h⟩
    · rcases moves.lock with ⟨alloc, locked⟩ | ⟨locked, -, alloc⟩ | ⟨unlocked, -, alloc⟩
      · rw [alloc, locked, here]
      · simp [locked, alloc]
      · simp [unlocked, alloc]
    · have there := inv.holder r' q' p'' h
      rcases moves.lock with ⟨alloc, -⟩ | ⟨-, free, alloc⟩ | ⟨-, locked, alloc⟩
      · rw [alloc, there]
      · simp [there, free, alloc, Ne.symm hne]
      · simp [there, here.mp locked, alloc, Ne.symm hne]
  holds r' h := by
    rw [State.goto, List.length_set, moves.requests]
    rcases moves.lock with ⟨alloc, -⟩ | ⟨-, -, alloc⟩ | ⟨-, -, alloc⟩
    · exact inv.holds r' (alloc ▸ h)
    · obtain rfl : r = r' := Option.some.inj (alloc.symm.trans h)
      exact (List.getElem?_eq_some_iff.mp at_).1
    · cases alloc.symm.trans h
  unmapped r' q' name h named := by
    change u.store.repoByName name = none
    rcases requests_goto at_ moves.requests h with ⟨rfl, rfl, rfl⟩ | ⟨hne, h⟩
    · exact moves.allocates named
    · have old := inv.unmapped r' q' name h named
      rcases moves.names with same | ⟨name', allocates⟩ | ⟨name', id, -, -, unmapped⟩
      · rw [same.repoByName, old]
      · -- two requests would hold the lock
        obtain rfl := allocates.allocating
        have here := (inv.holder r q _ at_).mp rfl
        have there := (inv.holder r' q' _ h).mp rfl
        exact absurd (Option.some.inj (there.symm.trans here)) hne
      · rw [unmapped.repoByName, old, ite_self]
  known name id h := by
    have fresh {x : Text} (hx : s.store.repoById s.store.nextId = some x) : False :=
      UInt32.lt_irrefl _ (inv.issued _ x hx)
    rcases moves.knows at_ h with known | stored | ⟨allocates, rfl⟩
    · obtain ⟨lt, only⟩ := inv.known name id known
      refine ⟨inv.nextId_mono moves at_ lt, fun x hx => ?_⟩
      rcases moves.repoById hx with hx | ⟨-, rfl⟩
      · exact only x hx
      · exact absurd lt (UInt32.lt_irrefl _)
    · refine ⟨inv.nextId_mono moves at_ (inv.issued id name stored), fun x hx => ?_⟩
      rcases moves.repoById hx with hx | ⟨-, rfl⟩
      · exact Option.some.inj (hx.symm.trans stored)
      · exact absurd stored fun h => fresh h
    · refine ⟨allocates.lt_nextId, fun x hx => ?_⟩
      rcases moves.repoById hx with hx | ⟨also, -⟩
      · exact absurd hx fun h => fresh h
      · exact Option.some.inj (also.named.symm.trans allocates.named)
  issued id name h := by
    rcases moves.repoById h with h | ⟨allocates, rfl⟩
    · exact inv.nextId_mono moves at_ (inv.issued id name h)
    · exact allocates.lt_nextId
  plain r' q' p'' h reads := by
    rcases requests_goto at_ moves.requests h with ⟨rfl, rfl, rfl⟩ | ⟨-, h⟩
    · exact moves.plain reads (inv.plain _ _ _ at_ reads)
    · exact inv.plain r' q' p'' h reads

end Coherent

theorem coherent_step {s t : State} {a : Action} (inv : Coherent s) (h : step s a = some t) :
    Coherent t := by
  rcases step_cases h with ⟨q, rfl, -, rfl⟩ | ⟨r, q, p, p', u, rfl, at_, moves, rfl⟩
  · exact inv.arrive q
  · exact inv.advance moves at_

end Names

end Summ
