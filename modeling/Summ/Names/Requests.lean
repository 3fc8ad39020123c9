import Summ.Lib.Pool
import Summ.Registry.Operations

/-!
# Requests that share the interner

A lookup probes the cache, reads the store and remembers what it read; an
intern repeats that under the allocation lock before it allocates. A deletion
or a retirement resolves its name, applies its batch, and forgets the cache
entry; a push resolves, plans and applies; a sweep pages over a dead id. Each
of these is a step of its own, and requests take their steps in any order. The
tag lock is left out: a dropped request gives it back while its work runs on,
so it rules out no order of these steps.
-/

namespace Summ

/-- Manifests one step of a sweep examines. -/
def SWEEP_STEP : Nat := 500

namespace RepoInterner

variable (c : RepoInterner)

/-- A hit makes the entry the most recent one. -/
def touchName (name : Text) : RepoInterner := { c with byName := (c.byName.get name).2 }

def touchId (id : RepoId) : RepoInterner := { c with byId := (c.byId.get id).2 }

end RepoInterner

namespace Names

inductive Request
  | lookup (name : Text)
  | resolve (id : RepoId)
  | intern (name : Text)
  | deleteRepository (name : Text) (now : Timestamp)
  | retireRepo (name : Text) (live : List RepoId) (internedBefore : RepoId)
  | putManifest (put : CheckedPut) (extraTags : List Text)
  | sweep (id : RepoId)

/-- A push's batch, as planned on the store it read. -/
structure PushPlan where
  repo : RepoId
  put : CheckedPut
  batch : WriteBatch
  planned : ∃ (s : Store) (ts : List Tag), batch = s.pushBatch repo put ts

/-- How far a request has come. `locked` says that it holds the allocation lock. -/
inductive Progress
  | probe (locked : Bool)
  | get (locked : Bool)
  /-- The name's id is known, and not in the cache yet. -/
  | remember (locked : Bool) (id : RepoId)
  | lock
  | allocate
  | probeId
  | getId
  | rememberName (name : Text)
  | resolved (id : RepoId)
  /-- A retirement has found the repository empty. -/
  | checked (id : RepoId)
  | planned (plan : PushPlan)
  /-- The name is gone from the store, and not from the cache yet. -/
  | applied (id : RepoId)
  | sweeping (cursor : Option Key)
  | scanned (page : Page Key Value)
  | swept
  | returned (id : Option RepoId)
  | named (name : Option Text)

def Progress.isReturned : Progress → Bool
  | .returned _ => true
  | _ => false

def Progress.isNamed : Progress → Bool
  | .named _ => true
  | _ => false

/-- A page with a cursor has another after it. -/
def Progress.afterPage : Option Key → Progress
  | some next => .sweeping (some next)
  | none => .swept

namespace Request

/-- The name a request resolves. -/
def name : Request → Option Text
  | lookup name | intern name | deleteRepository name _ | retireRepo name _ _ => some name
  | putManifest put _ => some put.put.repo
  | resolve _ | sweep _ => none

def start : Request → Progress
  | resolve _ => .probeId
  | sweep _ => .sweeping none
  | _ => .probe false

/-- Where a request goes with the id of its name. -/
def found (id : RepoId) : Request → Progress
  | deleteRepository .. | retireRepo .. | putManifest .. => .resolved id
  | _ => .returned (some id)

/-- Where it goes when the name has none: an intern allocates one. -/
def missed : Request → Progress
  | intern _ | putManifest .. => .lock
  | _ => .returned none

/-- The name a request takes out of the store. -/
def removed : Request → Option Text
  | deleteRepository name _ | retireRepo name _ _ => some name
  | _ => none

def lookedUp : Request → Option Text
  | lookup name => some name
  | _ => none

/-- A request that may write a name record. -/
def mutates : Request → Bool
  | lookup _ | resolve _ | sweep _ => false
  | _ => true

end Request

structure State where
  store : Store
  interner : RepoInterner
  options : RegistryOptions
  /-- The request that holds the allocation lock. -/
  alloc : Option Nat
  requests : List (Request × Progress)

/-- An empty store, and caches that hold `entries` names. -/
def State.init (options : RegistryOptions) (entries : Nat) : State where
  store := ∅
  interner := .withCapacity entries
  options
  alloc := none
  requests := []

namespace State

/-- No request is outstanding. -/
def Quiescent (s : State) : Prop :=
  ∀ x ∈ s.requests, x.2.isReturned = true ∨ x.2.isNamed = true

instance (s : State) : Decidable s.Quiescent := inferInstanceAs (Decidable (∀ x ∈ s.requests, _))

variable (s : State) (r : Nat) (q : Request)

def goto (p : Progress) : State := { s with requests := s.requests.set r (q, p) }

/-- A request that holds the allocation lock gives it back. -/
def unlock (locked : Bool) : State := { s with alloc := if locked then none else s.alloc }

def withInterner (interner : RepoInterner) : State := { s with interner }

def applyBatch (batch : WriteBatch) : State := { s with store := s.store.apply batch }

/-- `next_id`, and the batch that takes it. -/
def allocateId (name : Text) : State :=
  if MAX_REPO_ID < s.store.nextId then (s.unlock true).goto r q (.returned none)
  else (s.applyBatch (RepoInterner.internBatch name s.store.nextId)).goto r q
    (.remember true s.store.nextId)

/-- `plan_manifest_put_tagged`, the name interned. -/
def planPush (put : CheckedPut) (extraTags : List Text) (id : RepoId) : State :=
  match h : s.store.planPush s.options id put extraTags with
  | .ok planned => s.goto r q (.planned {
      repo := id
      put
      batch := planned.batch
      planned := (Store.planPush_ok h).2.elim fun ts h => ⟨s.store, ts, h.2⟩ })
  | .error _ => s.goto r q (.returned none)

/-- The next step of a request. -/
def advance : Progress → Option State
  | .probe locked => q.name.map fun name =>
    match s.interner.byName.peek name with
    | some id => ((s.withInterner (s.interner.touchName name)).unlock locked).goto r q (q.found id)
    | none => s.goto r q (.get locked)
  | .get locked => q.name.map fun name =>
    match s.store.repoByName name with
    | some id => s.goto r q (.remember locked id)
    | none => s.goto r q (if locked then .allocate else q.missed)
  | .remember locked id => q.name.map fun name =>
    ((s.withInterner (s.interner.remember name id)).unlock locked).goto r q (q.found id)
  | .lock => if s.alloc = none then some ({ s with alloc := some r }.goto r q (.probe true)) else none
  | .allocate => q.name.map fun name => s.allocateId r q name
  | .probeId =>
    match q with
    | .resolve id => some <|
      match s.interner.byId.peek id with
      | some name => (s.withInterner (s.interner.touchId id)).goto r q (.named (some name))
      | none => s.goto r q .getId
    | _ => none
  | .getId =>
    match q with
    | .resolve id => some <|
      match s.store.repoById id with
      | some name => s.goto r q (.rememberName name)
      | none => s.goto r q (.named none)
    | _ => none
  | .rememberName name =>
    match q with
    | .resolve id => some <|
      (s.withInterner (s.interner.remember name id)).goto r q (.named (some name))
    | _ => none
  | .resolved id =>
    match q with
    | .deleteRepository name now =>
      some ((s.applyBatch (Store.tombstoneBatch name id now)).goto r q (.applied id))
    | .retireRepo _ live internedBefore => some <|
      if internedBefore ≤ id ∨ s.store.repoIsEmpty id live = false then s.goto r q (.returned none)
      else s.goto r q (.checked id)
    | .putManifest put extraTags => some (s.planPush r q put extraTags id)
    | _ => none
  | .checked id =>
    match q with
    | .retireRepo name _ _ =>
      some ((s.applyBatch (Store.retireBatch name id)).goto r q (.applied id))
    | _ => none
  | .planned plan =>
    match q with
    | .putManifest .. => some ((s.applyBatch plan.batch).goto r q (.returned (some plan.repo)))
    | _ => none
  | .applied id => q.removed.map fun name =>
    (s.withInterner (s.interner.forget name id)).goto r q (.returned (some id))
  | .sweeping cursor =>
    match q with
    | .sweep id =>
      some (s.goto r q (.scanned (s.store.scan (.manifestsInRepo id) cursor SWEEP_STEP)))
    | _ => none
  | .scanned page =>
    match q with
    | .sweep id =>
      some ((s.applyBatch (Store.sweepRefsBatch id page.entries)).goto r q (.afterPage page.next))
    | _ => none
  | .swept =>
    match q with
    | .sweep id => some ((s.applyBatch (sweepFinishBatch id)).goto r q (.returned (some id)))
    | _ => none
  | .returned _ | .named _ => none

/-- A sweep is of an id with a `D` record, and no one resolves the id that the
counter is stored under. -/
def admits : Request → Bool
  | .sweep id => s.store.has (.deadRepo id)
  | .resolve id => id ≠ NEXT_ID_KEY_ID
  | _ => true

end State

inductive Action
  | arrive (q : Request)
  | advance (r : Nat)

/-- A request arrives that may write a name record. -/
def Action.mutates : Action → Bool
  | arrive q => q.mutates
  | advance _ => false

def step (s : State) : Action → Option State
  | .arrive q =>
    if s.admits q then some { s with requests := s.requests ++ [(q, q.start)] } else none
  | .advance r => s.requests[r]?.bind fun (q, p) => s.advance r q p

end Names

end Summ
