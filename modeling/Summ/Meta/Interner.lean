import Summ.Lib.Lru
import Summ.Meta.Engine

/-! The interner: names and ids in the store, and the two bounded caches in
front of them. Each call here is one caller's alone; what its steps do when
callers interleave is modelled where the server is. -/

namespace Summ

/-- `i <u32::MAX>` is the allocation counter. -/
def NEXT_ID_KEY_ID : RepoId := 4294967295
def MAX_REPO_ID : RepoId := NEXT_ID_KEY_ID - 1

structure RepoInterner where
  byName : Lru Text RepoId
  byId : Lru RepoId Text

namespace Store

/-- `n <name>`, decoded. -/
def repoByName (s : Store) (name : Text) : Option RepoId :=
  match s.get (.repoByName name) with
  | some (.repoId id) => some id
  | _ => none

/-- `i <id>`, decoded. -/
def repoById (s : Store) (id : RepoId) : Option Text :=
  match s.get (.repoById id) with
  | some (.repoName name) => some name
  | _ => none

/-- The allocation counter, 0 before the first allocation. -/
def nextId (s : Store) : RepoId :=
  match s.get (.repoById NEXT_ID_KEY_ID) with
  | some (.repoId id) => id
  | _ => 0

end Store

namespace RepoInterner

/-- Every live repository on a registry of any plausible size. -/
def DEFAULT_CACHE_ENTRIES : Nat := 100000

def withCapacity (entries : Nat) : RepoInterner where
  byName := Lru.withCapacity entries
  byId := Lru.withCapacity entries

/-- `RepoInterner::default`. -/
def default : RepoInterner := withCapacity DEFAULT_CACHE_ENTRIES

def remember (c : RepoInterner) (name : Text) (id : RepoId) : RepoInterner where
  byName := c.byName.put name id
  byId := c.byId.put id name

def forget (c : RepoInterner) (name : Text) (id : RepoId) : RepoInterner where
  byName := c.byName.pop name
  byId := c.byId.pop id

/-- `lookup`: the cache, then the store, remembering what the store says. -/
def lookup (c : RepoInterner) (s : Store) (name : Text) : Option RepoId × RepoInterner :=
  match c.byName.get name with
  | (some id, byName) => (some id, { c with byName })
  | (none, byName) =>
    let c := { c with byName }
    match s.repoByName name with
    | some id => (some id, c.remember name id)
    | none => (none, c)

/-- `resolve`. -/
def resolve (c : RepoInterner) (s : Store) (id : RepoId) : Option Text × RepoInterner :=
  match c.byId.get id with
  | (some name, byId) => (some name, { c with byId })
  | (none, byId) =>
    let c := { c with byId }
    match s.repoById id with
    | some name => (some name, c.remember name id)
    | none => (none, c)

/-- The batch that gives `name` the id `id`. -/
def internBatch (name : Text) (id : RepoId) : WriteBatch :=
  [.put (.repoByName name) (.repoId id) rfl, .put (.repoById id) (.repoName name) rfl,
    .put (.repoById NEXT_ID_KEY_ID) (.repoId (id + 1)) rfl]

/-- `intern`: an error leaves the store as it is. -/
def intern (c : RepoInterner) (s : Store) (name : Text) :
    Except SummError RepoId × RepoInterner × Store :=
  match c.lookup s name with
  | (some id, c) => (.ok id, c, s)
  | (none, c) =>
    match c.lookup s name with
    | (some id, c) => (.ok id, c, s)
    | (none, c) =>
      let id := s.nextId
      if MAX_REPO_ID < id then (.error (.invalidData "repo id space exhausted"), c, s)
      else (.ok id, c.remember name id, s.apply (internBatch name id))

/-- An intern touches name and id records only. -/
theorem intern_get {c : RepoInterner} {s : Store} {name : Text} {k : Key}
    (hn : ∀ n, k ≠ .repoByName n) (hi : ∀ i, k ≠ .repoById i) :
    (c.intern s name).2.2.get k = s.get k := by
  unfold intern
  split
  · rfl
  · split
    · rfl
    · dsimp only
      split
      · rfl
      · apply Store.get_apply_of_effect
        simp [internBatch, MetaOp.effect, Ne.symm (hn _), Ne.symm (hi _)]

end RepoInterner

end Summ
