import Summ.Registry.State

/-! Pull counts: a flush folds its deltas into one bucket for each day of a
manifest, a tag or a repository. -/

namespace Summ

/-- `u32::saturating_add`. -/
def saturatingAdd32 (a b : UInt32) : UInt32 :=
  if a.toNat + b.toNat < 2 ^ 32 then a + b else .ofNat (2 ^ 32 - 1)

/-- `u64::saturating_add`. -/
def saturatingAdd64 (a b : UInt64) : UInt64 :=
  if a.toNat + b.toNat < 2 ^ 64 then a + b else .ofNat (2 ^ 64 - 1)

/-- `manifest_pulls.min(u32::MAX as u64) as u32`. -/
def clamp32 (n : UInt64) : UInt32 := .ofNat (min n.toNat (2 ^ 32 - 1))

namespace CounterBucket

def default : CounterBucket where
  manifestPulls := .replicate HOURS_PER_DAY 0
  blobPulls := .replicate HOURS_PER_DAY 0
  bytesOut := .replicate HOURS_PER_DAY 0

/-- Add one hour's increments; an hour outside the day is ignored. -/
def add (b : CounterBucket) (hour : Nat) (manifestPulls blobPulls bytesOut : UInt64) :
    CounterBucket :=
  if h : hour < HOURS_PER_DAY then
    let i : Fin HOURS_PER_DAY := ⟨hour, h⟩
    { manifestPulls :=
        b.manifestPulls.set i (saturatingAdd32 (b.manifestPulls.get i) (clamp32 manifestPulls))
      blobPulls := b.blobPulls.set i (saturatingAdd32 (b.blobPulls.get i) (clamp32 blobPulls))
      bytesOut := b.bytesOut.set i (saturatingAdd64 (b.bytesOut.get i) bytesOut) }
  else b

/-- Another bucket's hours, added one by one. -/
def addDay (b other : CounterBucket) : CounterBucket :=
  (List.finRange HOURS_PER_DAY).foldl (fun b (i : Fin HOURS_PER_DAY) => b.add i
    (other.manifestPulls.get i).toUInt64 (other.blobPulls.get i).toUInt64 (other.bytesOut.get i)) b

end CounterBucket

inductive CountSubject
  | manifest (digest : Digest)
  | tag (tag : Tag)
  | repo
  deriving DecidableEq

structure CountDelta where
  repo : Text
  subject : CountSubject
  day : UInt16
  hour : Nat
  manifestPulls : UInt64
  blobPulls : UInt64
  bytesOut : UInt64

/-- What one bucket is for. -/
structure CountGroup where
  repo : Text
  subject : CountSubject
  day : UInt16
  deriving DecidableEq

def CountDelta.group (d : CountDelta) : CountGroup where
  repo := d.repo
  subject := d.subject
  day := d.day

/-- The shard written by a single node. -/
def SHARD : UInt16 := 0

def CountGroup.key (g : CountGroup) (repo : RepoId) : Key :=
  match g.subject with
  | .manifest digest => .counterManifest repo digest g.day SHARD
  | .tag t => .counterTag repo t g.day SHARD
  | .repo => .counterRepo repo g.day SHARD

theorem CountGroup.fits (g : CountGroup) (repo : RepoId) (bucket : CounterBucket) :
    (g.key repo).fits (.counter bucket) = true := by
  unfold CountGroup.key
  split <;> rfl

namespace Store

variable (s : Store)

def counterBucket (k : Key) : Option CounterBucket :=
  match s.get k with
  | some (.counter bucket) => some bucket
  | _ => none

/-- The bucket of a group with its deltas added. -/
def addedBucket (g : CountGroup) (repo : RepoId) (deltas : List CountDelta) : CounterBucket :=
  (deltas.filter fun d => d.group = g).foldl
    (fun b d => b.add d.hour d.manifestPulls d.blobPulls d.bytesOut)
    ((s.counterBucket (g.key repo)).getD .default)

end Store

namespace Registry

/-- The writes of a flush: a repository that is not there is skipped, and never
interned. -/
def countOps (deltas : List CountDelta) : Registry → List CountGroup → WriteBatch × Registry
  | r, [] => ([], r)
  | r, g :: groups =>
    match r.lookupRepo g.repo with
    | (none, r) => countOps deltas r groups
    | (some id, r) =>
      let (batch, r') := countOps deltas r groups
      (.put (g.key id) (.counter (r.store.addedBucket g id deltas)) (g.fits ..) :: batch, r')

/-- `add_pull_counts`. The order of the groups shows in nothing but how recently
a name was used. -/
def addPullCounts (r : Registry) (deltas : List CountDelta) : Nat × Registry :=
  let (batch, r) := r.countOps deltas (deltas.map CountDelta.group).dedup
  (batch.length, { r with store := r.store.apply batch })

end Registry

end Summ
