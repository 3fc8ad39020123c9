import Summ.Names.Maps
import Summ.Registry.Frames
import Summ.Registry.Operations
import Summ.Registry.Queries

/-!
# One call at a time

`System` is the registry with the sweeps of dropped repositories that have not
finished. A `Call` runs alone: an operation, a deletion or a mount of a blob, the
deletion of a repository, a flush of pull counts, one step of a sweep, or a
restart. Steps of the sweeps come anywhere between the other calls.
-/

namespace Summ

namespace Registry

variable (r : Registry)

def deleteBlobReference (name : Text) (digest : Digest) :
    Except RegistryError BlobRefDeleted × Registry :=
  commit (r.planBlobReferenceDelete name digest)

/-- Whether the blob may be mounted from there: a named source must itself be
entitled to it, and an anonymous mount asks only whether it exists. -/
def mountEntitled (digest : Digest) : Option Text → Bool × Registry
  | some source => r.blobIsServable source digest
  | none => (true, r)

def mountBlob (name : Text) (digest : Digest) (from_ : Option Text) (now : Timestamp) :
    Except RegistryError Bool × Registry :=
  match r.mountEntitled digest from_ with
  | (false, r) => (.ok false, r)
  | (true, r) =>
    match r.store.blobRecord digest with
    | none => (.ok false, r)
    | some record =>
      match r.commitBlob name digest record.size now with
      | (.ok (), r) => (.ok true, r)
      | (.error e, r) => (.error e, r)

end Registry

/-- A sweep of a dropped repository: where its next page starts, and whether the
last page has been seen. -/
structure Sweep where
  repo : RepoId
  cursor : Option Key
  drained : Bool

structure System where
  registry : Registry
  sweeps : List Sweep

inductive Call
  | operation (op : Operation)
  | deleteBlobReference (repo : Text) (digest : Digest)
  | mountBlob (repo : Text) (digest : Digest) (from_ : Option Text) (now : Timestamp)
  | deleteRepository (repo : Text) (now : Timestamp)
  | addPullCounts (deltas : List CountDelta)
  | startSweep (id : RepoId)
  | sweepPage (sweep : Nat)
  | finishSweep (sweep : Nat)
  | restart (entries : Nat)

/-- Whether the operation did what it was asked to. -/
def Operation.accepted (oci : Oci) (r : Registry) : Operation → Bool
  | putManifest put extraTags => (r.putManifest oci put extraTags).1.isOk
  | setTag repo tag digest now => (r.setTag oci repo tag digest now).1.isOk
  | deleteTag repo tag now => (r.deleteTag repo tag now).1.isOk
  | deleteManifest repo digest now => (r.deleteManifest repo digest now).1.isOk
  | purgeManifest repo digest pushedBefore now =>
    match (r.purgeManifest repo digest pushedBefore now).1 with
    | .ok deleted => deleted.isSome
    | .error _ => false
  | sweepRepoBlobs .. | scanBlobs .. => true
  | collectBlob digest seenBefore => (r.store.collectBlob digest seenBefore).1.isSome
  | retireRepo repo live internedBefore => (r.retireRepo repo live internedBefore).1.isSome
  | commitBlob repo digest size now => (r.commitBlob repo digest size now).1.isOk

namespace System

/-- An empty store, and caches that hold `entries` names. -/
def start (options : RegistryOptions) (entries : Nat) : System where
  registry := {
    store := ∅
    interner := .withCapacity entries
    options }
  sweeps := []

def store (sys : System) : Store := sys.registry.store

/-- A call, whether it did what it was asked to, and the state after it. A sweep
starts for a repository with a `D` record; it ends once its last page has been
seen. -/
def call (oci : Oci) (sys : System) : Call → Option (Bool × System)
  | .operation op =>
    some (op.accepted oci sys.registry, { sys with registry := op.run oci sys.registry })
  | .deleteBlobReference repo digest =>
    let (result, registry) := sys.registry.deleteBlobReference repo digest
    some (result.isOk, { sys with registry })
  | .mountBlob repo digest from_ now =>
    let (result, registry) := sys.registry.mountBlob repo digest from_ now
    some (result.toOption.getD false, { sys with registry })
  | .deleteRepository repo now =>
    let (result, registry) := sys.registry.deleteRepository repo now
    some (result.isOk, { sys with registry })
  | .addPullCounts deltas =>
    some (true, { sys with registry := (sys.registry.addPullCounts deltas).2 })
  | .startSweep id =>
    if sys.store.has (.deadRepo id) then
      some (true, { sys with
        sweeps := sys.sweeps ++ [{ repo := id, cursor := none, drained := false }] })
    else none
  | .sweepPage i => sys.sweeps[i]?.bind fun sweep =>
    if sweep.drained then none
    else
      let (page, store) := sys.store.sweepRepoRefs sweep.repo sweep.cursor SWEEP_STEP
      some (true, {
        registry := { sys.registry with store }
        sweeps := sys.sweeps.set i
          { sweep with cursor := page.next, drained := page.next.isNone } })
  | .finishSweep i => sys.sweeps[i]?.bind fun sweep =>
    if sweep.drained then
      some (true, {
        registry := sys.registry.finishRepoSweep sweep.repo
        sweeps := sys.sweeps.eraseIdx i })
    else none
  | .restart entries =>
    some (true, {
      registry := { sys.registry with interner := .withCapacity entries }
      sweeps := [] })

def step (oci : Oci) (sys : System) (c : Call) : Option System := (sys.call oci c).map Prod.snd

end System

end Summ
