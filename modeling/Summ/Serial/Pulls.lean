import Mathlib.Algebra.BigOperators.Group.List.Basic
import Mathlib.Data.List.Dedup
import Summ.Serial.Edits
import Summ.Server.Counters

/-!
# Pull counts, from the pull to the store

`Counting` is the system with the counters in front of it: pulls are recorded,
drains take what waits, and each batch taken is flushed later, in any order,
with other calls in between. The log has every increment with the map it met,
so that what was dropped can be told.
-/

namespace Summ

/-! ## The buckets of a repository -/

/-- The repository a counter is of. -/
def Key.countedIn : Key → Option RepoId
  | .counterManifest r .. | .counterTag r .. | .counterRepo r .. => some r
  | _ => none

theorem CountGroup.key_countedIn (g : CountGroup) (id : RepoId) : (g.key id).countedIn = some id := by
  unfold CountGroup.key
  split <;> rfl

theorem CountGroup.key_injective {g h : CountGroup} {i j : RepoId} (same : g.key i = h.key j) :
    i = j ∧ g.subject = h.subject ∧ g.day = h.day := by
  unfold CountGroup.key at same
  cases hg : g.subject <;> cases hh : h.subject <;> simp_all

namespace Store

variable {s : Store}

theorem pushBatch_counted {repo : RepoId} {c : CheckedPut} {ts : List Tag} {k : Key} {id : RepoId}
    (hk : k.countedIn = some id) : WriteBatch.effect (s.pushBatch repo c ts) k = none := by
  have record : WriteBatch.effect (recordOps repo c) k = none := by
    unfold recordOps
    cases c.parsed.subject <;> cases k <;> cases hk <;> simp [MetaOp.effect]
  have blobs : k.aboutBlobs = false := by cases k <;> cases hk <;> rfl
  have tags : k.aboutTags = false := by cases k <;> cases hk <;> rfl
  rw [pushBatch_records blobs, pushTags_other tags, record, if_neg]
  · rfl
  · intro edge
    obtain ⟨child, -, rfl⟩ := List.mem_map.mp edge
    cases hk

theorem manifestDelete_counted {repo : RepoId} {digest : Digest} {record : ManifestRecord}
    {now : Timestamp} {k : Key} {id : RepoId} (hk : k.countedIn = some id) :
    WriteBatch.effect (s.manifestDeleteBatch repo digest record now) k = none := by
  have tags : k.aboutTags = false := by cases k <;> cases hk <;> rfl
  cases h : WriteBatch.effect (s.manifestDeleteBatch repo digest record now) k with
  | none => rfl
  | some v =>
    rcases (manifestDelete_plain tags h).2 with rfl | rfl | ⟨_, _, rfl⟩ | ⟨_, _, rfl⟩ | ⟨covers, -⟩
    · cases hk
    · cases hk
    · cases hk
    · cases hk
    · cases k <;> cases hk <;> cases covers

theorem blobCommitBatch_counted {repo : RepoId} {digest : Digest} {size : Nat} {now : Timestamp}
    {k : Key} {id : RepoId} (hk : k.countedIn = some id) :
    WriteBatch.effect (s.blobCommitBatch repo digest size now) k = none := by
  unfold blobCommitBatch
  split <;> cases k <;> cases hk <;> rfl

end Store

/-- No call but a flush changes a count of a repository that is live. -/
theorem Effect.counted {oci : Oci} {options : RegistryOptions} {s t : Store} {c : Call}
    {accepted : Bool} (h : Effect oci options s c accepted t)
    (other : ∀ deltas, c ≠ .addPullCounts deltas) {k : Key} {id : RepoId} {name : Text}
    (live : s.repoById id = some name) (hk : k.countedIn = some id) : t.get k = s.get k := by
  have tags : k.aboutTags = false := by cases k <;> cases hk <;> rfl
  have interned {n : Text} {i : RepoId} {u : Store} (h : s.Interned n i u) : u.get k = s.get k :=
    h.kept (by cases k <;> cases hk <;> rfl)
  cases h with
  | putManifest checked named held ts =>
    exact (Store.get_apply_of_effect (Store.pushBatch_counted hk)).trans (interned named)
  | setTag live record => exact Store.get_apply_of_effect (setTagOps_other tags)
  | deleteTag live points => exact Store.get_apply_of_effect (deleteTagOps_other tags)
  | deleteManifest live stored => exact Store.get_apply_of_effect (Store.manifestDelete_counted hk)
  | purgeManifest live stored => exact Store.get_apply_of_effect (Store.manifestDelete_counted hk)
  | sweepRepoBlobs =>
    refine Store.get_apply_of_effect (WriteBatch.effect_flatMap_none ?_)
    rintro ⟨repo, digest⟩ -
    cases k <;> cases hk <;> rfl
  | scanBlobs =>
    exact Store.get_apply_of_effect (Store.markBatch_other (by rintro d rfl; cases hk))
  | collectBlob unreferenced =>
    exact Store.get_apply_of_effect (by cases k <;> cases hk <;> rfl)
  | retireRepo mapped empty =>
    exact Store.get_apply_of_effect (by cases k <;> cases hk <;> rfl)
  | commitBlob named =>
    exact (Store.get_apply_of_effect (Store.blobCommitBatch_counted hk)).trans (interned named)
  | deleteBlobReference live =>
    refine Store.get_apply_of_effect ?_
    rw [Store.blobReferenceDeleteBatch_effect, if_neg]
    rintro (rfl | drained | ⟨-, rfl⟩)
    · cases hk
    · obtain ⟨m, rfl⟩ := Scan.covers_blobRefsInRepo.mp
        ((Store.mem_drain rfl (by simp)).mp drained).1
      cases hk
    · cases hk
  | mountBlob stored named =>
    exact (Store.get_apply_of_effect (Store.blobCommitBatch_counted hk)).trans (interned named)
  | deleteRepository mapped =>
    exact Store.get_apply_of_effect (by cases k <;> cases hk <;> rfl)
  | addPullCounts puts => exact absurd rfl (other _)
  | sweepPage dead =>
    exact Store.get_apply_of_effect (Store.sweepRefsBatch_other (by rintro b r m rfl; cases hk))
  | @finishSweep i gone dead =>
    refine Store.get_apply_of_effect ?_
    rw [sweepFinishBatch_effect, if_neg]
    intro dropped
    have same : gone = id := by cases k <;> cases hk <;> simp_all [Key.dropped, Key.repo]
    rw [same, live] at dead
    cases dead
  | startSweep => rfl
  | restart => rfl
  | refused kept =>
    rcases kept with rfl | ⟨n, i, -, named⟩
    · rfl
    · exact interned named

/-! ## A flush -/

/-- The bucket of a group, empty where none is stored. -/
def Store.bucketOf (s : Store) (g : CountGroup) (id : RepoId) : CounterBucket :=
  (s.counterBucket (g.key id)).getD .default

theorem Store.bucketOf_congr {s t : Store} {g : CountGroup} {id : RepoId}
    (h : t.get (g.key id) = s.get (g.key id)) : t.bucketOf g id = s.bucketOf g id := by
  rw [bucketOf, bucketOf, counterBucket, counterBucket, h]

namespace Registry

variable {r : Registry}

/-- The batch of a flush puts each group's bucket, with what is added to it. -/
theorem countOps_effect (cached : r.Cached) (named : r.store.Named) (deltas : List CountDelta)
    {g : CountGroup} {id : RepoId} (live : r.store.repoByName g.repo = some id)
    (groups : List CountGroup) :
    WriteBatch.effect (countOps deltas r groups).1 (g.key id) =
      if g ∈ groups then some (some (.counter (r.store.addedBucket g id deltas))) else none := by
  induction groups generalizing r with
  | nil => rfl
  | cons g' groups ih =>
    obtain ⟨found, store, -, kept⟩ := lookupRepo_spec cached g'.repo
    rw [countOps]
    rcases hlookup : r.lookupRepo g'.repo with ⟨id' | id', r'⟩ <;>
      rw [hlookup] at found store kept <;> dsimp only at found store kept ⊢
    · have rest := ih kept (store ▸ named) (by rw [store]; exact live)
      have other : g ≠ g' := by
        rintro rfl
        rw [live] at found
        cases found
      rw [rest, store]
      simp [other]
    · have rest := ih kept (store ▸ named) (by rw [store]; exact live)
      rw [WriteBatch.effect_cons, rest, ← store]
      by_cases later : g ∈ groups
      · simp [later]
      · by_cases same : g = g'
        · subst same
          obtain rfl := Option.some.inj (live.symm.trans found.symm)
          simp [later, MetaOp.effect]
        · have keys : g'.key id' ≠ g.key id := by
            intro h
            obtain ⟨rfl, subject, day⟩ := CountGroup.key_injective h
            have names : g'.repo = g.repo := Option.some.inj
              (((named.inverse _ _).mp found.symm).symm.trans ((named.inverse _ _).mp live))
            apply same
            cases g
            cases g'
            cases names
            cases subject
            cases day
            rfl
          simp [later, same, MetaOp.effect, keys]

/-- A flush leaves in a live repository's bucket what was there, and the deltas. -/
theorem addPullCounts_bucket (cached : r.Cached) (named : r.store.Named)
    (deltas : List CountDelta) {g : CountGroup} {id : RepoId}
    (live : r.store.repoByName g.repo = some id) :
    (r.addPullCounts deltas).2.store.bucketOf g id = r.store.addedBucket g id deltas := by
  have effect := countOps_effect cached named deltas live (deltas.map CountDelta.group).dedup
  have store := (countOps_spec deltas (deltas.map CountDelta.group).dedup r cached).2.1
  simp only [List.mem_dedup] at effect
  change ((countOps deltas r (deltas.map CountDelta.group).dedup).2.store.apply
    (countOps deltas r (deltas.map CountDelta.group).dedup).1).bucketOf g id = _
  rw [store, Store.bucketOf, Store.counterBucket, Store.get_apply, effect]
  by_cases h : g ∈ deltas.map CountDelta.group
  · rw [if_pos h]
    rfl
  · have none_ : deltas.filter (fun d => d.group = g) = [] := by
      rw [List.filter_eq_nil_iff]
      intro d hd own
      exact h (List.mem_map.mpr ⟨d, hd, of_decide_eq_true own⟩)
    rw [if_neg h, Store.addedBucket, none_]
    rfl

end Registry

/-! ## The counters over the system -/

/-- An increment, the counters it met, and whether they counted it as dropped. -/
structure Attempt where
  key : BucketKey
  counts : Counts
  met : PullCounters
  dropped : Bool

structure Counting where
  system : System
  counters : PullCounters
  drained : List (List Recorded)
  log : List Attempt

namespace Counting

/-- `secs` is when the response started: a blob's pull is recorded once its
body is dropped. A call is any but a flush or a restart, which would lose what
waits. -/
inductive Event
  | manifestPull (repo : Text) (tag : Option Tag) (digest : Digest) (secs : UInt64)
  | blobPull (repo : Text) (secs bytes : UInt64)
  | takeDropped
  | drain (taken : List Recorded)
  | flush (i : Nat)
  | call (c : Call)

/-- The increments a pull stands for. -/
def Event.increments : Event → List (BucketKey × Counts)
  | .manifestPull repo tag digest secs =>
    (Subject.manifest digest :: (tag.map Subject.tag).toList ++ [Subject.repo]).map fun subject =>
      (PullCounters.key repo subject secs, { manifestPulls := 1, blobPulls := 0, bytesOut := 0 })
  | .blobPull repo secs bytes =>
    [(PullCounters.key repo .repo secs, { manifestPulls := 0, blobPulls := 1, bytesOut := bytes })]
  | _ => []

/-- Increments one after the other, each with the counters it meets. -/
def attempts : PullCounters → List (BucketKey × Counts) → List Attempt
  | _, [] => []
  | c, (key, counts) :: rest =>
    { key, counts, met := c, dropped := (c.add key counts).dropped ≠ c.dropped } ::
      attempts (c.add key counts) rest

/-- The counters after a pull, and what goes in the log. -/
def pull (st : Counting) (counters : PullCounters) (e : Event) : Counting :=
  { st with counters, log := st.log ++ attempts st.counters e.increments }

def step (oci : Oci) (st : Counting) : Event → Option Counting
  | .manifestPull repo tag digest secs =>
    some (st.pull (st.counters.recordManifestPull repo tag digest secs)
      (.manifestPull repo tag digest secs))
  | .blobPull repo secs bytes =>
    some (st.pull (st.counters.recordBlobBytes repo secs bytes) (.blobPull repo secs bytes))
  | .takeDropped => some { st with counters := st.counters.takeDropped.2 }
  | .drain taken =>
    if taken.Perm st.counters.recorded then
      some { st with counters := st.counters.drained, drained := st.drained ++ [taken] }
    else none
  | .flush i => st.drained[i]?.bind fun taken =>
    (System.step oci st.system (.addPullCounts (taken.map countDelta))).map fun system =>
      { st with system, drained := st.drained.eraseIdx i }
  | .call (.addPullCounts _) => none
  | .call (.restart _) => none
  | .call c => (System.step oci st.system c).map fun system => { st with system }

def start (system : System) : Counting where
  system
  counters := .new
  drained := []
  log := []

/-! ### What is counted -/

section
variable (pull : Pull) (k : BucketKey)

/-- The pulls of a key among increments. -/
def pulled (increments : List (BucketKey × Counts)) : Nat :=
  (increments.map fun i => if i.1 = k then (i.2.pulls pull).toNat else 0).sum

/-- The pulls that a run records for a key. -/
def recorded (events : List Event) : Nat := pulled pull k (events.flatMap Event.increments)

/-- Those of them that were dropped. -/
def dropped (log : List Attempt) : Nat :=
  pulled pull k ((log.filter Attempt.dropped).map fun a => (a.key, a.counts))

/-- The pulls taken and not yet flushed. -/
def taken (st : Counting) : Nat := (st.drained.map (PullCounters.among pull k)).sum

end

/-- The bucket a key is of. -/
def groupOf (k : BucketKey) : CountGroup where
  repo := k.repo
  subject := match k.subject with
    | .manifest digest => .manifest digest
    | .tag tag => .tag tag
    | .repo => .repo
  day := k.day

/-- The count that is stored for a key. -/
def stored (system : System) (id : RepoId) (pull : Pull) (k : BucketKey)
    (hour : Fin HOURS_PER_DAY) : Nat :=
  (system.store.bucketOf (groupOf k) id).pulls pull hour

/-! ### A pull -/

section
variable {pull : Pull} {k : BucketKey}

theorem pulled_append (a b : List (BucketKey × Counts)) :
    pulled pull k (a ++ b) = pulled pull k a + pulled pull k b := by
  rw [pulled, List.map_append, List.sum_append]
  rfl

theorem pulled_cons (i : BucketKey × Counts) (rest : List (BucketKey × Counts)) :
    pulled pull k (i :: rest) =
      (if i.1 = k then (i.2.pulls pull).toNat else 0) + pulled pull k rest := rfl

theorem recorded_append (a b : List Event) :
    recorded pull k (a ++ b) = recorded pull k a + recorded pull k b := by
  rw [recorded, List.flatMap_append, pulled_append]
  rfl

theorem dropped_append (a b : List Attempt) :
    dropped pull k (a ++ b) = dropped pull k a + dropped pull k b := by
  rw [dropped, List.filter_append, List.map_append, pulled_append]
  rfl

theorem add_enabled (c : PullCounters) (key : BucketKey) (counts : Counts) :
    (c.add key counts).enabled = c.enabled := by
  unfold PullCounters.add
  split
  · rfl
  · split <;> rfl

/-- The counters after a row of increments. -/
def addAll (c : PullCounters) (increments : List (BucketKey × Counts)) : PullCounters :=
  increments.foldl (fun c i => c.add i.1 i.2) c

theorem addAll_enabled (c : PullCounters) (increments : List (BucketKey × Counts)) :
    (addAll c increments).enabled = c.enabled := by
  induction increments generalizing c with
  | nil => rfl
  | cons i rest ih => exact (ih (c.add i.1 i.2)).trans (add_enabled c i.1 i.2)

theorem recordManifestPull_eq {c : PullCounters} (enabled : c.enabled = true) (repo : Text)
    (tag : Option Tag) (digest : Digest) (secs : UInt64) :
    c.recordManifestPull repo tag digest secs =
      addAll c (Event.manifestPull repo tag digest secs).increments := by
  rw [PullCounters.recordManifestPull, enabled]
  cases tag <;> rfl

theorem recordBlobBytes_eq {c : PullCounters} (enabled : c.enabled = true) (repo : Text)
    (secs bytes : UInt64) :
    c.recordBlobBytes repo secs bytes = addAll c (Event.blobPull repo secs bytes).increments := by
  rw [PullCounters.recordBlobBytes, enabled]
  rfl

/-- Each increment is tried once. -/
theorem attempts_increments (c : PullCounters) (increments : List (BucketKey × Counts)) :
    (attempts c increments).map (fun a => (a.key, a.counts)) = increments := by
  induction increments generalizing c with
  | nil => rfl
  | cons i rest ih =>
    rw [attempts, List.map_cons, ih]

theorem attempts_dropped {c : PullCounters} {increments : List (BucketKey × Counts)} {a : Attempt}
    (h : a ∈ attempts c increments) (dropped : a.dropped = true) :
    MAX_BUCKETS ≤ a.met.dirty.entries.length ∧ a.key ∉ a.met.dirty := by
  induction increments generalizing c with
  | nil => cases h
  | cons i rest ih =>
    rcases List.mem_cons.mp h with rfl | h
    · exact c.dropped_add.mp (of_decide_eq_true dropped)
    · exact ih h

theorem ite_either {p q : Prop} [Decidable p] [Decidable q] (n : Nat) :
    (if p then n else 0) = (if p ∧ q then n else 0) + if p ∧ ¬ q then n else 0 := by
  by_cases hp : p <;> by_cases hq : q <;> simp [hp, hq]

/-- What is recorded waits, or it is dropped. -/
theorem waiting_addAll {increments : List (BucketKey × Counts)} {c : PullCounters}
    (fits : c.waiting pull k + pulled pull k increments < 2 ^ 64) :
    (addAll c increments).waiting pull k + dropped pull k (attempts c increments) =
      c.waiting pull k + pulled pull k increments := by
  induction increments generalizing c with
  | nil => rfl
  | cons i rest ih =>
    obtain ⟨key, counts⟩ := i
    rw [pulled_cons] at fits ⊢
    dsimp only at fits ⊢
    have one : (c.add key counts).waiting pull k = _ := c.waiting_add pull k fun h => by
      rw [if_pos h] at fits
      omega
    have fits' : (c.add key counts).waiting pull k + pulled pull k rest < 2 ^ 64 := by
      rw [one]
      split
      · rename_i h
        rw [if_pos h.1] at fits
        omega
      · omega
    have rest_ := ih fits'
    have head : dropped pull k (attempts c ((key, counts) :: rest)) =
        (if key = k ∧ ¬ (c.add key counts).dropped = c.dropped then (counts.pulls pull).toNat
          else 0) + dropped pull k (attempts (c.add key counts) rest) := by
      by_cases hd : (c.add key counts).dropped = c.dropped
      · simp [attempts, dropped, hd]
      · simp [attempts, dropped, hd, pulled]
    have either := ite_either (p := key = k) (q := (c.add key counts).dropped = c.dropped)
      (counts.pulls pull).toNat
    rw [head]
    change (addAll (c.add key counts) rest).waiting pull k + _ = _
    omega

/-! ### A flush, and the other steps -/

theorem group_countDelta (r : Recorded) : (countDelta r).group = groupOf k ↔
    r.repo = k.repo ∧ r.subject = k.subject ∧ r.day = k.day := by
  obtain ⟨repo, subject, day, hour⟩ := k
  cases hr : r.subject <;> cases subject <;>
    simp [countDelta, CountDelta.group, groupOf, hr]

/-- The deltas of a group in one hour are the increments of a key. -/
theorem sum_deltas (taken : List Recorded) {hour : Fin HOURS_PER_DAY}
    (hh : hour.val = k.hour.toNat) :
    (((taken.map countDelta).filter fun d => d.group = groupOf k).map fun d =>
      if d.hour = hour.val then (d.pulls pull).toNat else 0).sum =
        PullCounters.among pull k taken := by
  induction taken with
  | nil => rfl
  | cons r taken ih =>
    have pulls : (countDelta r).pulls pull = r.pulls pull := by cases pull <;> rfl
    have among : PullCounters.among pull k (r :: taken) =
        (if PullCounters.isOf k r then (r.pulls pull).toNat else 0) +
          PullCounters.among pull k taken := rfl
    rw [among, ← ih, List.map_cons, List.filter_cons]
    by_cases group : (countDelta r).group = groupOf k
    · obtain ⟨repo, subject, day⟩ := (group_countDelta r).mp group
      have same : PullCounters.isOf k r ↔ (countDelta r).hour = hour.val := by
        rw [hh]
        exact ⟨fun h => h.2.2.2, fun h => ⟨repo, subject, day, h⟩⟩
      simp [group, same, pulls]
    · have other : ¬ PullCounters.isOf k r := fun h =>
        group ((group_countDelta r).mpr ⟨h.1, h.2.1, h.2.2.1⟩)
      simp [group, other]

variable {oci : Oci} {sys sys' : System} {id : RepoId} {hour : Fin HOURS_PER_DAY}

/-- A flush of what was taken adds its pulls to the stored count, up to the limit. -/
theorem stored_flush (coherent : sys.Coherent) (live : sys.store.repoByName k.repo = some id)
    (hh : hour.val = k.hour.toNat) {taken : List Recorded}
    (h : System.step oci sys (.addPullCounts (taken.map countDelta)) = some sys') :
    stored sys' id pull k hour =
      min (2 ^ 32 - 1) (stored sys id pull k hour + PullCounters.among pull k taken) := by
  cases h
  have bucket := Registry.addPullCounts_bucket coherent.cached coherent.named
    (taken.map countDelta) (g := groupOf k) live
  rw [stored, ← sum_deltas taken hh]
  change ((sys.registry.addPullCounts (taken.map countDelta)).2.store.bucketOf (groupOf k)
    id).pulls pull hour = _
  rw [bucket, Store.addedBucket, CounterBucket.pulls_foldl]
  rfl

/-- Another call leaves the count of a live repository. -/
theorem stored_call (coherent : sys.Coherent) (live : sys.store.repoByName k.repo = some id)
    {c : Call} (other : ∀ deltas, c ≠ .addPullCounts deltas)
    (h : System.step oci sys c = some sys') :
    stored sys' id pull k hour = stored sys id pull k hour := by
  obtain ⟨accepted, hcall⟩ := System.call_of_step h
  have effect := (System.effect_of_call coherent hcall).effect
  have same := effect.counted other ((coherent.named.inverse _ _).mp live)
    ((groupOf k).key_countedIn id)
  rw [stored, stored, System.store, System.store, Store.bucketOf_congr same]

/-- The cases of a step: a pull, what the counters do besides, a flush, a call. -/
inductive Stepped (oci : Oci) (st : Counting) : Event → Counting → Prop
  | pull {e : Event} (other : ∀ taken, e ≠ .drain taken) :
      Stepped oci st e (st.pull (addAll st.counters e.increments) e)
  | takeDropped : Stepped oci st .takeDropped { st with counters := st.counters.takeDropped.2 }
  | drain {taken : List Recorded} (perm : taken.Perm st.counters.recorded) :
      Stepped oci st (.drain taken)
        { st with counters := st.counters.drained, drained := st.drained ++ [taken] }
  | flush {i : Nat} {taken : List Recorded} {system : System} (at_ : st.drained[i]? = some taken)
      (step : System.step oci st.system (.addPullCounts (taken.map countDelta)) = some system) :
      Stepped oci st (.flush i) { st with system, drained := st.drained.eraseIdx i }
  | call {c : Call} {system : System} (other : ∀ deltas, c ≠ .addPullCounts deltas)
      (step : System.step oci st.system c = some system) :
      Stepped oci st (.call c) { st with system }

theorem stepped_of_step {st st' : Counting} {e : Event} (enabled : st.counters.enabled = true)
    (h : step oci st e = some st') : Stepped oci st e st' := by
  cases e with
  | manifestPull repo tag digest secs =>
    rw [step, recordManifestPull_eq enabled] at h
    cases h
    exact .pull (by rintro _ ⟨⟩)
  | blobPull repo secs bytes =>
    rw [step, recordBlobBytes_eq enabled] at h
    cases h
    exact .pull (by rintro _ ⟨⟩)
  | takeDropped =>
    cases h
    exact .takeDropped
  | drain taken =>
    rw [step] at h
    split at h
    · rename_i perm
      cases h
      exact .drain perm
    · cases h
  | flush i =>
    obtain ⟨taken, at_, h⟩ := Option.bind_eq_some_iff.mp h
    obtain ⟨system, hs, rfl⟩ := Option.map_eq_some_iff.mp h
    exact .flush at_ hs
  | call c =>
    have plain (other : ∀ deltas, c ≠ .addPullCounts deltas)
        (h : (System.step oci st.system c).map (fun system => { st with system }) = some st') :
        Stepped oci st (.call c) st' := by
      obtain ⟨system, hs, rfl⟩ := Option.map_eq_some_iff.mp h
      exact .call other hs
    cases c with
    | addPullCounts deltas => cases h
    | restart entries => cases h
    | _ => exact plain (by rintro _ ⟨⟩) h

/-! ### Nothing is lost, and nothing counted twice -/

theorem taken_flush {st : Counting} {i : Nat} {rs : List Recorded} (h : st.drained[i]? = some rs) :
    taken pull k st = PullCounters.among pull k rs +
      ((st.drained.eraseIdx i).map (PullCounters.among pull k)).sum := by
  obtain ⟨hi, rfl⟩ := List.getElem?_eq_some_iff.mp h
  have len : i < (st.drained.map (PullCounters.among pull k)).length := by
    rwa [List.length_map]
  have whole := List.CommMonoid.add_sum_eraseIdx len
  rw [List.getElem_map, List.eraseIdx_map] at whole
  exact whole.symm

/-- Whatever was recorded for a key was dropped, waits, is taken, or has been
flushed; what waits was recorded since the last drain. -/
structure Balanced (sys : System) (id : RepoId) (pull : Pull) (k : BucketKey)
    (hour : Fin HOURS_PER_DAY) (events : List Event) (st : Counting) : Prop where
  coherent : st.system.Coherent
  enabled : st.counters.enabled = true
  balance : ∃ flushed,
    recorded pull k events = dropped pull k st.log + st.counters.waiting pull k +
      taken pull k st + flushed ∧
    stored st.system id pull k hour = min (2 ^ 32 - 1) (stored sys id pull k hour + flushed)
  since : ∃ segment, segment <:+ events ∧ (∀ rs, .drain rs ∉ segment) ∧
    st.counters.waiting pull k ≤ recorded pull k segment

theorem balanced_start (coherent : sys.Coherent) :
    Balanced sys id pull k hour [] (start sys) where
  coherent := coherent
  enabled := rfl
  balance := ⟨0, rfl, (Nat.min_eq_right (CounterBucket.pulls_le _ _ _)).symm⟩
  since := ⟨[], List.suffix_rfl, by simp, Nat.le_refl _⟩

theorem Balanced.step {events : List Event} {st st' : Counting} {e : Event}
    (inv : Balanced sys id pull k hour events st) (hh : hour.val = k.hour.toNat)
    (live : st.system.store.repoByName k.repo = some id)
    (bounded : ∀ segment, segment <:+: events ++ [e] → (∀ rs, .drain rs ∉ segment) →
      recorded pull k segment < 2 ^ 64)
    (h : Counting.step oci st e = some st') :
    Balanced sys id pull k hour (events ++ [e]) st' := by
  obtain ⟨flushed, balance, now⟩ := inv.balance
  obtain ⟨segment, suffix, noDrain, since⟩ := inv.since
  have one (e : Event) : recorded pull k [e] = pulled pull k e.increments := by
    simp [recorded]
  have longer (h : ∀ rs, e ≠ .drain rs) : ∀ rs, .drain rs ∉ segment ++ [e] := by
    intro rs hm
    rcases List.mem_append.mp hm with hm | hm
    · exact noDrain rs hm
    · exact h rs (List.mem_singleton.mp hm).symm
  have suffix' : segment ++ [e] <:+ events ++ [e] := by
    obtain ⟨front, rfl⟩ := suffix
    exact ⟨front, (List.append_assoc front segment [e]).symm⟩
  cases stepped_of_step inv.enabled h with
  | pull other =>
    have room := bounded _ suffix'.isInfix (longer other)
    rw [recorded_append, one] at room
    have moved : (addAll st.counters e.increments).waiting pull k +
        dropped pull k (attempts st.counters e.increments) =
          st.counters.waiting pull k + pulled pull k e.increments :=
      waiting_addAll (by omega)
    refine ⟨inv.coherent, (addAll_enabled _ _).trans inv.enabled, ⟨flushed, ?_, now⟩,
      segment ++ [e], suffix', longer other, ?_⟩
    · rw [recorded_append, one, Counting.pull, dropped_append]
      change _ = _ + (addAll st.counters e.increments).waiting pull k + taken pull k st + _
      omega
    · rw [recorded_append, one]
      change (addAll st.counters e.increments).waiting pull k ≤ _
      omega
  | takeDropped =>
    have none_ : pulled pull k Event.takeDropped.increments = 0 := rfl
    refine ⟨inv.coherent, inv.enabled, ⟨flushed, ?_, now⟩, _, suffix', longer (by simp), ?_⟩
    · rw [recorded_append, one, none_]
      exact balance
    · rw [recorded_append, one, none_]
      exact since
  | @drain rs perm =>
    have none_ : pulled pull k (Event.drain rs).increments = 0 := rfl
    have all : PullCounters.among pull k rs = st.counters.waiting pull k :=
      (PullCounters.among_perm pull k perm).trans (PullCounters.among_recorded st.counters pull k)
    have empty : st.counters.drained.waiting pull k = 0 := rfl
    refine ⟨inv.coherent, inv.enabled, ⟨flushed, ?_, now⟩, [], List.nil_suffix, by simp, ?_⟩
    · rw [recorded_append, one, none_, empty, taken, List.map_append, List.sum_append,
        List.map_singleton, List.sum_singleton, all]
      change _ = dropped pull k st.log + 0 + (taken pull k st + _) + flushed
      omega
    · rw [empty]
      exact Nat.zero_le _
  | @flush i rs system at_ step =>
    have none_ : pulled pull k (Event.flush i).increments = 0 := rfl
    have split : taken pull k st = _ := taken_flush at_
    have stored_ : stored system id pull k hour = _ := stored_flush inv.coherent live hh step
    refine ⟨System.coherent_step inv.coherent step, inv.enabled,
      ⟨flushed + PullCounters.among pull k rs, ?_, ?_⟩, _, suffix', longer (by simp), ?_⟩
    · rw [recorded_append, one, none_]
      change _ = dropped pull k st.log + st.counters.waiting pull k +
        ((st.drained.eraseIdx i).map (PullCounters.among pull k)).sum + _
      omega
    · rw [stored_, now]
      omega
    · rw [recorded_append, one, none_]
      exact since
  | @call c system other step =>
    have none_ : pulled pull k (Event.call c).increments = 0 := rfl
    refine ⟨System.coherent_step inv.coherent step, inv.enabled, ⟨flushed, ?_, ?_⟩, _, suffix',
      longer (by simp), ?_⟩
    · rw [recorded_append, one, none_]
      exact balance
    · rw [stored_call inv.coherent live other step]
      exact now
    · rw [recorded_append, one, none_]
      exact since

theorem step_enabled {st st' : Counting} {e : Event} (enabled : st.counters.enabled = true)
    (h : Counting.step oci st e = some st') : st'.counters.enabled = true := by
  cases stepped_of_step enabled h with
  | pull other => exact (addAll_enabled _ _).trans enabled
  | _ => exact enabled

/-- The log has what was recorded, and tells why an increment was dropped. -/
theorem log_of_run {events : List Event} {st : Counting}
    (run : Transition.exec (Counting.step oci) (start sys) events = some st) :
    st.counters.enabled = true ∧
      st.log.map (fun a => (a.key, a.counts)) = events.flatMap Event.increments ∧
      ∀ a ∈ st.log, a.dropped = true →
        MAX_BUCKETS ≤ a.met.dirty.entries.length ∧ a.key ∉ a.met.dirty := by
  refine Transition.exec_history (H := fun events st => st.counters.enabled = true ∧
      st.log.map (fun a => (a.key, a.counts)) = events.flatMap Event.increments ∧
      ∀ a ∈ st.log, a.dropped = true →
        MAX_BUCKETS ≤ a.met.dirty.entries.length ∧ a.key ∉ a.met.dirty)
    ⟨rfl, rfl, by simp [start]⟩ ?_ run
  rintro events st e st' - ⟨enabled, log, why⟩ h
  refine ⟨step_enabled enabled h, ?_⟩
  have same (none_ : e.increments = []) (logs : st'.log = st.log) :
      st'.log.map (fun a => (a.key, a.counts)) = (events ++ [e]).flatMap Event.increments ∧
        ∀ a ∈ st'.log, a.dropped = true →
          MAX_BUCKETS ≤ a.met.dirty.entries.length ∧ a.key ∉ a.met.dirty := by
    rw [logs, List.flatMap_append, List.flatMap_singleton, none_, List.append_nil]
    exact ⟨log, why⟩
  cases stepped_of_step enabled h with
  | pull other =>
    refine ⟨?_, ?_⟩
    · rw [Counting.pull, List.map_append, log, attempts_increments, List.flatMap_append,
        List.flatMap_singleton]
    · intro a ha dropped
      rcases List.mem_append.mp ha with ha | ha
      · exact why a ha dropped
      · exact attempts_dropped ha dropped
  | takeDropped => exact same rfl rfl
  | drain perm => exact same rfl rfl
  | flush at_ step => exact same rfl rfl
  | call other step => exact same rfl rfl

/-- Along a run in which the repository lives, recorded pulls are accounted for. -/
theorem balanced_of_run (coherent : sys.Coherent) (hh : hour.val = k.hour.toNat)
    {events : List Event} {st : Counting}
    (live : Transition.Meets (Counting.step oci)
      (fun st _ => st.system.store.repoByName k.repo = some id) (start sys) events)
    (bounded : ∀ segment, segment <:+: events → (∀ rs, .drain rs ∉ segment) →
      recorded pull k segment < 2 ^ 64)
    (run : Transition.exec (Counting.step oci) (start sys) events = some st) :
    Balanced sys id pull k hour events st := by
  refine Transition.exec_history
    (H := fun as st => as <+: events → Balanced sys id pull k hour as st)
    (fun _ => balanced_start coherent) ?_ run List.prefix_rfl
  intro as mid e next before inv h within
  have within' : as <+: events := (List.prefix_append as [e]).trans within
  have here := Transition.meets_suffix (Transition.meets_prefix within live) before
  exact (inv within').step hh here.1
    (fun segment part => bounded segment (part.trans within.isInfix)) h

end

/-- Pull counts are conserved. Once everything recorded has been taken and flushed,
in whatever batches and whatever order, the count stored for a subject and an hour
has grown by the pulls recorded and not dropped, up to its limit; and a pull is
dropped only where the map is full and does not have its key. -/
theorem pulls_conserved (oci : Oci) (options : RegistryOptions) (entries : Nat)
    {calls : List Call} {sys : System}
    (reached : Transition.exec (System.step oci) (.start options entries) calls = some sys)
    {events : List Event} {st : Counting}
    (run : Transition.exec (step oci) (start sys) events = some st) :
    (∀ (pull : Pull) (k : BucketKey) (hour : Fin HOURS_PER_DAY) (id : RepoId),
      hour.val = k.hour.toNat →
      Transition.Meets (step oci) (fun st _ => st.system.store.repoByName k.repo = some id)
        (start sys) events →
      (∀ segment, segment <:+: events → (∀ rs, .drain rs ∉ segment) →
        recorded pull k segment < 2 ^ 64) →
      st.counters.dirty.entries = [] → st.drained = [] →
      stored st.system id pull k hour = min (2 ^ 32 - 1)
        (stored sys id pull k hour + (recorded pull k events - dropped pull k st.log))) ∧
    st.log.map (fun a => (a.key, a.counts)) = events.flatMap Event.increments ∧
    ∀ a ∈ st.log, a.dropped = true →
      MAX_BUCKETS ≤ a.met.dirty.entries.length ∧ a.key ∉ a.met.dirty := by
  have coherent := (System.run_invariant (I := fun _ => True) trivial
    (fun _ _ _ _ _ _ _ => trivial) reached).1
  refine ⟨?_, (log_of_run run).2⟩
  intro pull k hour id hh live bounded empty flushed_
  obtain ⟨flushed, balance, now⟩ :=
    (balanced_of_run coherent hh live bounded run).balance
  have waits : st.counters.waiting pull k = 0 := by
    rw [PullCounters.waiting, AList.lookup, empty]
    rfl
  have takes : taken pull k st = 0 := by rw [taken, flushed_]; rfl
  rw [now]
  congr 1
  omega

/-- A blob commit, for a repository to pull from. -/
def firstCommit : List Call := [.operation (.commitBlob "app".toList emptyConfig 2 (.fromSecs 5))]

/-- The one key that pulls of its blobs are counted under. -/
def appKey : BucketKey := PullCounters.key "app".toList .repo 0

/-- Two pulls of a blob, taken apart and flushed in the other order. -/
def pulledTwice : List Event :=
  [.blobPull "app".toList 0 7, .drain [.ofEntry appKey ⟨0, 1, 7⟩], .blobPull "app".toList 0 9,
    .drain [.ofEntry appKey ⟨0, 1, 9⟩], .flush 1, .flush 0]

theorem recorded_le_segment {pull : Pull} {k : BucketKey} {segment events : List Event}
    (h : segment <:+: events) : recorded pull k segment ≤ recorded pull k events := by
  obtain ⟨front, back, rfl⟩ := h
  rw [recorded_append, recorded_append]
  omega

def midnight : Fin HOURS_PER_DAY := ⟨0, by decide⟩

theorem pulls_conserved_twice : ∃ sys st,
    Transition.exec (System.step imageOci) (.start {} 1) firstCommit = some sys ∧
      Transition.exec (step imageOci) (start sys) pulledTwice = some st ∧
      stored st.system 0 .blob appKey midnight = min (2 ^ 32 - 1)
        (stored sys 0 .blob appKey midnight +
          (recorded .blob appKey pulledTwice - dropped .blob appKey st.log)) := by
  have runs : (Transition.exec (System.step imageOci) (.start {} 1) firstCommit).isSome ∧
      ((Transition.exec (System.step imageOci) (.start {} 1) firstCommit).bind fun sys =>
        Transition.exec (step imageOci) (start sys) pulledTwice).map (fun st =>
          (st.counters.dirty.entries.isEmpty, st.drained.isEmpty)) = some (true, true) ∧
      ((Transition.exec (System.step imageOci) (.start {} 1) firstCommit).all fun sys =>
        decide (Transition.Meets (step imageOci)
          (fun st _ => st.system.store.repoByName appKey.repo = some 0) (start sys) pulledTwice)) := by
    decide +kernel
  obtain ⟨sys, run⟩ := Option.isSome_iff_exists.mp runs.1
  rw [run] at runs
  obtain ⟨-, done, live⟩ := runs
  obtain ⟨st, run', done⟩ := Option.map_eq_some_iff.mp done
  obtain ⟨empty, flushed⟩ := Prod.mk.inj done
  refine ⟨sys, st, run, run', (pulls_conserved imageOci {} 1 run run').1 .blob appKey midnight 0 rfl
    (of_decide_eq_true live) ?_ (List.isEmpty_iff.mp empty) (List.isEmpty_iff.mp flushed)⟩
  intro segment part _
  have all : recorded .blob appKey pulledTwice < 2 ^ 64 := by decide +kernel
  exact Nat.lt_of_le_of_lt (recorded_le_segment part) all

/-! ### A count that wraps -/

/-- The counters after `n` pulls of a blob. -/
def filled (n : Nat) : PullCounters where
  enabled := true
  dirty := AList.singleton appKey { manifestPulls := 0, blobPulls := .ofNat n, bytesOut := 0 }
  dropped := 0

/-- One pull of a blob. -/
def blobPull : Event := .blobPull "app".toList 0 0

theorem filled_add (n : Nat) : addAll (filled n) blobPull.increments = filled (n + 1) := by
  have found : (filled n).dirty.lookup appKey =
      some { manifestPulls := 0, blobPulls := .ofNat n, bytesOut := 0 } :=
    List.dlookup_cons_eq ..
  change (filled n).add appKey { manifestPulls := 0, blobPulls := 1, bytesOut := 0 } = _
  rw [PullCounters.add, found]
  simp [filled, AList.insert_singleton_eq, Counts.add, UInt64.ofNat_add]

theorem step_blobPull (oci : Oci) {st : Counting} (enabled : st.counters.enabled = true) :
    step oci st blobPull = some (st.pull (addAll st.counters blobPull.increments) blobPull) := by
  rw [blobPull, step, recordBlobBytes_eq enabled]

/-- An increment that the tally did not notice was not dropped. -/
theorem dropped_attempts_blobPull {c : PullCounters}
    (kept : (addAll c blobPull.increments).dropped = c.dropped) :
    dropped .blob appKey (attempts c blobPull.increments) = 0 := by
  have kept : (c.add (PullCounters.key "app".toList .repo 0)
      { manifestPulls := 0, blobPulls := 1, bytesOut := 0 }).dropped = c.dropped := kept
  simp only [blobPull, Event.increments, attempts, dropped, kept, ne_eq, not_true_eq_false,
    decide_false, List.filter_cons, Bool.false_eq_true, if_false, List.filter_nil]
  rfl

/-- Any number of pulls of a blob, and nothing else. -/
theorem exec_pulls (oci : Oci) (sys : System) (n : Nat) : ∃ log,
    Transition.exec (step oci) (start sys) (List.replicate (n + 1) blobPull) =
      some { system := sys, counters := filled (n + 1), drained := [], log } ∧
    dropped .blob appKey log = 0 := by
  induction n with
  | zero =>
    have first : addAll PullCounters.new blobPull.increments = filled 1 := rfl
    refine ⟨attempts .new blobPull.increments, ?_, dropped_attempts_blobPull rfl⟩
    rw [List.replicate_one, Transition.exec_cons, step_blobPull oci rfl]
    simp [Counting.pull, start, first]
  | succ n ih =>
    obtain ⟨log, run, none_⟩ := ih
    refine ⟨log ++ attempts (filled (n + 1)) blobPull.increments, ?_, ?_⟩
    · rw [List.replicate_succ', Transition.exec_append, run, Option.bind_some, Transition.exec_cons,
        step_blobPull oci rfl]
      simp [Counting.pull, filled_add]
    · rw [dropped_append, none_, dropped_attempts_blobPull (by rw [filled_add]; rfl)]

theorem recorded_replicate (n : Nat) : recorded .blob appKey (List.replicate n blobPull) = n := by
  induction n with
  | zero => rfl
  | succ n ih =>
    have one : recorded .blob appKey [blobPull] = 1 := by decide +kernel
    rw [List.replicate_succ', recorded_append, ih, one]

theorem meets_pulls (oci : Oci) {P : System → Prop} (n : Nat) {st : Counting} (holds : P st.system)
    (enabled : st.counters.enabled = true) :
    Transition.Meets (step oci) (fun st _ => P st.system) st (List.replicate n blobPull) := by
  induction n generalizing st with
  | zero => trivial
  | succ n ih =>
    refine ⟨holds, ?_⟩
    rw [step_blobPull oci enabled]
    exact ih holds ((addAll_enabled _ _).trans enabled)

/-- So many pulls of a blob that the count comes round to nothing, then a drain and
its flush. -/
def pulledRound : List Event :=
  List.replicate (2 ^ 64 - 1 + 1) blobPull ++
    ([.drain [.ofEntry appKey ⟨0, 0, 0⟩], .flush 0] : List Event)

theorem count_comes_round : ¬ ∀ (oci : Oci) (options : RegistryOptions) (entries : Nat)
    (calls : List Call) (sys : System) (events : List Event) (st : Counting),
    Transition.exec (System.step oci) (.start options entries) calls = some sys →
    Transition.exec (step oci) (start sys) events = some st →
    ∀ (pull : Pull) (k : BucketKey) (hour : Fin HOURS_PER_DAY) (id : RepoId),
      hour.val = k.hour.toNat →
      Transition.Meets (step oci) (fun st _ => st.system.store.repoByName k.repo = some id)
        (start sys) events →
      st.counters.dirty.entries = [] → st.drained = [] →
      stored st.system id pull k hour = min (2 ^ 32 - 1)
        (stored sys id pull k hour + (recorded pull k events - dropped pull k st.log)) := by
  intro conserved
  have facts : (Transition.exec (System.step imageOci) (.start {} 1) firstCommit).map (fun sys =>
      (decide (sys.store.repoByName appKey.repo = some 0), stored sys 0 .blob appKey midnight)) =
        some (true, 0) := by decide +kernel
  obtain ⟨sys, reached, facts⟩ := Option.map_eq_some_iff.mp facts
  obtain ⟨named, before⟩ := Prod.mk.inj facts
  have live := of_decide_eq_true named
  obtain ⟨log, run, none_⟩ := exec_pulls imageOci sys (2 ^ 64 - 1)
  have round : filled (2 ^ 64 - 1 + 1) = filled 0 := by
    have zero : UInt64.ofNat (2 ^ 64 - 1 + 1) = UInt64.ofNat 0 := by decide
    rw [filled, filled, zero]
  rw [round] at run
  let taken : List Recorded := [.ofEntry appKey ⟨0, 0, 0⟩]
  let last : System :=
    { sys with registry := (sys.registry.addPullCounts (taken.map countDelta)).2 }
  have after : Transition.exec (step imageOci)
      { system := sys, counters := filled 0, drained := [], log } [.drain taken, .flush 0] =
        some { system := last, counters := (filled 0).drained, drained := [], log } := rfl
  have whole : Transition.exec (step imageOci) (start sys) pulledRound =
      some { system := last, counters := (filled 0).drained, drained := [], log } := by
    rw [pulledRound, Transition.exec_append, run]
    exact after
  have lives : Transition.Meets (step imageOci)
      (fun st _ => st.system.store.repoByName appKey.repo = some 0) (start sys) pulledRound := by
    refine Transition.meets_append (meets_pulls imageOci
      (P := fun system => system.store.repoByName appKey.repo = some 0) _ live rfl) ?_
    intro mid hmid
    rw [run] at hmid
    cases hmid
    exact ⟨live, live, trivial⟩
  have coherent := (System.run_invariant (I := fun _ => True) trivial
    (fun _ _ _ _ _ _ _ => trivial) reached).1
  have flushed : stored last 0 .blob appKey midnight = min (2 ^ 32 - 1)
      (stored sys 0 .blob appKey midnight + PullCounters.among .blob appKey taken) :=
    stored_flush coherent live rfl
      (rfl : System.step imageOci sys (.addPullCounts (taken.map countDelta)) = some last)
  have counted := conserved imageOci {} 1 firstCommit sys pulledRound _ reached whole .blob appKey
    midnight 0 rfl lives rfl rfl
  have recorded_ : recorded .blob appKey pulledRound = 2 ^ 64 - 1 + 1 := by
    rw [pulledRound, recorded_append, recorded_replicate]
    rfl
  have nothing : PullCounters.among .blob appKey taken = 0 := by decide +kernel
  rw [flushed, before, nothing, recorded_, none_] at counted
  omega

end Counting

end Summ
