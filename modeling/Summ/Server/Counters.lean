import Mathlib.Data.List.AList
import Summ.Registry.Counters

/-!
# The pull counters

The increments waiting for the next flush: a map with room for `MAX_BUCKETS`
keys, and a tally of what found no room. An operation runs under the lock, so
it is one step.
-/

namespace Summ

def MAX_BUCKETS : Nat := 50000

/-- `keys::day_bucket`. -/
def dayBucket (unixSeconds : UInt64) : UInt16 := (unixSeconds / 86400).toUInt16

/-- `keys::hour_of_day`. -/
def hourOfDay (unixSeconds : UInt64) : Nat := (unixSeconds % 86400 / 3600).toNat

/-- Which counter an increment belongs to. -/
inductive Subject
  | manifest (digest : Digest)
  | tag (tag : Tag)
  | repo
  deriving DecidableEq

structure BucketKey where
  repo : Text
  subject : Subject
  day : UInt16
  hour : UInt8
  deriving DecidableEq

structure Counts where
  manifestPulls : UInt64
  blobPulls : UInt64
  bytesOut : UInt64
  deriving DecidableEq

/-- Field by field; `+=` wraps in a release build. -/
def Counts.add (existing counts : Counts) : Counts where
  manifestPulls := existing.manifestPulls + counts.manifestPulls
  blobPulls := existing.blobPulls + counts.blobPulls
  bytesOut := existing.bytesOut + counts.bytesOut

/-- One drained increment. -/
structure Recorded where
  repo : Text
  subject : Subject
  day : UInt16
  hour : Nat
  manifestPulls : UInt64
  blobPulls : UInt64
  bytesOut : UInt64
  deriving DecidableEq

def Recorded.ofEntry (k : BucketKey) (v : Counts) : Recorded where
  repo := k.repo
  subject := k.subject
  day := k.day
  hour := k.hour.toNat
  manifestPulls := v.manifestPulls
  blobPulls := v.blobPulls
  bytesOut := v.bytesOut

structure PullCounters where
  enabled : Bool
  dirty : AList fun _ : BucketKey => Counts
  dropped : UInt64

namespace PullCounters

def new : PullCounters where
  enabled := true
  dirty := ∅
  dropped := 0

/-- A counter that counts nothing. -/
def disabled : PullCounters where
  enabled := false
  dirty := ∅
  dropped := 0

variable (c : PullCounters)

/-- Add into an existing bucket, or open a new one while there is room. -/
def add (key : BucketKey) (counts : Counts) : PullCounters :=
  match c.dirty.lookup key with
  | some existing => { c with dirty := c.dirty.insert key (existing.add counts) }
  | none =>
    if c.dirty.entries.length ≥ MAX_BUCKETS then { c with dropped := c.dropped + 1 }
    else { c with dirty := c.dirty.insert key counts }

/-- `now_bucket` of the seconds, and a subject. -/
def key (repo : Text) (subject : Subject) (secs : UInt64) : BucketKey where
  repo
  subject
  day := dayBucket secs
  hour := UInt8.ofNat (hourOfDay secs)

/-- Against the manifest, the tag it was asked for by, and the repository. -/
def recordManifestPull (repo : Text) (tag : Option Tag) (digest : Digest) (secs : UInt64) :
    PullCounters :=
  if !c.enabled then c
  else
    let counts := { manifestPulls := 1, blobPulls := 0, bytesOut := 0 }
    let c := c.add (key repo (.manifest digest) secs) counts
    let c := match tag with
      | some tag => c.add (key repo (.tag tag) secs) counts
      | none => c
    c.add (key repo .repo secs) counts

/-- Repository scope only; `secs` is when the response started. -/
def recordBlobBytes (repo : Text) (secs : UInt64) (bytes : UInt64) : PullCounters :=
  if !c.enabled then c
  else c.add (key repo .repo secs) { manifestPulls := 0, blobPulls := 1, bytesOut := bytes }

/-- What a drain hands over, in the order the map happens to have. -/
def recorded : List Recorded := c.dirty.entries.map fun ⟨k, v⟩ => .ofEntry k v

/-- `drain`: the map starts over empty. -/
def drained : PullCounters := { c with dirty := ∅ }

/-- `take_dropped`. -/
def takeDropped : UInt64 × PullCounters := (c.dropped, { c with dropped := 0 })

end PullCounters

/-- The translation the backend hands to the registry. -/
def countDelta (r : Recorded) : CountDelta where
  repo := r.repo
  subject := match r.subject with
    | .manifest digest => .manifest digest
    | .tag tag => .tag tag
    | .repo => .repo
  day := r.day
  hour := r.hour
  manifestPulls := r.manifestPulls
  blobPulls := r.blobPulls
  bytesOut := r.bytesOut

/-! ## The two counts of pulls -/

/-- The pulls that are counted, by what was pulled. -/
inductive Pull
  | manifest
  | blob

def Counts.pulls (n : Counts) : Pull → UInt64
  | .manifest => n.manifestPulls
  | .blob => n.blobPulls

def Recorded.pulls (r : Recorded) : Pull → UInt64
  | .manifest => r.manifestPulls
  | .blob => r.blobPulls

def CountDelta.pulls (d : CountDelta) : Pull → UInt64
  | .manifest => d.manifestPulls
  | .blob => d.blobPulls

/-- What a bucket holds for an hour. -/
def CounterBucket.pulls (b : CounterBucket) (pull : Pull) (hour : Fin HOURS_PER_DAY) : Nat :=
  match pull with
  | .manifest => (b.manifestPulls.get hour).toNat
  | .blob => (b.blobPulls.get hour).toNat

theorem CounterBucket.pulls_le (b : CounterBucket) (pull : Pull) (hour : Fin HOURS_PER_DAY) :
    b.pulls pull hour ≤ 2 ^ 32 - 1 := by
  cases pull
  · exact Nat.le_sub_one_of_lt (UInt32.toNat_lt _)
  · exact Nat.le_sub_one_of_lt (UInt32.toNat_lt _)

theorem clamp32_toNat (n : UInt64) : (clamp32 n).toNat = min n.toNat (2 ^ 32 - 1) := by
  have small : min n.toNat (2 ^ 32 - 1) < 2 ^ 32 := by omega
  exact UInt32.toNat_ofNat_of_lt' small

theorem saturatingAdd32_clamp32 (a : UInt32) (n : UInt64) :
    (saturatingAdd32 a (clamp32 n)).toNat = min (2 ^ 32 - 1) (a.toNat + n.toNat) := by
  have clamped := clamp32_toNat n
  have bound := a.toNat_lt
  unfold saturatingAdd32
  split
  · rename_i fits
    rw [UInt32.toNat_add, Nat.mod_eq_of_lt fits]
    omega
  · rename_i tooLarge
    rw [UInt32.toNat_ofNat_of_lt' (by decide)]
    omega

/-- Increments add up to the limit and stay there. -/
theorem CounterBucket.pulls_add (b : CounterBucket) (pull : Pull) (i : Fin HOURS_PER_DAY)
    (d : CountDelta) :
    (b.add d.hour d.manifestPulls d.blobPulls d.bytesOut).pulls pull i =
      min (2 ^ 32 - 1) (b.pulls pull i + if d.hour = i.val then (d.pulls pull).toNat else 0) := by
  have bound := b.pulls_le pull i
  unfold CounterBucket.add
  by_cases h : d.hour < HOURS_PER_DAY
  · rw [dif_pos h]
    by_cases same : d.hour = i.val
    · have hi : (⟨d.hour, h⟩ : Fin HOURS_PER_DAY) = i := Fin.ext same
      rw [if_pos same, hi]
      cases pull with
      | manifest =>
        simp only [CounterBucket.pulls, List.Vector.get_set_same]
        exact saturatingAdd32_clamp32 _ _
      | blob =>
        simp only [CounterBucket.pulls, List.Vector.get_set_same]
        exact saturatingAdd32_clamp32 _ _
    · have hi : (⟨d.hour, h⟩ : Fin HOURS_PER_DAY) ≠ i := fun hi => same (congrArg Fin.val hi)
      rw [if_neg same, Nat.add_zero, Nat.min_eq_right bound]
      cases pull with
      | manifest => simp only [CounterBucket.pulls, List.Vector.get_set_of_ne hi]
      | blob => simp only [CounterBucket.pulls, List.Vector.get_set_of_ne hi]
  · have late : d.hour ≠ i.val := fun same => h (same ▸ i.isLt)
    rw [dif_neg h, if_neg late, Nat.add_zero, Nat.min_eq_right bound]

/-- A fold of deltas adds their sum up to the limit, in whatever order. -/
theorem CounterBucket.pulls_foldl (deltas : List CountDelta) (b : CounterBucket) (pull : Pull)
    (i : Fin HOURS_PER_DAY) :
    (deltas.foldl (fun b d => b.add d.hour d.manifestPulls d.blobPulls d.bytesOut) b).pulls pull i =
      min (2 ^ 32 - 1) (b.pulls pull i +
        (deltas.map fun d => if d.hour = i.val then (d.pulls pull).toNat else 0).sum) := by
  induction deltas generalizing b with
  | nil => exact (Nat.min_eq_right (b.pulls_le pull i)).symm
  | cons d deltas ih =>
    rw [List.foldl_cons, ih, CounterBucket.pulls_add, List.map_cons, List.sum_cons]
    omega

/-! ## What waits in the map -/

namespace PullCounters

variable (c : PullCounters) (pull : Pull) (k : BucketKey)

/-- The pulls waiting under a key. -/
def waiting : Nat := ((c.dirty.lookup k).map fun n => (n.pulls pull).toNat).getD 0

/-- Whether a drained increment is of this key. -/
def isOf (r : Recorded) : Prop :=
  r.repo = k.repo ∧ r.subject = k.subject ∧ r.day = k.day ∧ r.hour = k.hour.toNat

instance (r : Recorded) : Decidable (isOf k r) := inferInstanceAs (Decidable (_ ∧ _ ∧ _ ∧ _))

/-- The pulls of a key among drained increments. -/
def among (rs : List Recorded) : Nat :=
  (rs.map fun r => if isOf k r then (r.pulls pull).toNat else 0).sum

theorem among_perm {rs rs' : List Recorded} (h : rs.Perm rs') : among pull k rs = among pull k rs' :=
  (h.map _).sum_eq

/-- A map has at most one entry of a key. -/
theorem sum_of_key {l : List (Sigma fun _ : BucketKey => Counts)} (nodup : l.NodupKeys)
    (f : Counts → Nat) :
    (l.map fun e => if e.1 = k then f e.2 else 0).sum = ((l.dlookup k).map f).getD 0 := by
  induction l with
  | nil => rfl
  | cons e l ih =>
    obtain ⟨absent, nodup⟩ := List.nodupKeys_cons.mp nodup
    rw [List.map_cons, List.sum_cons, ih nodup]
    by_cases h : e.1 = k
    · subst h
      rw [if_pos rfl, List.dlookup_eq_none.mpr absent, List.dlookup_cons_eq]
      rfl
    · rw [if_neg h, List.dlookup_cons_ne l e (Ne.symm h), Nat.zero_add]

/-- A drain hands over what was waiting. -/
theorem among_recorded : among pull k c.recorded = c.waiting pull k := by
  rw [among, recorded, List.map_map, waiting, AList.lookup, ← sum_of_key k c.dirty.nodupKeys]
  congr 2
  funext ⟨key, n⟩
  have same : isOf k (.ofEntry key n) ↔ key = k := by
    cases key
    cases k
    simp [isOf, Recorded.ofEntry, UInt8.toNat_inj]
  simp only [Function.comp, same]
  cases pull <;> rfl

theorem mem_of_lookup {key : BucketKey} {n : Counts} (h : c.dirty.lookup key = some n) :
    key ∈ c.dirty := by
  rw [← AList.lookup_isSome, h]
  rfl

/-- An increment is dropped when the map is full and does not have its key, and
only then. -/
theorem dropped_add {key : BucketKey} {counts : Counts} :
    (c.add key counts).dropped ≠ c.dropped ↔
      MAX_BUCKETS ≤ c.dirty.entries.length ∧ key ∉ c.dirty := by
  have moved : c.dropped + 1 ≠ c.dropped := by
    intro h
    simp at h
  unfold add
  cases h : c.dirty.lookup key with
  | some existing => simp [c.mem_of_lookup h]
  | none =>
    have absent : key ∉ c.dirty := AList.lookup_eq_none.mp h
    by_cases full : MAX_BUCKETS ≤ c.dirty.entries.length
    · simp [full, absent, moved]
    · simp [full]

/-- What is not dropped is added to what waits. -/
theorem waiting_add {key : BucketKey} {counts : Counts}
    (fits : key = k → c.waiting pull k + (counts.pulls pull).toNat < 2 ^ 64) :
    (c.add key counts).waiting pull k = c.waiting pull k +
      if key = k ∧ (c.add key counts).dropped = c.dropped then (counts.pulls pull).toNat else 0 := by
  by_cases dropped : (c.add key counts).dropped = c.dropped
  · have kept : ¬ (MAX_BUCKETS ≤ c.dirty.entries.length ∧ key ∉ c.dirty) := fun h =>
      c.dropped_add.mpr h dropped
    have other (n : Counts) (hk : key ≠ k) : ((c.dirty.insert key n).lookup k) = c.dirty.lookup k :=
      AList.lookup_insert_ne (Ne.symm hk)
    simp only [dropped, and_true]
    unfold add
    cases h : c.dirty.lookup key with
    | some existing =>
      by_cases hk : key = k
      · subst hk
        have bound := fits rfl
        simp only [waiting, h, Option.map_some, Option.getD_some] at bound
        simp only [waiting, h, AList.lookup_insert, Option.map_some, Option.getD_some, if_true]
        cases pull with
        | manifest => exact (UInt64.toNat_add _ _).trans (Nat.mod_eq_of_lt bound)
        | blob => exact (UInt64.toNat_add _ _).trans (Nat.mod_eq_of_lt bound)
      · simp only [waiting, other _ hk, if_neg hk, Nat.add_zero]
    | none =>
      have room : ¬ c.dirty.entries.length ≥ MAX_BUCKETS := fun full =>
        kept ⟨full, AList.lookup_eq_none.mp h⟩
      rw [if_neg room]
      by_cases hk : key = k
      · subst hk
        simp [waiting, h]
      · simp only [waiting, other _ hk, if_neg hk, Nat.add_zero]
  · obtain ⟨full, absent⟩ := c.dropped_add.mp dropped
    rw [if_neg fun h => dropped h.2, Nat.add_zero]
    unfold add
    rw [AList.lookup_eq_none.mpr absent]
    simp only [ge_iff_le, full, if_true]
    rfl

end PullCounters

end Summ
