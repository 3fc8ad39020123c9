import Mathlib.Data.List.FinRange
import Summ.Registry.Windows
import Summ.Server.Counters

/-!
# The pull counts of a window

The response of the API: one row for every day of the window, zero where
nothing is stored, and the totals of the rows. With what the registry counts
for the window it is complete: `window_complete`.
-/

namespace Summ

/-- What a bucket counts. -/
inductive Metric
  | manifestPulls
  | blobPulls
  | bytesOut
  deriving DecidableEq

namespace Metric

/-- The most a bucket holds for one hour. -/
def cap : Metric → Nat
  | manifestPulls | blobPulls => 2 ^ 32 - 1
  | bytesOut => 2 ^ 64 - 1

end Metric

namespace CounterBucket

/-- What a bucket holds for an hour. -/
def hour (b : CounterBucket) (m : Metric) (i : Fin HOURS_PER_DAY) : Nat :=
  match m with
  | .manifestPulls => (b.manifestPulls.get i).toNat
  | .blobPulls => (b.blobPulls.get i).toNat
  | .bytesOut => (b.bytesOut.get i).toNat

/-- The hours of a day. -/
def hours (b : CounterBucket) (m : Metric) : List UInt64 :=
  match m with
  | .manifestPulls => b.manifestPulls.toList.map UInt32.toUInt64
  | .blobPulls => b.blobPulls.toList.map UInt32.toUInt64
  | .bytesOut => b.bytesOut.toList

end CounterBucket

/-- `Iterator::sum`, in 64 bits. -/
def sum64 (l : List UInt64) : UInt64 := l.foldl (· + ·) 0

/-- `manifest_pulls_total`, `blob_pulls_total` and `bytes_out_total`. -/
def CounterBucket.total (b : CounterBucket) (m : Metric) : UInt64 := sum64 (b.hours m)

/-- A number in decimal with leading noughts. -/
def padded (width n : Nat) : Text :=
  let digits := (toString n).toList
  List.replicate (width - digits.length) '0' ++ digits

/-- `iso_date`: `YYYY-MM-DD` for a day bucket, UTC. -/
def isoDate (day : UInt16) : Text :=
  let z := day.toNat + 719468
  let era := z / 146097
  let doe := z % 146097
  let yoe := (doe - doe / 1460 + doe / 36524 - doe / 146096) / 365
  let y := yoe + era * 400
  let doy := doe - (365 * yoe + yoe / 4 - yoe / 100)
  let mp := (5 * doy + 2) / 153
  let d := doy - (153 * mp + 2) / 5 + 1
  let m := if mp < 10 then mp + 3 else mp - 9
  let y := if m ≤ 2 then y + 1 else y
  padded 4 y ++ '-' :: padded 2 m ++ '-' :: padded 2 d

/-- `weekday`: 0 is Sunday. -/
def weekday (day : UInt16) : UInt8 := ((day.toUInt32 + 4) % 7).toUInt8

structure PullCountHoursBody where
  manifestPulls : List UInt32
  blobPulls : List UInt32
  bytesOut : List UInt64

structure PullCountDayBody where
  day : UInt16
  date : Text
  weekday : UInt8
  manifestPulls : UInt64
  blobPulls : UInt64
  bytesOut : UInt64
  hours : PullCountHoursBody

namespace PullCountDayBody

/-- The figure of a row. -/
def total (row : PullCountDayBody) : Metric → UInt64
  | .manifestPulls => row.manifestPulls
  | .blobPulls => row.blobPulls
  | .bytesOut => row.bytesOut

/-- The hours of a row. -/
def counted (row : PullCountDayBody) : Metric → List Nat
  | .manifestPulls => row.hours.manifestPulls.map UInt32.toNat
  | .blobPulls => row.hours.blobPulls.map UInt32.toNat
  | .bytesOut => row.hours.bytesOut.map UInt64.toNat

end PullCountDayBody

structure PullCountTotalsBody where
  manifestPulls : UInt64
  blobPulls : UInt64
  bytesOut : UInt64

def PullCountTotalsBody.total (totals : PullCountTotalsBody) : Metric → UInt64
  | .manifestPulls => totals.manifestPulls
  | .blobPulls => totals.blobPulls
  | .bytesOut => totals.bytesOut

structure PullCountsBody where
  repository : Text
  reference : Option Text
  scope : Text
  approximate : Bool
  start : Text
  end_ : Text
  totals : PullCountTotalsBody
  days : List PullCountDayBody

/-- `PullCountScope::label`. -/
def CountSubject.label : CountSubject → Text
  | .repo => "repository".toList
  | .tag _ => "tag".toList
  | .manifest _ => "manifest".toList

/-- The row of one day. -/
def dayBody (d : CountDay) : PullCountDayBody where
  day := d.day
  date := isoDate d.day
  weekday := weekday d.day
  manifestPulls := d.bucket.total .manifestPulls
  blobPulls := d.bucket.total .blobPulls
  bytesOut := d.bucket.total .bytesOut
  hours :=
    { manifestPulls := d.bucket.manifestPulls.toList
      blobPulls := d.bucket.blobPulls.toList
      bytesOut := d.bucket.bytesOut.toList }

/-- A day with no traffic. -/
def noCounts (day : UInt16) : CountDay := { day, bucket := .default }

/-- `u16::saturating_add`. -/
def saturatingAdd16 (a b : UInt16) : UInt16 := .ofNat (min (a.toNat + b.toNat) (2 ^ 16 - 1))

/-- `u16::saturating_sub`. -/
def saturatingSub16 (a b : UInt16) : UInt16 := .ofNat (a.toNat - b.toNat)

/-- The days of the window as the body walks them. -/
def bodyDays (start days : UInt16) : List UInt16 :=
  (List.range days.toNat).map fun offset => saturatingAdd16 start (.ofNat offset)

/-- `pull_counts_body`. -/
def pullCountsBody (name : Text) (reference : Option Text) (scope : CountSubject)
    (start days : UInt16) (series : List CountDay) : PullCountsBody :=
  let rows := Runs.fill CountDay.day noCounts (bodyDays start days) series
  { repository := name
    reference
    scope := scope.label
    approximate := true
    start := isoDate start
    end_ := isoDate (saturatingAdd16 start (saturatingSub16 days 1))
    totals :=
      { manifestPulls := sum64 (rows.map fun d => d.bucket.total .manifestPulls)
        blobPulls := sum64 (rows.map fun d => d.bucket.total .blobPulls)
        bytesOut := sum64 (rows.map fun d => d.bucket.total .bytesOut) }
    days := rows.map dayBody }

/-! ## Shards summed hour by hour -/

namespace CounterBucket

theorem hour_le (b : CounterBucket) (m : Metric) (i : Fin HOURS_PER_DAY) : b.hour m i ≤ m.cap := by
  cases m with
  | manifestPulls => exact Nat.le_sub_one_of_lt (UInt32.toNat_lt _)
  | blobPulls => exact Nat.le_sub_one_of_lt (UInt32.toNat_lt _)
  | bytesOut => exact Nat.le_sub_one_of_lt (UInt64.toNat_lt _)

theorem saturatingAdd64_toNat (a b : UInt64) :
    (saturatingAdd64 a b).toNat = min (2 ^ 64 - 1) (a.toNat + b.toNat) := by
  unfold saturatingAdd64
  split
  · rename_i fits
    rw [UInt64.toNat_add, Nat.mod_eq_of_lt fits]
    omega
  · rename_i tooLarge
    rw [UInt64.toNat_ofNat_of_lt' (by decide)]
    omega

/-- One hour of another bucket, added. -/
theorem hour_add (b other : CounterBucket) (m : Metric) (i j : Fin HOURS_PER_DAY) :
    (b.add i.val (other.manifestPulls.get i).toUInt64 (other.blobPulls.get i).toUInt64
      (other.bytesOut.get i)).hour m j =
      if i = j then min m.cap (b.hour m j + other.hour m j) else b.hour m j := by
  rw [CounterBucket.add, dif_pos i.isLt]
  by_cases same : i = j
  · subst same
    rw [if_pos rfl]
    cases m with
    | manifestPulls =>
      simp only [hour, List.Vector.get_set_same, saturatingAdd32_clamp32, UInt32.toNat_toUInt64]
      rfl
    | blobPulls =>
      simp only [hour, List.Vector.get_set_same, saturatingAdd32_clamp32, UInt32.toNat_toUInt64]
      rfl
    | bytesOut =>
      simp only [hour, List.Vector.get_set_same, saturatingAdd64_toNat]
      rfl
  · rw [if_neg same]
    cases m with
    | manifestPulls => simp only [hour, List.Vector.get_set_of_ne same]
    | blobPulls => simp only [hour, List.Vector.get_set_of_ne same]
    | bytesOut => simp only [hour, List.Vector.get_set_of_ne same]

/-- Another bucket's hours, added one after the other. -/
theorem hour_addDay (b other : CounterBucket) (m : Metric) (j : Fin HOURS_PER_DAY) :
    (b.addDay other).hour m j = min m.cap (b.hour m j + other.hour m j) := by
  have go (l : List (Fin HOURS_PER_DAY)) (nodup : l.Nodup) (b : CounterBucket) :
      (l.foldl (fun b (i : Fin HOURS_PER_DAY) => b.add i (other.manifestPulls.get i).toUInt64
        (other.blobPulls.get i).toUInt64 (other.bytesOut.get i)) b).hour m j =
        if j ∈ l then min m.cap (b.hour m j + other.hour m j) else b.hour m j := by
    induction l generalizing b with
    | nil => rfl
    | cons i l ih =>
      rw [List.nodup_cons] at nodup
      rw [List.foldl_cons, ih nodup.2, hour_add]
      by_cases same : i = j
      · subst same
        rw [if_neg nodup.1, if_pos rfl, if_pos List.mem_cons_self]
      · rw [if_neg same]
        by_cases later : j ∈ l
        · rw [if_pos later, if_pos (List.mem_cons_of_mem i later)]
        · rw [if_neg later, if_neg fun h => (List.mem_cons.mp h).elim (fun e => same e.symm) later]
  rw [addDay, go _ (List.nodup_finRange HOURS_PER_DAY) b, if_pos (List.mem_finRange j)]

/-- The shards of a day add up to the limit and stay there. -/
theorem hour_foldl (buckets : List CounterBucket) (b : CounterBucket) (m : Metric)
    (j : Fin HOURS_PER_DAY) : (buckets.foldl addDay b).hour m j =
      min m.cap (((b :: buckets).map fun b => b.hour m j).sum) := by
  induction buckets generalizing b with
  | nil =>
    rw [List.foldl_nil, List.map_cons, List.map_nil, List.sum_cons, List.sum_nil, Nat.add_zero,
      Nat.min_eq_right (b.hour_le m j)]
  | cons next buckets ih =>
    rw [List.foldl_cons, ih, List.map_cons, List.map_cons, List.map_cons, List.sum_cons,
      List.sum_cons, List.sum_cons, hour_addDay]
    omega

end CounterBucket

/-- The hour of a day, its shards summed. -/
def shardedHour (shards : List CounterBucket) (m : Metric) (i : Fin HOURS_PER_DAY) : Nat :=
  min m.cap ((shards.map fun b => b.hour m i).sum)

/-- A day of a window is stored if it has a shard, and its hours are the sums. -/
theorem CountDay.ofShards_hour {day : UInt16} {shards : List CounterBucket} {d : CountDay}
    (h : CountDay.ofShards day shards = some d) :
    d.day = day ∧ ∀ m i, d.bucket.hour m i = shardedHour shards m i := by
  cases shards with
  | nil => cases h
  | cons b shards =>
    cases h
    exact ⟨rfl, fun m i => b.hour_foldl shards m i⟩

theorem CountDay.ofShards_isSome (day : UInt16) {shards : List CounterBucket} :
    (CountDay.ofShards day shards).isSome = true ↔ shards ≠ [] := by
  cases shards with
  | nil => exact iff_of_false nofun fun h => h rfl
  | cons b shards => exact iff_of_true rfl nofun

/-! ## Sums -/

theorem sum64_toNat (l : List UInt64) : (sum64 l).toNat = (l.map UInt64.toNat).sum % 2 ^ 64 := by
  have go (acc : UInt64) : (l.foldl (· + ·) acc).toNat =
      (acc.toNat + (l.map UInt64.toNat).sum) % 2 ^ 64 := by
    induction l generalizing acc with
    | nil => exact (Nat.mod_eq_of_lt acc.toNat_lt).symm
    | cons a l ih =>
      rw [List.foldl_cons, ih, List.map_cons, List.sum_cons, UInt64.toNat_add, Nat.mod_add_mod,
        Nat.add_assoc]
  rw [sum64, go]
  simp only [UInt64.toNat_zero, Nat.zero_add]

/-- The hours of a vector, one for one. -/
theorem toList_eq_map {α : Type*} {n : Nat} (v : List.Vector α n) :
    v.toList = (List.finRange n).map v.get := by
  have whole := List.Vector.toList_ofFn v.get
  rwa [List.Vector.ofFn_get, List.ofFn_eq_map] at whole

theorem CounterBucket.hours_toNat (b : CounterBucket) (m : Metric) :
    (b.hours m).map UInt64.toNat = (List.finRange HOURS_PER_DAY).map (b.hour m) := by
  cases m with
  | manifestPulls =>
    rw [hours, toList_eq_map, List.map_map, List.map_map]
    exact List.map_congr_left fun i _ => UInt32.toNat_toUInt64 _
  | blobPulls =>
    rw [hours, toList_eq_map, List.map_map, List.map_map]
    exact List.map_congr_left fun i _ => UInt32.toNat_toUInt64 _
  | bytesOut =>
    rw [hours, toList_eq_map, List.map_map]
    rfl

theorem counted_dayBody (d : CountDay) (m : Metric) :
    (dayBody d).counted m = (List.finRange HOURS_PER_DAY).map (d.bucket.hour m) := by
  cases m with
  | manifestPulls =>
    simp only [PullCountDayBody.counted, dayBody, toList_eq_map, List.map_map]
    rfl
  | blobPulls =>
    simp only [PullCountDayBody.counted, dayBody, toList_eq_map, List.map_map]
    rfl
  | bytesOut =>
    simp only [PullCountDayBody.counted, dayBody, toList_eq_map, List.map_map]
    rfl

theorem total_dayBody (d : CountDay) (m : Metric) :
    ((dayBody d).total m).toNat = ((dayBody d).counted m).sum % 2 ^ 64 := by
  have figure : (dayBody d).total m = d.bucket.total m := by
    cases m <;> rfl
  rw [figure, CounterBucket.total, sum64_toNat, CounterBucket.hours_toNat, counted_dayBody]

/-- The totals of a body add its rows up. -/
theorem totals_pullCountsBody (name : Text) (reference : Option Text) (scope : CountSubject)
    (start days : UInt16) (series : List CountDay) (m : Metric) :
    (pullCountsBody name reference scope start days series).totals.total m =
      sum64 ((pullCountsBody name reference scope start days series).days.map
        fun row => row.total m) := by
  cases m <;>
  · simp only [PullCountTotalsBody.total, pullCountsBody, List.map_map]
    rfl

theorem noCounts_hour (day : UInt16) (m : Metric) (i : Fin HOURS_PER_DAY) :
    (noCounts day).bucket.hour m i = shardedHour [] m i := by
  have zero : shardedHour [] m i = 0 := Nat.min_eq_right (Nat.zero_le _)
  rw [zero]
  cases m with
  | manifestPulls => exact congrArg UInt32.toNat (List.Vector.get_replicate 0 i)
  | blobPulls => exact congrArg UInt32.toNat (List.Vector.get_replicate 0 i)
  | bytesOut => exact congrArg UInt64.toNat (List.Vector.get_replicate 0 i)

/-! ## The window -/

theorem windowDays_sorted {start days : UInt16} (fits : start.toNat + days.toNat ≤ 2 ^ 16) :
    (windowDays start days).Pairwise fun a b => a.toNat < b.toNat := by
  rw [windowDays, List.pairwise_map]
  refine (List.Pairwise.and_mem.mp List.pairwise_lt_range').imp ?_
  rintro a b ⟨ha, hb, lt⟩
  rw [List.mem_range'_1] at ha hb
  have small : b < 2 ^ 16 := by omega
  have small' : a < 2 ^ 16 := by omega
  rw [UInt16.toNat_ofNat_of_lt' small, UInt16.toNat_ofNat_of_lt' small']
  exact lt

theorem mem_windowDays {start days : UInt16} (fits : start.toNat + days.toNat ≤ 2 ^ 16)
    (day : UInt16) : day ∈ windowDays start days ↔
      start.toNat ≤ day.toNat ∧ day.toNat < start.toNat + days.toNat := by
  rw [windowDays, List.mem_map]
  constructor
  · rintro ⟨d, hd, rfl⟩
    rw [List.mem_range'_1] at hd
    have small : d < 2 ^ 16 := by omega
    rw [UInt16.toNat_ofNat_of_lt' small]
    exact hd
  · intro within
    exact ⟨day.toNat, List.mem_range'_1.mpr within, UInt16.ofNat_toNat⟩

/-- The body walks the window's days. -/
theorem bodyDays_eq {start days : UInt16} (fits : start.toNat + days.toNat ≤ 2 ^ 16) :
    bodyDays start days = windowDays start days := by
  rw [bodyDays, windowDays, List.range'_eq_map_range, List.map_map]
  refine List.map_congr_left fun offset within => ?_
  rw [List.mem_range] at within
  have small : offset < 2 ^ 16 := by omega
  have most : min (start.toNat + offset) (2 ^ 16 - 1) = start.toNat + offset :=
    Nat.min_eq_left (by omega)
  rw [saturatingAdd16, UInt16.toNat_ofNat_of_lt' small, most]
  rfl

/-- The counts of a window are the days that have a shard, in order, with the sums of their
shards; the body has a row for every day, and its figures are the sums of its rows. -/
theorem window_complete (r : Registry) (name : Text) (subject : CountSubject) {start days : UInt16}
    (fits : start.toNat + days.toNat ≤ 2 ^ 16)
    (shards : ∀ day, (r.dayShards name subject day).length ≤ SHARD_SCAN_SLACK)
    (reference : Option Text) :
    let series := (r.counts name subject start days).1
    let body := pullCountsBody name reference subject start days series
    (series.Pairwise (fun a b => a.day < b.day) ∧
      (∀ day, day ∈ series.map CountDay.day ↔
        start.toNat ≤ day.toNat ∧ day.toNat < start.toNat + days.toNat ∧
          r.dayShards name subject day ≠ []) ∧
      ∀ d ∈ series, ∀ m i,
        d.bucket.hour m i = shardedHour (r.dayShards name subject d.day) m i) ∧
    body.days.map PullCountDayBody.day = windowDays start days ∧
    (∀ row ∈ body.days, ∀ m, row.counted m =
      (List.finRange HOURS_PER_DAY).map (shardedHour (r.dayShards name subject row.day) m)) ∧
    (∀ row ∈ body.days, ∀ m, (row.counted m).sum < 2 ^ 64 →
      (row.total m).toNat = (row.counted m).sum) ∧
    ∀ m, (body.days.map fun row => (row.total m).toNat).sum < 2 ^ 64 →
      (body.totals.total m).toNat = (body.days.map fun row => (row.total m).toNat).sum := by
  intro series body
  have read : series = (windowDays start days).filterMap fun day =>
      CountDay.ofShards day (r.dayShards name subject day) := r.counts_eq name subject fits shards
  have keyed (day : UInt16) (d : CountDay)
      (h : CountDay.ofShards day (r.dayShards name subject day) = some d) : d.day = day :=
    (CountDay.ofShards_hour h).1
  have sorted := windowDays_sorted fits
  have distinct : (windowDays start days).Nodup := sorted.imp fun {a b} lt same => by
    rw [same] at lt
    exact lt_irrefl _ lt
  have rows : Runs.fill CountDay.day noCounts (windowDays start days)
        ((windowDays start days).filterMap fun day =>
          CountDay.ofShards day (r.dayShards name subject day)) =
      (windowDays start days).map fun day =>
        (CountDay.ofShards day (r.dayShards name subject day)).getD (noCounts day) :=
    Runs.fill_filterMap noCounts distinct keyed
  have walked : body.days = (windowDays start days).map fun day =>
      dayBody ((CountDay.ofShards day (r.dayShards name subject day)).getD (noCounts day)) := by
    change (Runs.fill CountDay.day noCounts (bodyDays start days) series).map dayBody = _
    rw [bodyDays_eq fits, read, rows, List.map_map]
    rfl
  have one (day : UInt16) :
      ((CountDay.ofShards day (r.dayShards name subject day)).getD (noCounts day)).day = day ∧
        ∀ m i, ((CountDay.ofShards day (r.dayShards name subject day)).getD
          (noCounts day)).bucket.hour m i = shardedHour (r.dayShards name subject day) m i := by
    cases found : CountDay.ofShards day (r.dayShards name subject day) with
    | some d => exact CountDay.ofShards_hour found
    | none =>
      have empty : r.dayShards name subject day = [] := by
        by_contra some_
        have stored := (CountDay.ofShards_isSome day).mpr some_
        rw [found] at stored
        cases stored
      refine ⟨rfl, fun m i => ?_⟩
      rw [empty]
      exact noCounts_hour day m i
  refine ⟨⟨?_, fun day => ?_, fun d hd => ?_⟩, ?_, fun row hrow m => ?_, fun row hrow m fitting => ?_,
    fun m fitting => ?_⟩
  · rw [read, List.pairwise_filterMap]
    refine sorted.imp fun {day day'} lt d hd d' hd' => ?_
    rw [keyed day d hd, keyed day' d' hd']
    exact UInt16.lt_iff_toNat_lt.mpr lt
  · rw [read, List.mem_map, ← and_assoc, ← mem_windowDays fits]
    constructor
    · rintro ⟨d, hd, rfl⟩
      obtain ⟨day, inside, found⟩ := List.mem_filterMap.mp hd
      rw [keyed day d found]
      exact ⟨inside, (CountDay.ofShards_isSome day).mp (Option.isSome_of_eq_some found)⟩
    · rintro ⟨inside, some_⟩
      obtain ⟨d, found⟩ := Option.isSome_iff_exists.mp ((CountDay.ofShards_isSome day).mpr some_)
      exact ⟨d, List.mem_filterMap.mpr ⟨day, inside, found⟩, keyed day d found⟩
  · rw [read] at hd
    obtain ⟨day, -, found⟩ := List.mem_filterMap.mp hd
    rw [keyed day d found]
    exact (CountDay.ofShards_hour found).2
  · rw [walked, List.map_map]
    exact (List.map_congr_left fun day _ => (one day).1).trans (List.map_id _)
  · rw [walked] at hrow
    obtain ⟨day, -, rfl⟩ := List.mem_map.mp hrow
    have dated := (one day).1
    rw [counted_dayBody]
    refine List.map_congr_left fun i _ => ?_
    rw [(one day).2 m i]
    exact congrArg (fun day => shardedHour (r.dayShards name subject day) m i) dated.symm
  · rw [walked] at hrow
    obtain ⟨day, -, rfl⟩ := List.mem_map.mp hrow
    rw [total_dayBody, Nat.mod_eq_of_lt fitting]
  · rw [totals_pullCountsBody, sum64_toNat, List.map_map, Function.comp_def, Nat.mod_eq_of_lt fitting]

/-- Two writers counted one day, each in its shard, and one of them another. -/
def twoShards : Registry where
  store := (∅ : Store).apply [
    .put (.repoByName "tool".toList) (.repoId 0) rfl,
    .put (.counterRepo 0 3 0) (.counter (CounterBucket.default.add 7 1 2 50)) rfl,
    .put (.counterRepo 0 3 1) (.counter (CounterBucket.default.add 7 1 0 9)) rfl,
    .put (.counterRepo 0 5 0) (.counter (CounterBucket.default.add 9 1 0 4)) rfl]
  interner := .default
  options := {}

theorem twoShards_complete :
    let body := pullCountsBody "tool".toList none .repo 3 2
      (twoShards.counts "tool".toList .repo 3 2).1
    body.days.map PullCountDayBody.day = [3, 4] ∧
      (∀ row ∈ body.days, ∀ m, row.counted m = (List.finRange HOURS_PER_DAY).map
        (shardedHour (twoShards.dayShards "tool".toList .repo row.day) m)) ∧
      (twoShards.dayShards "tool".toList .repo 3).length = 2 := by
  have few (day : UInt16) :
      (twoShards.dayShards "tool".toList .repo day).length ≤ SHARD_SCAN_SLACK := by
    have found : (twoShards.lookupRepo "tool".toList).1 = some 0 := by decide +kernel
    have stored : twoShards.store.map.entries.length ≤ SHARD_SCAN_SLACK := by decide +kernel
    rw [Registry.dayShards, found]
    dsimp only
    rw [Store.dayBuckets, List.length_map]
    exact Nat.le_trans (List.length_filter_le _ _) stored
  have fits : (3 : UInt16).toNat + (2 : UInt16).toNat ≤ 2 ^ 16 := by decide
  obtain ⟨-, days, rows, -⟩ := window_complete twoShards "tool".toList .repo fits few none
  exact ⟨days, rows, by decide +kernel⟩

end Summ
