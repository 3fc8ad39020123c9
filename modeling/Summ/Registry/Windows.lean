import Summ.Lib.Runs
import Summ.Registry.Discovery
import Summ.Registry.Queries

/-!
# Count windows

The counts of a window of days, read with one scan that starts before the
window's first day and is cut at a limit. With at most four shards a day the
answer is the window's days that have a bucket and nothing else: `counts_eq`.
-/

namespace Summ

namespace CountSubject

/-- The key of one shard of one of a subject's days. -/
def key (repo : RepoId) (day shard : UInt16) : CountSubject → Key
  | manifest digest => .counterManifest repo digest day shard
  | tag t => .counterTag repo t day shard
  | CountSubject.repo => .counterRepo repo day shard

/-- The day of a subject's key. -/
def dayOf (subject : CountSubject) (repo : RepoId) (k : Key) : Option UInt16 :=
  if (subject.scan repo).covers k then k.counterDay else none

end CountSubject

/-- The counts of a record, if it holds any. -/
def Value.counts : Value → CounterBucket
  | .counter bucket => bucket
  | _ => .default

namespace CountDay

def index (d : CountDay) : Nat := d.day.toNat

/-- Another shard of the same day, added to it. -/
def merge (prev next : CountDay) : CountDay := { prev with bucket := prev.bucket.addDay next.bucket }

/-- The shards of a day as one row, if there are any. -/
def ofShards (day : UInt16) : List CounterBucket → Option CountDay
  | [] => none
  | bucket :: buckets => some { day, bucket := buckets.foldl CounterBucket.addDay bucket }

theorem index_merge (a b : CountDay) : (merge a b).index = a.index := by
  simp only [index, merge]

end CountDay

/-! ## Keys of a window -/

namespace CountSubject

theorem key_bytes (subject : CountSubject) (repo : RepoId) (day shard : UInt16) :
    (subject.key repo day shard).bytes = (subject.scan repo).bytes ++ keys.bucket day shard := by
  cases subject with
  | manifest digest => rfl
  | tag t => exact List.append_cons _ keys.TAG_END _
  | repo => rfl

theorem covers_key (subject : CountSubject) (repo : RepoId) (day shard : UInt16) :
    (subject.scan repo).covers (subject.key repo day shard) = true := by
  cases subject with
  | manifest digest => exact decide_eq_true ⟨rfl, rfl⟩
  | tag t => exact decide_eq_true ⟨rfl, rfl⟩
  | repo => exact decide_eq_true rfl

theorem of_covers {subject : CountSubject} {repo : RepoId} {k : Key}
    (h : (subject.scan repo).covers k = true) : ∃ day shard, k = subject.key repo day shard := by
  cases subject with
  | manifest digest =>
    cases k with
    | counterManifest r d day shard =>
      obtain ⟨rfl, rfl⟩ := of_decide_eq_true h
      exact ⟨day, shard, rfl⟩
    | _ => cases h
  | tag t =>
    cases k with
    | counterTag r t' day shard =>
      obtain ⟨rfl, rfl⟩ := of_decide_eq_true h
      exact ⟨day, shard, rfl⟩
    | _ => cases h
  | repo =>
    cases k with
    | counterRepo r day shard =>
      obtain rfl := of_decide_eq_true h
      exact ⟨day, shard, rfl⟩
    | _ => cases h

theorem key_injective {subject : CountSubject} {repo : RepoId} {day day' shard shard' : UInt16}
    (h : subject.key repo day shard = subject.key repo day' shard') : day = day' ∧ shard = shard' := by
  cases subject with
  | manifest digest => exact ⟨(Key.counterManifest.inj h).2.2.1, (Key.counterManifest.inj h).2.2.2⟩
  | tag t => exact ⟨(Key.counterTag.inj h).2.2.1, (Key.counterTag.inj h).2.2.2⟩
  | repo => exact ⟨(Key.counterRepo.inj h).2.1, (Key.counterRepo.inj h).2.2⟩

theorem key_lt_iff (subject : CountSubject) (repo : RepoId) (day day' shard shard' : UInt16) :
    subject.key repo day shard < subject.key repo day' shard' ↔
      keys.bucket day shard < keys.bucket day' shard' := by
  rw [Key.lt_iff, key_bytes, key_bytes, Bytes.append_lt_append_left]

end CountSubject

/-- The start of a window is before its first day and after the day before that. -/
theorem countersFromDay_lt (subject : CountSubject) (repo : RepoId) (start day shard : UInt16) :
    keys.countersFromDay (subject.scan repo).bytes start < (subject.key repo day shard).bytes ↔
      start.toNat ≤ day.toNat := by
  rw [subject.key_bytes, keys.countersFromDay, Bytes.append_lt_append_left, keys.bucket]
  rcases Nat.lt_trichotomy start.toNat day.toNat with before | same | after
  · have lt := Bytes.append_lt_append_of_lt (by simp) (Bytes.be_lt_be (w := 2) day.toNat_lt before) []
      (Bytes.be 2 shard.toNat)
    rw [List.append_nil] at lt
    exact iff_of_true lt (le_of_lt before)
  · have more : Bytes.be 2 day.toNat ++ [] < Bytes.be 2 day.toNat ++ Bytes.be 2 shard.toNat := by
      rw [Bytes.append_lt_append_left]
      exact List.nil_lt_cons _ _
    rw [List.append_nil] at more
    exact iff_of_true (same ▸ more) (le_of_eq same)
  · have lt := Bytes.append_lt_append_of_lt (by simp) (Bytes.be_lt_be (w := 2) start.toNat_lt after)
      (Bytes.be 2 shard.toNat) []
    rw [List.append_nil] at lt
    exact iff_of_false (not_lt_of_gt lt) (by omega)

/-- The buckets of one day are together, and the days in order. -/
theorem day_le_of_lt {subject : CountSubject} {repo : RepoId} {day day' shard shard' : UInt16}
    (lt : subject.key repo day shard < subject.key repo day' shard') : day.toNat ≤ day'.toNat := by
  rw [subject.key_lt_iff] at lt
  by_contra after
  have back := Bytes.append_lt_append_of_lt (by simp)
    (Bytes.be_lt_be (w := 2) day.toNat_lt (Nat.lt_of_not_le after)) (Bytes.be 2 shard'.toNat)
    (Bytes.be 2 shard.toNat)
  exact absurd lt (not_lt_of_gt back)

/-! ## The scan -/

namespace Store

/-- Either engine cuts its page from the bindings after a cursor under the prefix. -/
theorem scanOn_cut (s : Store) (engine : Engine) {p : Scan} (paged : p.paged = true)
    (whole : p ≠ .repoBlobs) {c : Bytes} (hc : p.bytes <+: c) {limit : Nat} (pos : 0 < limit) :
    s.scanOn engine p (some c) limit = Page.cut limit (s.underFrom p (some c)) := by
  have starts : ∀ b ∈ some c, p.bytes <+: b := fun b hb => Option.some.inj hb ▸ hc
  cases engine with
  | rocks => exact s.scanFrom_cut paged whole starts pos
  | redb =>
    have gap : ¬Redb.Gap (Sum.elim Key.bytes id) (s.map.entries.map wrap) p.bytes
        ((some c).map Sum.inr) := by
      rintro ⟨b, hb, e, -, beyond, below⟩
      cases hb
      exact absurd (lt_of_lt_of_le below (Bytes.prefix_le hc)) (not_lt_of_gt beyond)
    have cut := Redb.scan_from (Sum.elim Key.bytes id) (s.map.entries.map wrap) p.bytes
      ((some c).map Sum.inr) pos
    rw [Redb.range_no_gap s.wrapped_sorted gap, after_wrapped] at cut
    rw [scanOn, cut, unwrap_cut]

/-- The page a window is read from. -/
theorem windowPage_cut (s : Store) (engine : Engine) (subject : CountSubject) (repo : RepoId)
    (start : UInt16) {limit : Nat} (pos : 0 < limit) :
    s.scanOn engine (subject.scan repo)
        (some (keys.countersFromDay (subject.scan repo).bytes start)) limit =
      Page.cut limit (s.underFrom (subject.scan repo)
        (some (keys.countersFromDay (subject.scan repo).bytes start))) := by
  have paged : (subject.scan repo).paged = true ∧ subject.scan repo ≠ .repoBlobs := by
    cases subject <;> exact ⟨rfl, nofun⟩
  exact s.scanOn_cut engine paged.1 paged.2 (List.prefix_append _ _) pos

/-- The counts stored for one of a subject's days, in the order of their shards. -/
def dayBuckets (s : Store) (subject : CountSubject) (repo : RepoId) (day : UInt16) :
    List CounterBucket :=
  (s.map.entriesWhere fun k => decide (subject.dayOf repo k = some day)).map fun e => e.2.counts

end Store

/-- The row of a binding under the subject's prefix. -/
def CountSubject.rowOf (subject : CountSubject) (repo : RepoId) (e : Key × Value) : CountDay where
  day := (subject.dayOf repo e.1).getD 0
  bucket := e.2.counts

theorem counterDay_key (subject : CountSubject) (repo : RepoId) (day shard : UInt16) :
    (subject.key repo day shard).counterDay = some day := by
  cases subject <;> rfl

theorem dayOf_key (subject : CountSubject) (repo : RepoId) (day shard : UInt16) :
    subject.dayOf repo (subject.key repo day shard) = some day := by
  rw [CountSubject.dayOf, if_pos (subject.covers_key repo day shard), counterDay_key]

theorem of_dayOf {subject : CountSubject} {repo : RepoId} {k : Key} {day : UInt16}
    (h : subject.dayOf repo k = some day) : ∃ shard, k = subject.key repo day shard := by
  rw [CountSubject.dayOf] at h
  split at h
  · rename_i covers
    obtain ⟨day', shard, rfl⟩ := CountSubject.of_covers covers
    rw [counterDay_key] at h
    cases h
    exact ⟨shard, rfl⟩
  · cases h

/-- The bindings of a subject are its buckets. -/
theorem bucket_of_key {s : Store} {subject : CountSubject} {repo : RepoId} {day shard : UInt16}
    {v : Value} (h : s.get (subject.key repo day shard) = some v) : v = .counter v.counts := by
  have fits := Store.fits_of_get h
  cases subject with
  | manifest digest => cases v <;> first | rfl | cases fits
  | tag t => cases v <;> first | rfl | cases fits
  | repo => cases v <;> first | rfl | cases fits

/-- The loop takes the rows of the window and merges them. -/
theorem foldDays_eq {subject : CountSubject} {repo : RepoId} (last : UInt16)
    {entries : List (Key × Value)} (all : ∀ e ∈ entries, (∃ day shard, e.1 = subject.key repo day shard) ∧
      e.2 = .counter e.2.counts) (out : List CountDay) :
    foldDays last out entries =
      ((entries.map (subject.rowOf repo)).takeWhile fun row => decide (row.day ≤ last)).foldl
        (Runs.add CountDay.index CountDay.merge) out.reverse := by
  induction entries generalizing out with
  | nil =>
    rw [foldDays]
    rfl
  | cons e entries ih =>
    obtain ⟨⟨⟨day, shard, hk⟩, hv⟩, rest⟩ := List.forall_mem_cons.mp all
    obtain ⟨k, v⟩ := e
    dsimp only at hk hv
    subst hk
    rw [hv]
    have row : subject.rowOf repo (subject.key repo day shard, .counter v.counts) =
        { day, bucket := v.counts } := by
      rw [CountSubject.rowOf, dayOf_key]
      rfl
    have dated := counterDay_key subject repo day shard
    rw [List.map_cons, row]
    by_cases past : last < day
    · rw [List.takeWhile_cons_of_neg (by simpa using past), List.foldl_nil]
      cases out with
      | nil => rw [foldDays.eq_3 _ _ _ _ day dated, if_pos past, List.reverse_nil]
      | cons prev earlier => rw [foldDays.eq_4 _ _ _ _ day _ _ dated, if_pos past]
    · rw [List.takeWhile_cons_of_pos (by simpa using past), List.foldl_cons]
      cases out with
      | nil =>
        rw [foldDays.eq_3 _ _ _ _ day dated, if_neg past, ih rest]
        rfl
      | cons prev earlier =>
        rw [foldDays.eq_4 _ _ _ _ day _ _ dated, if_neg past, List.reverse_cons]
        by_cases same : prev.day = day
        · have merged : prev.index = CountDay.index { day, bucket := v.counts } :=
            congrArg UInt16.toNat same
          rw [if_pos same, ih rest, List.reverse_cons, Runs.add_same merged]
          rfl
        · have apart : ∀ row ∈ (earlier.reverse ++ [prev]).getLast?,
              row.index ≠ CountDay.index { day, bucket := v.counts } := by
            intro row mem
            rw [List.getLast?_concat] at mem
            cases mem
            exact fun h => same (UInt16.toNat_inj.mp h)
          rw [if_neg same, ih rest, List.reverse_cons, List.reverse_cons, Runs.add_other apart]

/-! ## The window -/

/-- The days of a window, in order. -/
def windowDays (start days : UInt16) : List UInt16 :=
  (List.range' start.toNat days.toNat).map UInt16.ofNat

theorem foldl_merge (rows : List CountDay) (row : CountDay) :
    rows.foldl CountDay.merge row =
      { row with bucket := (rows.map CountDay.bucket).foldl CounterBucket.addDay row.bucket } := by
  induction rows generalizing row with
  | nil => rfl
  | cons next rows ih =>
    rw [List.foldl_cons, ih, List.map_cons, List.foldl_cons]
    simp only [CountDay.merge]

section
variable {s : Store} {subject : CountSubject} {repo : RepoId} {start last : UInt16}

/-- The rows of the bindings from the window's start on, up to its last day. -/
def windowRows (s : Store) (subject : CountSubject) (repo : RepoId) (start last : UInt16) :
    List CountDay :=
  ((s.underFrom (subject.scan repo) (some (keys.countersFromDay (subject.scan repo).bytes start))).map
    (subject.rowOf repo)).filter fun row => decide (row.day ≤ last)

/-- A binding from the window's start on. -/
theorem underFrom_day {e : Key × Value} (he : e ∈ s.underFrom (subject.scan repo)
    (some (keys.countersFromDay (subject.scan repo).bytes start))) :
    ∃ day shard, e.1 = subject.key repo day shard ∧ start.toNat ≤ day.toNat ∧
      subject.rowOf repo e = { day, bucket := e.2.counts } ∧ e.2 = .counter e.2.counts := by
  obtain ⟨k, v⟩ := e
  obtain ⟨covers, after, stored⟩ := Store.mem_underFrom.mp he
  obtain ⟨day, shard, rfl⟩ := CountSubject.of_covers covers
  refine ⟨day, shard, rfl, ?_, ?_, bucket_of_key stored⟩
  · exact (countersFromDay_lt subject repo start day shard).mp (after _ (Option.mem_some_self _))
  · rw [CountSubject.rowOf, dayOf_key]
    rfl

variable (s subject repo start last)

/-- The rows of one day of the window are the day's buckets. -/
theorem filter_windowRows {day : UInt16} (from_ : start.toNat ≤ day.toNat) (to_ : day ≤ last) :
    ((windowRows s subject repo start last).filter fun row => decide (row.index = day.toNat)) =
      (s.map.entriesWhere fun k => decide (subject.dayOf repo k = some day)).map
        (subject.rowOf repo) := by
  rw [windowRows, List.filter_filter, List.filter_map, Store.underFrom, OrderedMap.entriesWhere,
    OrderedMap.entriesWhere, List.filter_filter]
  congr 1
  refine List.filter_congr fun e _ => ?_
  obtain ⟨k, v⟩ := e
  rw [Bool.eq_iff_iff]
  simp only [Function.comp_apply, Bool.and_eq_true, decide_eq_true_eq, Option.all_some]
  constructor
  · rintro ⟨⟨same, -⟩, covers, -⟩
    obtain ⟨day', shard, rfl⟩ := CountSubject.of_covers covers
    rw [CountSubject.rowOf, dayOf_key] at same
    rw [dayOf_key]
    exact congrArg some (UInt16.toNat_inj.mp same)
  · intro dated
    obtain ⟨shard, rfl⟩ := of_dayOf dated
    rw [CountSubject.rowOf, dayOf_key]
    exact ⟨⟨rfl, to_⟩, subject.covers_key repo day shard,
      (countersFromDay_lt subject repo start day shard).mpr from_⟩

/-- A day of the window as one row. -/
theorem run_windowRows {day : UInt16} (from_ : start.toNat ≤ day.toNat) (to_ : day ≤ last) :
    Runs.run CountDay.index CountDay.merge day.toNat (windowRows s subject repo start last) =
      CountDay.ofShards day (s.dayBuckets subject repo day) := by
  have rows := filter_windowRows s subject repo start last from_ to_
  have dated : ∀ e ∈ s.map.entriesWhere fun k => decide (subject.dayOf repo k = some day),
      subject.rowOf repo e = { day, bucket := e.2.counts } := by
    intro e he
    rw [CountSubject.rowOf, of_decide_eq_true (OrderedMap.mem_entriesWhere.mp he).1]
    rfl
  rw [Runs.run, rows, Store.dayBuckets]
  generalize s.map.entriesWhere (fun k => decide (subject.dayOf repo k = some day)) = entries at dated
  cases entries with
  | nil => rfl
  | cons e entries =>
    obtain ⟨first, rest⟩ := List.forall_mem_cons.mp dated
    have buckets : (entries.map (subject.rowOf repo)).map CountDay.bucket =
        entries.map fun e => e.2.counts := by
      rw [List.map_map]
      rfl
    rw [List.map_cons, List.map_cons]
    dsimp only
    rw [foldl_merge, buckets, first]
    rfl

theorem startRows_sorted : ((s.underFrom (subject.scan repo)
    (some (keys.countersFromDay (subject.scan repo).bytes start))).map
    (subject.rowOf repo)).Pairwise fun a b => a.index ≤ b.index := by
  rw [List.pairwise_map]
  refine (List.Pairwise.and_mem.mp (s.underFrom_sorted _ _)).imp ?_
  rintro a b ⟨ha, hb, lt⟩
  obtain ⟨day, shard, hk, -, row, -⟩ := underFrom_day ha
  obtain ⟨day', shard', hk', -, row', -⟩ := underFrom_day hb
  rw [hk, hk'] at lt
  rw [row, row']
  exact day_le_of_lt lt

/-- The scan stops at the first row past the window. -/
theorem takeWhile_startRows : ((s.underFrom (subject.scan repo)
    (some (keys.countersFromDay (subject.scan repo).bytes start))).map
    (subject.rowOf repo)).takeWhile (fun row => decide (row.day ≤ last)) =
      windowRows s subject repo start last := by
  refine OrderedMap.takeWhile_eq_filter ((startRows_sorted s subject repo start).imp fun {a b} le within => ?_)
  have bound := UInt16.le_iff_toNat_le.mp (of_decide_eq_true within)
  exact decide_eq_true (UInt16.le_iff_toNat_le.mpr (Nat.le_trans le bound))

theorem windowRows_sorted :
    (windowRows s subject repo start last).Pairwise fun a b => a.index ≤ b.index :=
  (startRows_sorted s subject repo start).filter _

theorem windowRows_listed {days : UInt16} (end_ : last.toNat < start.toNat + days.toNat) :
    ∀ row ∈ windowRows s subject repo start last,
      row.index ∈ List.range' start.toNat days.toNat := by
  intro row mem
  obtain ⟨mem, le⟩ := List.mem_filter.mp mem
  obtain ⟨e, he, rfl⟩ := List.mem_map.mp mem
  obtain ⟨day, shard, -, from_, shown, -⟩ := underFrom_day he
  rw [shown] at le ⊢
  have to_ := UInt16.le_iff_toNat_le.mp (of_decide_eq_true le)
  rw [List.mem_range'_1]
  exact ⟨from_, by dsimp only [CountDay.index]; dsimp only at to_; omega⟩

/-- At most so many shards a day are at most so many rows. -/
theorem windowRows_length {days : UInt16} (fits : start.toNat + days.toNat ≤ 2 ^ 16)
    (end_ : last.toNat + 1 = start.toNat + days.toNat)
    (shards : ∀ day, (s.dayBuckets subject repo day).length ≤ SHARD_SCAN_SLACK) :
    (windowRows s subject repo start last).length ≤ days.toNat * SHARD_SCAN_SLACK := by
  have before : last.toNat < start.toNat + days.toNat := by omega
  have listed := windowRows_listed s subject repo start last before
  have few : ∀ d ∈ List.range' start.toNat days.toNat,
      ((windowRows s subject repo start last).filter fun row =>
        decide (row.index = d)).length ≤ SHARD_SCAN_SLACK := by
    intro d hd
    rw [List.mem_range'_1] at hd
    have small : d < 2 ^ 16 := by omega
    have index : (UInt16.ofNat d).toNat = d := UInt16.toNat_ofNat_of_lt' small
    have to_ : UInt16.ofNat d ≤ last := UInt16.le_iff_toNat_le.mpr (by omega)
    have from_ : start.toNat ≤ (UInt16.ofNat d).toNat := by omega
    have rows := filter_windowRows s subject repo start last from_ to_
    rw [index] at rows
    have bound := shards (.ofNat d)
    rw [Store.dayBuckets, List.length_map] at bound
    rw [rows, List.length_map]
    exact bound
  have all := Runs.length_le listed few
  rwa [List.length_range'] at all

end

/-- A limit that is no shorter than what is taken takes nothing from it. -/
theorem takeWhile_take {α : Type*} {p : α → Bool} {l : List α} {n : Nat}
    (short : (l.takeWhile p).length ≤ n) : (l.take n).takeWhile p = l.takeWhile p := by
  induction l generalizing n with
  | nil => rw [List.take_nil]
  | cons a l ih =>
    cases n with
    | zero =>
      rw [List.take_zero, List.eq_nil_of_length_eq_zero (Nat.le_zero.mp short)]
      rfl
    | succ n =>
      rw [List.take_succ_cons, List.takeWhile_cons, List.takeWhile_cons]
      split
      · rename_i holds
        rw [List.takeWhile_cons_of_pos holds, List.length_cons] at short
        rw [ih (by omega)]
      · rfl

namespace Store

/-- The counts of a window are its days that have a bucket, in order, each with its
shards summed. -/
theorem countDays_eq (s : Store) (subject : CountSubject) (repo : RepoId) {start days : UInt16}
    (fits : start.toNat + days.toNat ≤ 2 ^ 16)
    (shards : ∀ day, (s.dayBuckets subject repo day).length ≤ SHARD_SCAN_SLACK) :
    s.countDays repo subject start days = (windowDays start days).filterMap fun day =>
      CountDay.ofShards day (s.dayBuckets subject repo day) := by
  by_cases none_ : days = 0
  · subst none_
    rfl
  · have pos : 0 < days.toNat := Nat.pos_of_ne_zero fun zero => none_ (UInt16.toNat_inj.mp zero)
    have last : (UInt16.ofNat (min (start.toNat + (days.toNat - 1)) (2 ^ 16 - 1))).toNat =
        start.toNat + (days.toNat - 1) := by
      have least : min (start.toNat + (days.toNat - 1)) (2 ^ 16 - 1) =
          start.toNat + (days.toNat - 1) := Nat.min_eq_left (by omega)
      have small : start.toNat + (days.toNat - 1) < 2 ^ 16 := by omega
      rw [least]
      exact UInt16.toNat_ofNat_of_lt' small
    have end_ : (UInt16.ofNat (min (start.toNat + (days.toNat - 1)) (2 ^ 16 - 1))).toNat + 1 =
        start.toNat + days.toNat := by omega
    have pos' : 0 < days.toNat * SHARD_SCAN_SLACK := Nat.mul_pos pos (by decide)
    have cut := s.windowPage_cut .rocks subject repo start pos'
    rw [Store.scanOn] at cut
    have rows (e : Key × Value) (he : e ∈ (s.underFrom (subject.scan repo)
        (some (keys.countersFromDay (subject.scan repo).bytes start))).take
          (days.toNat * SHARD_SCAN_SLACK)) :
        (∃ day shard, e.1 = subject.key repo day shard) ∧ e.2 = .counter e.2.counts := by
      obtain ⟨day, shard, hk, -, -, hv⟩ := underFrom_day (List.mem_of_mem_take he)
      exact ⟨⟨day, shard, hk⟩, hv⟩
    have length := windowRows_length s subject repo start _ fits end_ shards
    rw [← takeWhile_startRows] at length
    have grouped := Runs.group_eq CountDay.index_merge
      List.pairwise_lt_range'
      (windowRows_sorted s subject repo start _)
      (windowRows_listed s subject repo start _ (Nat.lt_of_succ_le (le_of_eq end_)))
    rw [Store.countDays, if_neg none_]
    dsimp only
    rw [cut, Page.cut, foldDays_eq _ rows, List.map_take, takeWhile_take length,
      takeWhile_startRows]
    refine grouped.trans ?_
    rw [windowDays, List.filterMap_map]
    refine List.filterMap_congr fun d hd => ?_
    rw [List.mem_range'_1] at hd
    have small : d < 2 ^ 16 := by omega
    have index : (UInt16.ofNat d).toNat = d := UInt16.toNat_ofNat_of_lt' small
    have to_ : UInt16.ofNat d ≤ UInt16.ofNat (min (start.toNat + (days.toNat - 1)) (2 ^ 16 - 1)) :=
      UInt16.le_iff_toNat_le.mpr (by omega)
    have from_ : start.toNat ≤ (UInt16.ofNat d).toNat := by omega
    have one := run_windowRows s subject repo start _ from_ to_
    rw [index] at one
    exact one

end Store

namespace Registry

/-- The shards stored for one of a subject's days, of a repository by its name. -/
def dayShards (r : Registry) (name : Text) (subject : CountSubject) (day : UInt16) :
    List CounterBucket :=
  match (r.lookupRepo name).1 with
  | some repo => r.store.dayBuckets subject repo day
  | none => []

theorem counts_eq (r : Registry) (name : Text) (subject : CountSubject) {start days : UInt16}
    (fits : start.toNat + days.toNat ≤ 2 ^ 16)
    (shards : ∀ day, (r.dayShards name subject day).length ≤ SHARD_SCAN_SLACK) :
    (r.counts name subject start days).1 = (windowDays start days).filterMap fun day =>
      CountDay.ofShards day (r.dayShards name subject day) := by
  rw [Registry.counts, Registry.readOr]
  rcases looked : r.lookupRepo name with ⟨repo | repo, after⟩
  · have none_ (day : UInt16) : CountDay.ofShards day (r.dayShards name subject day) = none := by
      rw [dayShards, looked]
      rfl
    simp only [none_, List.filterMap_none]
  · have same : r.store = after.store := congrArg (fun p => p.2.store) looked
    have shown (day : UInt16) : r.dayShards name subject day = r.store.dayBuckets subject repo day := by
      rw [dayShards, looked]
    simp only [shown] at shards ⊢
    rw [← same, r.store.countDays_eq subject repo fits shards]

end Registry

end Summ
