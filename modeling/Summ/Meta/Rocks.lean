import Mathlib.Data.List.Induction
import Summ.Core.Keys
import Summ.Lib.Paging

/-!
# The RocksDB engine's reads

The prefix extractor, the read options and the walk, over bindings in byte
order whose keys have a byte form. `rawIterator` is RocksDB's side: what it
documents of an iterator's seek, upper bound and `prefix_same_as_start`.
-/

namespace Summ.Rocks

open keys

/-- `summ_prefix_len`: how long the prefix group of a key is. -/
def summPrefixLen (key : Bytes) : Option Nat := do
  let type ← key[0]?
  if type = PREFIX_BLOB_REF then
    return 1 + (← encodedLenOf (← key[1]?))
  else if type ∈ [PREFIX_MANIFEST_TAG, PREFIX_CHILD_PARENT, PREFIX_REFERRER] then
    return 1 + 4 + (← encodedLenOf (← key[5]?))
  else if type = PREFIX_COUNTER then
    let scope ← key[1]?
    if scope = SCOPE_MANIFEST then
      return 2 + 4 + (← encodedLenOf (← key[6]?))
    else if scope ∈ [SCOPE_TAG, SCOPE_REPO] then
      return 6
    else none
  else if type ∈ [PREFIX_MANIFEST, PREFIX_MANIFEST_BODY, PREFIX_TAG, PREFIX_REPO_BLOB,
      PREFIX_TAG_HISTORY, PREFIX_MANIFEST_TAG_HISTORY] then
    return 5
  else none

def summTransform (key : Bytes) : Bytes :=
  match summPrefixLen key with
  | some n => if n ≤ key.length then key.take n else key
  | none => key

def summInDomain (key : Bytes) : Bool :=
  match summPrefixLen key with
  | some n => decide (n ≤ key.length)
  | none => false

/-- `prefix_successor`'s loop, on the reversed prefix. -/
def bumpLast : Bytes → Option Bytes
  | [] => none
  | last :: front => if last < 255 then some ((last + 1) :: front) else bumpLast front

/-- Smallest key strictly greater than every key beginning with `pre`. -/
def prefixSuccessor (pre : Bytes) : Option Bytes := (bumpLast pre.reverse).map List.reverse

structure ReadOptions where
  iterateUpperBound : Option Bytes
  prefixSameAsStart : Bool

def prefixReadOpts (pre : Bytes) : ReadOptions where
  iterateUpperBound := prefixSuccessor pre
  prefixSameAsStart := !pre.isEmpty

section
variable {κ V : Type*} (bytes : κ → Bytes)

/-- What a raw iterator yields once it has sought `target`: the keys from there
on, below the upper bound, and only those of the target's prefix group when the
target has one and the option asks for it. -/
def rawIterator (entries : List (κ × V)) (opts : ReadOptions) (target : Bytes) : List (κ × V) :=
  ((entries.dropWhile fun e => decide (bytes e.1 < target)).takeWhile fun e =>
      opts.iterateUpperBound.all fun bound => decide (bytes e.1 < bound)).takeWhile fun e =>
    !(opts.prefixSameAsStart && summInDomain target) ||
      (summInDomain (bytes e.1) && decide (summTransform (bytes e.1) = summTransform target))

/-- `RocksEngine::seek`. -/
def seek (entries : List (κ × V)) (pre : Bytes) (startAfter : Option κ) (opts : ReadOptions) :
    List (κ × V) :=
  rawIterator bytes entries opts ((startAfter.map bytes).getD pre)

/-- The loop of `RocksEngine::walk`: what it emits, and whether a further
matching key exists past the page. -/
def walk (pre : Bytes) (startAfter : Option κ) (limit : Nat) :
    List (κ × V) → (taken : Nat) → List (κ × V) × Bool
  | [], _ => ([], false)
  | e :: it, taken =>
    if startAfter.map bytes = some (bytes e.1) then walk pre startAfter limit it taken
    else if ¬ pre <+: bytes e.1 then ([], false)
    else if taken = limit then ([], true)
    else
      let (entries, more) := walk pre startAfter limit it (taken + 1)
      (e :: entries, more)

/-- `RocksEngine::scan`. -/
def scan (entries : List (κ × V)) (pre : Bytes) (startAfter : Option κ) (limit : Nat) :
    Page κ V :=
  if limit = 0 then { entries := [], next := none }
  else
    let it := seek bytes entries pre startAfter (prefixReadOpts pre)
    let (entries, more) := walk bytes pre startAfter limit it 0
    { entries, next := if more then entries.getLast?.map Prod.fst else none }

/-- `RocksEngine::exists_prefix`. -/
def existsPrefix (entries : List (κ × V)) (pre : Bytes) : Bool :=
  match seek bytes entries pre none (prefixReadOpts pre) with
  | e :: _ => decide (pre <+: bytes e.1)
  | [] => false

/-- The keys `DeletePrefix` removes: those from the prefix up to its successor. -/
def inDeleteRange (pre key : Bytes) : Bool :=
  match prefixSuccessor pre with
  | some end_ => decide (pre ≤ key ∧ key < end_)
  | none => decide (pre <+: key)

end

/-! ## The extractor -/

theorem encodedLenOf_le {algo : Byte} {n : Nat} (h : encodedLenOf algo = some n) : 33 ≤ n := by
  unfold encodedLenOf at h
  split at h
  · cases h; omega
  · split at h
    · cases h; omega
    · cases h

/-- Prefix consistency: the bytes that decide a group are inside it. -/
theorem summPrefixLen_congr {key key' : Bytes} {n : Nat} (h : summPrefixLen key = some n)
    (agree : ∀ i < n, key'[i]? = key[i]?) : summPrefixLen key' = some n := by
  unfold summPrefixLen at h ⊢
  simp only [Option.bind_eq_bind, Option.bind_eq_some_iff] at h
  obtain ⟨type, htype, h⟩ := h
  have head : 0 < n → key'[0]? = some type := fun hn => (agree 0 hn).trans htype
  by_cases hR : type = PREFIX_BLOB_REF
  · rw [if_pos hR] at h
    simp only [Option.bind_eq_some_iff, Option.pure_def, Option.some.injEq] at h
    obtain ⟨algo, halgo, len, hlen, rfl⟩ := h
    have := encodedLenOf_le hlen
    simp [head (by omega), hR, agree 1 (by omega), halgo, hlen]
  rw [if_neg hR] at h
  by_cases hG : type ∈ [PREFIX_MANIFEST_TAG, PREFIX_CHILD_PARENT, PREFIX_REFERRER]
  · rw [if_pos hG] at h
    simp only [Option.bind_eq_some_iff, Option.pure_def, Option.some.injEq] at h
    obtain ⟨algo, halgo, len, hlen, rfl⟩ := h
    have := encodedLenOf_le hlen
    simp only [Option.bind_eq_bind, head (by omega), Option.bind_some, if_neg hR, if_pos hG,
      agree 5 (by omega), halgo, hlen, Option.pure_def]
  rw [if_neg hG] at h
  by_cases hA : type = PREFIX_COUNTER
  · rw [if_pos hA] at h
    obtain ⟨scope, hscope, h⟩ := Option.bind_eq_some_iff.mp h
    by_cases hm : scope = SCOPE_MANIFEST
    · rw [if_pos hm] at h
      simp only [Option.bind_eq_some_iff, Option.pure_def, Option.some.injEq] at h
      obtain ⟨algo, halgo, len, hlen, rfl⟩ := h
      have := encodedLenOf_le hlen
      simp only [Option.bind_eq_bind, head (by omega), Option.bind_some, if_neg hR, if_neg hG,
        if_pos hA, agree 1 (by omega), hscope, if_pos hm, agree 6 (by omega), halgo, hlen,
        Option.pure_def]
    · rw [if_neg hm] at h
      have hn : 6 = n := by
        split at h
        · exact Option.some.inj h
        · cases h
      subst hn
      simpa only [Option.bind_eq_bind, head (by omega), Option.bind_some, if_neg hR, if_neg hG,
        if_pos hA, agree 1 (by omega), hscope, if_neg hm] using h
  · rw [if_neg hA] at h
    have hn : 5 = n := by
      split at h
      · exact Option.some.inj h
      · cases h
    subst hn
    simpa only [Option.bind_eq_bind, head (by omega), Option.bind_some, if_neg hR, if_neg hG,
      if_neg hA] using h

/-- A key in the domain is in the group its first bytes spell, and so is every
key that starts with them. -/
theorem inDomain_cases {key : Bytes} (h : summInDomain key = true) :
    summTransform key <+: key ∧
      ∀ k, summTransform key <+: k →
        summInDomain k = true ∧ summTransform k = summTransform key := by
  unfold summInDomain at h
  cases hn : summPrefixLen key with
  | none => simp [hn] at h
  | some n =>
    have len : n ≤ key.length := by simpa [hn] using h
    have group : summTransform key = key.take n := by simp [summTransform, hn, len]
    rw [group]
    refine ⟨List.take_prefix n key, ?_⟩
    rintro k ⟨rest, rfl⟩
    have same : summPrefixLen (key.take n ++ rest) = some n := by
      apply summPrefixLen_congr hn
      intro i hi
      rw [List.getElem?_append_left (by simp; omega), List.getElem?_take_of_lt hi]
    have long : n ≤ (key.take n ++ rest).length := by simp; omega
    constructor
    · simp only [summInDomain, same, long, decide_true]
    · simp only [summTransform, same, long, if_true]
      rw [List.take_append_of_le_length (by simp; omega), List.take_take, Nat.min_self]

theorem inDomain_extend {pre key : Bytes} (h : summInDomain pre = true) (hk : pre <+: key) :
    summInDomain key = true ∧ summTransform key = summTransform pre := by
  obtain ⟨hpre, hgroup⟩ := inDomain_cases h
  exact hgroup key (hpre.trans hk)

/-! ## The upper bound -/

theorem prefixSuccessor_concat (pre : Bytes) (b : Byte) :
    prefixSuccessor (pre ++ [b]) =
      if b < 255 then some (pre ++ [b + 1]) else prefixSuccessor pre := by
  simp only [prefixSuccessor, List.reverse_append, List.reverse_singleton, List.singleton_append,
    bumpLast]
  split <;> simp

/-- Above the prefix, its successor separates the keys that start with it. -/
theorem prefixSuccessor_spec (pre k : Bytes) (h : pre ≤ k) :
    (prefixSuccessor pre).all (fun bound => decide (k < bound)) = decide (pre <+: k) := by
  induction pre using List.reverseRecOn with
  | nil => simp [prefixSuccessor, bumpLast]
  | append_singleton pre b ih =>
    have hpre : pre ≤ k := le_trans (Bytes.prefix_le (List.prefix_append pre [b])) h
    rw [prefixSuccessor_concat]
    by_cases hb : b < 255
    · rw [if_pos hb, Option.all_some, decide_eq_decide]
      have next : (b + 1).val = b.val + 1 := by
        apply Fin.val_add_one_of_lt'
        rw [Fin.lt_def] at hb
        exact Nat.succ_lt_succ hb
      have above : b < b + 1 := by
        rw [Fin.lt_def, next]
        omega
      constructor
      · intro hk
        obtain ⟨k', rfl⟩ := Bytes.startsWith_convex (List.prefix_append pre [b])
          (List.prefix_append pre [b + 1]) h (le_of_lt hk)
        rw [Bytes.append_lt_append_left] at hk
        rw [Bytes.append_le_append_left] at h
        apply (List.prefix_append_right_inj pre).mpr
        cases k' with
        | nil => exact absurd h (not_le.mpr (List.nil_lt_cons _ _))
        | cons c k' =>
          rw [Bytes.cons_le_cons] at h
          rw [List.cons_lt_cons_iff] at hk
          rcases h with h | ⟨rfl, -⟩
          · rcases hk with hk | ⟨-, hk⟩
            · rw [Fin.lt_def, next] at hk
              rw [Fin.lt_def] at h
              omega
            · exact absurd hk (List.not_lt_nil k')
          · exact ⟨k', rfl⟩
      · rintro ⟨k', rfl⟩
        rw [List.append_assoc, Bytes.append_lt_append_left, List.singleton_append,
          List.cons_lt_cons_iff]
        exact Or.inl above
    · rw [if_neg hb, ih hpre, decide_eq_decide]
      constructor
      · rintro ⟨k', rfl⟩
        apply (List.prefix_append_right_inj pre).mpr
        rw [Bytes.append_le_append_left] at h
        cases k' with
        | nil => exact absurd h (not_le.mpr (List.nil_lt_cons _ _))
        | cons c k' =>
          rw [Bytes.cons_le_cons] at h
          rcases h with h | ⟨rfl, -⟩
          · rw [Fin.lt_def] at h hb
            have := c.isLt
            omega
          · exact ⟨k', rfl⟩
      · exact (List.prefix_append pre [b]).trans

/-- Every byte carries. -/
theorem prefixSuccessor_eq_none {pre : Bytes} : prefixSuccessor pre = none ↔ ∀ b ∈ pre, b = 255 := by
  induction pre using List.reverseRecOn with
  | nil => exact iff_of_true rfl nofun
  | append_singleton pre b ih =>
    have top : ¬b < 255 ↔ b = 255 := by
      rw [Fin.lt_def, Fin.ext_iff]
      have bound := b.isLt
      have last : (255 : Byte).val = 255 := rfl
      omega
    rw [prefixSuccessor_concat, List.forall_mem_append, List.forall_mem_singleton, ← ih, ← top]
    split
    · rename_i below
      exact iff_of_false (by simp) fun h => h.2 below
    · rename_i full
      exact ⟨fun none => ⟨none, full⟩, fun h => h.1⟩

/-- The keys that start with a prefix are an interval that ends before its
successor, or at the end of the keyspace where every byte carries. -/
theorem prefixSuccessor_exact (pre key : Bytes) :
    (∀ bound, prefixSuccessor pre = some bound → (pre <+: key ↔ pre ≤ key ∧ key < bound)) ∧
    (prefixSuccessor pre = none ↔ pre = [] ∨ ∀ b ∈ pre, b = 255) ∧
    (prefixSuccessor pre = none → (pre <+: key ↔ pre ≤ key)) := by
  have above (h : pre ≤ key) := prefixSuccessor_spec pre key h
  refine ⟨fun bound some_ => ?_, ?_, fun none_ => ⟨Bytes.prefix_le, fun h => ?_⟩⟩
  · rw [some_] at above
    constructor
    · intro starts
      have le := Bytes.prefix_le starts
      have below := above le
      rw [Option.all_some, decide_eq_true starts, decide_eq_true_eq] at below
      exact ⟨le, below⟩
    · rintro ⟨le, below⟩
      have starts := above le
      rw [Option.all_some, decide_eq_true below] at starts
      exact of_decide_eq_true starts.symm
  · rw [prefixSuccessor_eq_none]
    constructor
    · exact Or.inr
    · rintro (rfl | full)
      · exact nofun
      · exact full
  · have starts := above h
    rw [none_, Option.all_none] at starts
    exact of_decide_eq_true starts.symm

theorem inDeleteRange_eq (pre key : Bytes) : inDeleteRange pre key = decide (pre <+: key) := by
  unfold inDeleteRange
  by_cases h : pre ≤ key
  · have spec := prefixSuccessor_spec pre key h
    cases hs : prefixSuccessor pre with
    | none => rfl
    | some bound => simpa [hs, h] using spec
  · have not : ¬ pre <+: key := fun hp => h (Bytes.prefix_le hp)
    cases hs : prefixSuccessor pre <;> simp [h, not]

/-! ## The walk -/

section
variable {κ V : Type*} {bytes : κ → Bytes}

/-- The keys under a prefix after a cursor. -/
def after (bytes : κ → Bytes) (entries : List (κ × V)) (pre : Bytes) (startAfter : Option κ) :
    List (κ × V) :=
  entries.filter fun e =>
    decide (pre <+: bytes e.1) && startAfter.all fun c => decide (bytes c < bytes e.1)

/-- Whether an iterator that sought the cursor passes on to the key: a cursor
in the extractor's domain confines it to the cursor's group. -/
def sees (bytes : κ → Bytes) (startAfter : Option κ) (key : κ) : Bool :=
  startAfter.all fun c =>
    !summInDomain (bytes c) ||
      (summInDomain (bytes key) && decide (summTransform (bytes key) = summTransform (bytes c)))

/-- A cursor sees what the keys it sees see. -/
theorem sees_trans {c : Option κ} {x y : κ} (hx : sees bytes c x = true)
    (hy : sees bytes (some x) y = true) : sees bytes c y = true := by
  cases c with
  | none => rfl
  | some c =>
    simp only [sees, Option.all_some, Bool.or_eq_true, Bool.not_eq_true', Bool.and_eq_true,
      decide_eq_true_eq] at hx hy ⊢
    rcases hx with hx | ⟨hin, hsame⟩
    · exact Or.inl hx
    · rcases hy with hy | ⟨hin', hsame'⟩
      · rw [hin] at hy
        cases hy
      · exact Or.inr ⟨hin', hsame'.trans hsame⟩

theorem takeWhile_sees_none (l : List (κ × V)) :
    (l.takeWhile fun e => sees bytes none e.1) = l :=
  List.takeWhile_eq_self_iff.mpr (fun _ _ => rfl)

theorem walk_eq (pre : Bytes) (startAfter : Option κ) (limit : Nat) (it : List (κ × V))
    (taken : Nat) (h : taken ≤ limit) (starts : ∀ e ∈ it, pre <+: bytes e.1) :
    walk bytes pre startAfter limit it taken =
      (((it.filter fun e => decide (startAfter.map bytes ≠ some (bytes e.1))).take
          (limit - taken)),
        decide (limit - taken <
          (it.filter fun e => decide (startAfter.map bytes ≠ some (bytes e.1))).length)) := by
  induction it generalizing taken with
  | nil => simp [walk]
  | cons e it ih =>
    have startsHead : pre <+: bytes e.1 := starts e List.mem_cons_self
    have startsTail : ∀ e ∈ it, pre <+: bytes e.1 := fun e he => starts e (List.mem_cons_of_mem _ he)
    rw [walk]
    by_cases hcursor : startAfter.map bytes = some (bytes e.1)
    · rw [if_pos hcursor, List.filter_cons_of_neg (by simp [hcursor]), ih taken h startsTail]
    · rw [if_neg hcursor, if_neg (not_not.mpr startsHead),
        List.filter_cons_of_pos (by simp [hcursor])]
      by_cases hfull : taken = limit
      · simp [hfull]
      · rw [if_neg hfull, ih (taken + 1) (by omega) startsTail]
        have step : limit - taken = limit - (taken + 1) + 1 := by omega
        simp only [step, List.take_succ_cons, List.length_cons, Nat.add_lt_add_iff_right]

/-- What a walk emits was there, under the prefix. -/
theorem mem_walk {pre : Bytes} {startAfter : Option κ} {limit taken : Nat} {it : List (κ × V)}
    {e : κ × V} (h : e ∈ (walk bytes pre startAfter limit it taken).1) :
    e ∈ it ∧ pre <+: bytes e.1 := by
  induction it generalizing taken with
  | nil => cases h
  | cons x it ih =>
    rw [walk] at h
    split at h
    · exact (ih h).imp_left (List.mem_cons_of_mem _)
    · split at h
      · cases h
      · rename_i hpre
        split at h
        · cases h
        · rcases List.mem_cons.mp h with rfl | h
          · exact ⟨List.mem_cons_self, not_not.mp hpre⟩
          · exact (ih h).imp_left (List.mem_cons_of_mem _)

/-- A scan returns stored bindings under its prefix, whatever its cursor. -/
theorem mem_scan {entries : List (κ × V)} {pre : Bytes} {startAfter : Option κ} {limit : Nat}
    {e : κ × V} (h : e ∈ (scan bytes entries pre startAfter limit).entries) :
    e ∈ entries ∧ pre <+: bytes e.1 := by
  unfold scan at h
  split at h
  · cases h
  · obtain ⟨mem, hpre⟩ := mem_walk h
    refine ⟨?_, hpre⟩
    have dropped := (List.takeWhile_sublist _).subset ((List.takeWhile_sublist _).subset mem)
    exact (List.dropWhile_sublist _).subset dropped

end

/-- The group test of an iterator that sought `target`, on a key. -/
def inGroup (pre target key : Bytes) : Bool :=
  !((prefixReadOpts pre).prefixSameAsStart && summInDomain target) ||
    (summInDomain key && decide (summTransform key = summTransform target))

/-- From the target on, the keys of its group come first. -/
theorem inGroup_downward {pre target a b : Bytes} (hta : target ≤ a) (hab : a ≤ b)
    (hb : inGroup pre target b = true) : inGroup pre target a = true := by
  unfold inGroup at hb ⊢
  cases hdom : (prefixReadOpts pre).prefixSameAsStart && summInDomain target with
  | false => rfl
  | true =>
    simp only [hdom, Bool.not_true, Bool.false_or, Bool.and_eq_true, decide_eq_true_eq] at hb ⊢
    obtain ⟨ht, hgroup⟩ := inDomain_cases ((Bool.and_eq_true _ _).mp hdom).2
    apply hgroup
    apply Bytes.startsWith_convex ht _ hta hab
    rw [← hb.2]
    exact (inDomain_cases hb.1).1

section
variable {κ V : Type*} {bytes : κ → Bytes}

theorem rawIterator_eq {entries : List (κ × V)}
    (sorted : entries.Pairwise fun a b => bytes a.1 < bytes b.1) (pre target : Bytes) :
    rawIterator bytes entries (prefixReadOpts pre) target =
      entries.filter fun e =>
        inGroup pre target (bytes e.1) &&
          ((prefixSuccessor pre).all (fun bound => decide (bytes e.1 < bound)) &&
            decide (target ≤ bytes e.1)) := by
  have from_ : (entries.dropWhile fun e => decide (bytes e.1 < target)) =
      entries.filter fun e => decide (target ≤ bytes e.1) := by
    rw [OrderedMap.dropWhile_eq_filter]
    · simp only [← decide_not, not_lt]
    · refine sorted.imp ?_
      intro a b hab hb
      simp only [decide_eq_true_eq] at hb ⊢
      exact lt_trans hab hb
  have bounded : ((entries.filter fun e => decide (target ≤ bytes e.1)).takeWhile fun e =>
      (prefixSuccessor pre).all fun bound => decide (bytes e.1 < bound)) =
      entries.filter fun e =>
        (prefixSuccessor pre).all (fun bound => decide (bytes e.1 < bound)) &&
          decide (target ≤ bytes e.1) := by
    rw [OrderedMap.takeWhile_eq_filter, List.filter_filter]
    refine (sorted.filter _).imp ?_
    intro a b hab hb
    cases hs : prefixSuccessor pre with
    | none => rfl
    | some bound =>
      simp only [hs, Option.all_some, decide_eq_true_eq] at hb ⊢
      exact lt_trans hab hb
  have grouped := OrderedMap.takeWhile_eq_filter (p := fun e : κ × V =>
      inGroup pre target (bytes e.1)) (l := entries.filter fun e =>
        (prefixSuccessor pre).all (fun bound => decide (bytes e.1 < bound)) &&
          decide (target ≤ bytes e.1)) (by
    refine (List.Pairwise.and_mem.mp (sorted.filter _)).imp ?_
    rintro a b ⟨ha, -, hab⟩ hb
    have hta : target ≤ bytes a.1 :=
      of_decide_eq_true ((Bool.and_eq_true _ _).mp (List.mem_filter.mp ha).2).2
    exact inGroup_downward hta (le_of_lt hab) hb)
  rw [List.filter_filter] at grouped
  rw [← grouped, ← bounded, ← from_]
  rfl

/-- On bindings in byte order, what the iterator yields is what the cursor sees
of the keys after it, the cursor's own key apart. -/
theorem seek_eq {entries : List (κ × V)}
    (sorted : entries.Pairwise fun a b => bytes a.1 < bytes b.1) {pre : Bytes} (hpre : pre ≠ [])
    {startAfter : Option κ} (under : ∀ c ∈ startAfter, pre <+: bytes c) :
    (seek bytes entries pre startAfter (prefixReadOpts pre)).filter
        (fun e => decide (startAfter.map bytes ≠ some (bytes e.1))) =
      (after bytes entries pre startAfter).takeWhile fun e => sees bytes startAfter e.1 := by
  have confined : (prefixReadOpts pre).prefixSameAsStart = true := by
    simp [prefixReadOpts, hpre]
  rw [seek, rawIterator_eq sorted, List.filter_filter]
  cases startAfter with
  | none =>
    rw [takeWhile_sees_none, after]
    apply List.filter_congr
    intro e _
    by_cases hle : pre ≤ bytes e.1
    · rw [prefixSuccessor_spec pre _ hle]
      by_cases hp : pre <+: bytes e.1
      · have group : inGroup pre pre (bytes e.1) = true := by
          unfold inGroup
          cases hdom : summInDomain pre with
          | false => simp
          | true =>
            obtain ⟨hin, hsame⟩ := inDomain_extend hdom hp
            simp [hin, hsame]
        simp [group, hp, hle]
      · simp [hp]
    · have hp : ¬ pre <+: bytes e.1 := fun h => hle (Bytes.prefix_le h)
      simp [hle, hp]
  | some c =>
    have hc : pre <+: bytes c := under c rfl
    have seesEq : ∀ key : κ, sees bytes (some c) key = inGroup pre (bytes c) (bytes key) := by
      intro key
      simp only [sees, Option.all_some, inGroup, confined, Bool.true_and]
    rw [OrderedMap.takeWhile_eq_filter, after, List.filter_filter]
    · apply List.filter_congr
      intro e _
      simp only [Option.map_some, Option.getD_some, Option.all_some, seesEq]
      by_cases hlt : bytes c < bytes e.1
      · have hle : pre ≤ bytes e.1 := le_trans (Bytes.prefix_le hc) (le_of_lt hlt)
        rw [prefixSuccessor_spec pre _ hle]
        simp [hlt, le_of_lt hlt, ne_of_lt hlt]
      · by_cases heq : bytes c = bytes e.1
        · simp [heq]
        · have hle : ¬ bytes c ≤ bytes e.1 := fun h => hlt (lt_of_le_of_ne h heq)
          simp [hlt, hle]
    · refine (List.Pairwise.and_mem.mp (sorted.filter _)).imp ?_
      rintro a b ⟨ha, -, hab⟩ hb
      have hca : bytes c < bytes a.1 := of_decide_eq_true (by
        simpa only [Option.all_some] using ((Bool.and_eq_true _ _).mp (List.mem_filter.mp ha).2).2)
      rw [seesEq] at hb ⊢
      exact inGroup_downward (le_of_lt hca) (le_of_lt hab) hb

theorem seek_startsWith {entries : List (κ × V)}
    (sorted : entries.Pairwise fun a b => bytes a.1 < bytes b.1) {pre : Bytes}
    {startAfter : Option κ} (under : ∀ c ∈ startAfter, pre <+: bytes c) :
    ∀ e ∈ seek bytes entries pre startAfter (prefixReadOpts pre), pre <+: bytes e.1 := by
  intro e he
  rw [seek, rawIterator_eq sorted, List.mem_filter] at he
  simp only [Bool.and_eq_true, decide_eq_true_eq] at he
  obtain ⟨-, -, hbound, htarget⟩ := he
  have hle : pre ≤ bytes e.1 := by
    cases startAfter with
    | none => exact htarget
    | some c => exact le_trans (Bytes.prefix_le (under c rfl)) htarget
  rw [prefixSuccessor_spec pre _ hle] at hbound
  exact of_decide_eq_true hbound

/-- A page is cut from what its cursor sees of the keys after it. -/
theorem scan_eq {entries : List (κ × V)}
    (sorted : entries.Pairwise fun a b => bytes a.1 < bytes b.1) {pre : Bytes} (hpre : pre ≠ [])
    {startAfter : Option κ} (under : ∀ c ∈ startAfter, pre <+: bytes c) {limit : Nat}
    (pos : 0 < limit) :
    scan bytes entries pre startAfter limit =
      Page.cut limit
        ((after bytes entries pre startAfter).takeWhile fun e => sees bytes startAfter e.1) := by
  rw [scan, if_neg (by omega)]
  simp only [walk_eq pre startAfter limit _ 0 (by omega) (seek_startsWith sorted under),
    seek_eq sorted hpre under, Nat.sub_zero, decide_eq_true_eq]
  rfl

/-- A scan reads of the keys nothing but their bytes. -/
theorem scan_map {κ' : Type*} {bytes' : κ' → Bytes} {f : κ → κ'} (h : ∀ k, bytes' (f k) = bytes k)
    {c : Option κ} {c' : Option κ'} (hc : c'.map bytes' = c.map bytes) (entries : List (κ × V))
    (pre : Bytes) (limit : Nat) :
    scan bytes' (entries.map fun e => (f e.1, e.2)) pre c' limit =
      { entries := (scan bytes entries pre c limit).entries.map fun e => (f e.1, e.2)
        next := (scan bytes entries pre c limit).next.map f } := by
  have walked (it : List (κ × V)) (taken : Nat) :
      walk bytes' pre c' limit (it.map fun e => (f e.1, e.2)) taken =
        ((walk bytes pre c limit it taken).1.map fun e => (f e.1, e.2),
          (walk bytes pre c limit it taken).2) := by
    induction it generalizing taken with
    | nil => rfl
    | cons e it ih =>
      simp only [List.map_cons, walk, h, hc]
      split
      · exact ih taken
      · split
        · rfl
        · split
          · rfl
          · rw [ih (taken + 1)]
            rfl
  have sought : seek bytes' (entries.map fun e => (f e.1, e.2)) pre c' (prefixReadOpts pre) =
      (seek bytes entries pre c (prefixReadOpts pre)).map fun e => (f e.1, e.2) := by
    simp only [seek, hc, rawIterator, List.dropWhile_map, List.takeWhile_map, Function.comp_def, h]
  unfold scan
  split
  · rfl
  · simp only [sought, walked, Page.mk.injEq, true_and]
    split
    · rw [List.getLast?_map, Option.map_map, Option.map_map]
      rfl
    · rfl

/-- One seek answers whether any key starts with the prefix. -/
theorem existsPrefix_iff {entries : List (κ × V)}
    (sorted : entries.Pairwise fun a b => bytes a.1 < bytes b.1) {pre : Bytes} (hpre : pre ≠ []) :
    existsPrefix bytes entries pre = true ↔ ∃ e ∈ entries, pre <+: bytes e.1 := by
  have under : ∀ c ∈ (none : Option κ), pre <+: bytes c := by simp
  have found := seek_eq sorted hpre under
  rw [takeWhile_sees_none, List.filter_eq_self.mpr (by simp)] at found
  have yields : seek bytes entries pre none (prefixReadOpts pre) =
      entries.filter fun e => decide (pre <+: bytes e.1) := by
    simpa only [after, Option.all_none, Bool.and_true] using found
  unfold existsPrefix
  rw [yields]
  cases hf : entries.filter fun e => decide (pre <+: bytes e.1) with
  | nil =>
    rw [List.filter_eq_nil_iff] at hf
    simpa using hf
  | cons e it =>
    have he : e ∈ entries.filter fun e => decide (pre <+: bytes e.1) := by simp [hf]
    rw [List.mem_filter] at he
    simp only [he.2, true_iff]
    exact ⟨e, he.1, of_decide_eq_true he.2⟩

end

end Summ.Rocks
