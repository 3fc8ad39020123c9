import Summ.Lib.Bytes

/-!
# The stream of a blob

A window of an open file, resolved against its size and read a chunk at a time,
one read ahead of the chunk that is handed out. However the stream is polled,
its chunks are those of the window (`BlobStream.serves`).
-/

namespace Summ

def saturatingSub (a b : UInt64) : UInt64 := if a < b then 0 else a - b

/-- `u64::min`. -/
def minU64 (a b : UInt64) : UInt64 := if b < a then b else a

theorem toNat_sub_one {len : UInt64} (h : len ≠ 0) : (len - 1).toNat = len.toNat - 1 := by
  have pos : 0 < len.toNat := Nat.pos_of_ne_zero fun zero => h (UInt64.toNat_inj.mp zero)
  exact UInt64.toNat_sub_of_le _ _ (UInt64.le_iff_toNat_le.mpr pos)

theorem toNat_saturatingSub (a b : UInt64) : (saturatingSub a b).toNat = a.toNat - b.toNat := by
  rw [saturatingSub]
  split
  · rename_i lt
    have := UInt64.lt_iff_toNat_lt.mp lt
    rw [UInt64.toNat_zero]
    omega
  · rename_i le
    exact UInt64.toNat_sub_of_le _ _ (UInt64.not_lt.mp le)

theorem toNat_minU64 (a b : UInt64) : (minU64 a b).toNat = min a.toNat b.toNat := by
  rw [minU64]
  split
  · rename_i lt
    have := UInt64.lt_iff_toNat_lt.mp lt
    omega
  · rename_i le
    have := UInt64.le_iff_toNat_le.mp (UInt64.not_lt.mp le)
    omega

namespace Storage

/-- A `Range` header value, parsed but not yet resolved against a size. -/
inductive ByteRange
  | inclusive (start end_ : UInt64)
  | from_ (start : UInt64)
  | suffix (len : UInt64)

structure ResolvedRange where
  start : UInt64
  end_ : UInt64
  deriving DecidableEq

def ByteRange.resolve (size : UInt64) : ByteRange → Option ResolvedRange
  | inclusive start end_ =>
    if end_ < start || size ≤ start then none else some { start, end_ := minU64 end_ (size - 1) }
  | from_ start => if size ≤ start then none else some { start, end_ := size - 1 }
  | suffix len =>
    if len = 0 || size = 0 then none
    else some { start := saturatingSub size len, end_ := size - 1 }

/-- `read_exact_at`: a short read is an error. -/
def readExactAt (file : Bytes) (offset len : Nat) : Except Unit Bytes :=
  if offset + len ≤ file.length then .ok ((file.drop offset).take len) else .error ()

/-- A blob body. A read in flight is kept with what it will produce. -/
structure BlobStream where
  file : Bytes
  nextOffset : Nat
  endOffset : Nat
  chunkSize : Nat
  inflight : Option (Except Unit Bytes × Nat)

inductive Poll
  | pending
  | ready (item : Option (Except Unit Bytes))

namespace BlobStream

def spawnNext (s : BlobStream) : BlobStream :=
  let remaining := s.endOffset - s.nextOffset
  if remaining = 0 then s
  else
    let len := min remaining s.chunkSize
    { s with
      nextOffset := s.nextOffset + len
      inflight := some (readExactAt s.file s.nextOffset len, len) }

/-- `poll_next`, told whether the read in flight has come back. -/
def pollNext (s : BlobStream) (ready : Bool) : Poll × BlobStream :=
  let s := if s.inflight.isNone then s.spawnNext else s
  match s.inflight with
  | none => (.ready none, s)
  | some (read, _) =>
    if !ready then (.pending, s)
    else
      let s := { s with inflight := none }
      match read with
      | .error e => (.ready (some (.error e)), { s with nextOffset := s.endOffset })
      | .ok chunk => (.ready (some (.ok chunk)), s.spawnNext)

/-- What polling again and again yields. -/
def collect (s : BlobStream) : List Bool → List (Option (Except Unit Bytes))
  | [] => []
  | ready :: polls =>
    match s.pollNext ready with
    | (.pending, s) => s.collect polls
    | (.ready item, s) => item :: s.collect polls

end BlobStream

/-- An open blob. -/
structure Blob where
  file : Bytes
  size : UInt64
  chunkSize : Nat

namespace Blob

def resolve (b : Blob) (range : ByteRange) : Option ResolvedRange := range.resolve b.size

def streamFrom (b : Blob) (offset len : Nat) : BlobStream where
  file := b.file
  nextOffset := offset
  endOffset := offset + len
  chunkSize := b.chunkSize
  inflight := none

def streamRange (b : Blob) (range : ResolvedRange) : BlobStream :=
  let start := minU64 range.start b.size
  let end_ := minU64 range.end_ (saturatingSub b.size 1)
  let len := if b.size = 0 || end_ < start then 0 else end_ - start + 1
  b.streamFrom start.toNat len.toNat

end Blob

/-! ## What is streamed -/

/-- The answers are the chunks, in order, and then the end. -/
inductive Yields : List Bytes → List (Option (Except Unit Bytes)) → Prop
  | sofar (chunks : List Bytes) : Yields chunks []
  | ended {items} : Yields [] items → Yields [] (none :: items)
  | chunk {c : Bytes} {chunks items} :
      Yields chunks items → Yields (c :: chunks) (some (.ok c) :: items)

namespace BlobStream

/-- Every poll is answered from these chunks, those that find their read back at once. -/
def Delivers (s : BlobStream) (chunks : List Bytes) : Prop :=
  ∀ polls, Yields chunks (s.collect polls) ∧ polls.count true ≤ (s.collect polls).length

/-- However it is polled, the stream answers with a slice, a chunk at a time;
a read that has come back is answered at once. -/
def Serves (s : BlobStream) (slice : Bytes) : Prop :=
  ∃ chunks : List Bytes, chunks.flatten = slice ∧
    (∀ c ∈ chunks, c ≠ [] ∧ c.length ≤ s.chunkSize) ∧ s.Delivers chunks

/-- What no read has been issued for. -/
def unread (s : BlobStream) : Bytes := (s.file.drop s.nextOffset).take (s.endOffset - s.nextOffset)

/-- What is still to come, with the read in flight a chunk of it. -/
structure Serving (s : BlobStream) (rest : Bytes) : Prop where
  next_le : s.nextOffset ≤ s.endOffset
  end_le : s.endOffset ≤ s.file.length
  idle : s.inflight = none → s.unread = rest
  reading : ∀ read ∈ s.inflight, read.1 = .ok (rest.take s.chunkSize) ∧ rest ≠ [] ∧
    s.unread = rest.drop s.chunkSize

theorem unread_length {s : BlobStream} {rest : Bytes} (h : s.Serving rest) :
    s.unread.length = s.endOffset - s.nextOffset := by
  have next := h.next_le
  have stop := h.end_le
  rw [unread, List.length_take, List.length_drop]
  omega

theorem Serving.spawned {s : BlobStream} {rest : Bytes} (h : s.Serving rest)
    (idle : s.inflight = none) :
    s.spawnNext.Serving rest ∧ s.spawnNext.chunkSize = s.chunkSize ∧
      (s.spawnNext.inflight = none ↔ rest = []) := by
  have length := unread_length h
  have next := h.next_le
  have stop := h.end_le
  have same := h.idle idle
  rw [same] at length
  rw [spawnNext]
  dsimp only
  split
  · rename_i drained
    rw [drained, List.length_eq_zero_iff] at length
    exact ⟨h, rfl, fun _ => length, fun _ => idle⟩
  · rename_i remaining
    have left : rest ≠ [] := fun none => by rw [none, List.length_nil] at length; omega
    have bounded : s.nextOffset + min (s.endOffset - s.nextOffset) s.chunkSize ≤ s.file.length := by
      omega
    have issued : (s.file.drop s.nextOffset).take (min (s.endOffset - s.nextOffset) s.chunkSize) =
        rest.take s.chunkSize := by
      rw [← same, unread, List.take_take, Nat.min_comm]
    have beyond : (s.file.drop (s.nextOffset + min (s.endOffset - s.nextOffset) s.chunkSize)).take
        (s.endOffset - (s.nextOffset + min (s.endOffset - s.nextOffset) s.chunkSize)) =
        rest.drop s.chunkSize := by
      rw [← same, unread, List.drop_take, List.drop_drop]
      rcases Nat.le_total s.chunkSize (s.endOffset - s.nextOffset) with le | le
      · rw [Nat.min_eq_right le, Nat.sub_sub]
      · rw [Nat.min_eq_left le, show s.endOffset -
          (s.nextOffset + (s.endOffset - s.nextOffset)) = 0 by omega,
          show s.endOffset - s.nextOffset - s.chunkSize = 0 by omega, List.take_zero, List.take_zero]
    refine ⟨⟨by dsimp only; omega, stop, nofun, ?_⟩, rfl, nofun, fun none => absurd none left⟩
    intro read hread
    cases hread
    refine ⟨?_, left, beyond⟩
    rw [readExactAt, if_pos bounded, issued]

theorem Serving.spawned_of_drop {s : BlobStream} {rest : Bytes} (h : s.Serving rest)
    {read : Except Unit Bytes × Nat} (hread : s.inflight = some read) :
    ({ s with inflight := none } : BlobStream).Serving (rest.drop s.chunkSize) :=
  ⟨h.next_le, h.end_le, fun _ => (h.reading read hread).2.2, nofun⟩

/-- A poll yields the next chunk of what is to come, or nothing yet. -/
theorem Serving.polled {s : BlobStream} {rest : Bytes} (h : s.Serving rest) (ready : Bool) :
    (s.pollNext ready).2.chunkSize = s.chunkSize ∧
    if rest = [] then (s.pollNext ready).1 = .ready none ∧ (s.pollNext ready).2.Serving []
    else if ready then
      (s.pollNext ready).1 = .ready (some (.ok (rest.take s.chunkSize))) ∧
        (s.pollNext ready).2.Serving (rest.drop s.chunkSize)
    else (s.pollNext ready).1 = .pending ∧ (s.pollNext ready).2.Serving rest := by
  -- the read in flight is issued first, if none is
  obtain ⟨started, hs, serving, same, pending⟩ : ∃ t : BlobStream,
      (if s.inflight.isNone then s.spawnNext else s) = t ∧ t.Serving rest ∧
        t.chunkSize = s.chunkSize ∧ (t.inflight = none ↔ rest = []) := by
    cases idle : s.inflight with
    | none =>
      obtain ⟨serving, same, pending⟩ := h.spawned idle
      exact ⟨s.spawnNext, rfl, serving, same, pending⟩
    | some read =>
      have left := (h.reading read idle).2.1
      exact ⟨s, rfl, h, rfl, by rw [idle]; exact ⟨nofun, fun none => absurd none left⟩⟩
  rw [pollNext]
  dsimp only
  rw [hs]
  cases hread : started.inflight with
  | none =>
    have drained := pending.mp hread
    subst drained
    exact ⟨same, by rw [if_pos rfl]; exact ⟨rfl, serving⟩⟩
  | some read =>
    have left : rest ≠ [] := fun none => by rw [pending.mpr none] at hread; cases hread
    obtain ⟨produced, -, -⟩ := serving.reading read hread
    obtain ⟨result, len⟩ := read
    dsimp only at produced
    subst produced
    rw [if_neg left]
    cases ready with
    | false => exact ⟨same, rfl, serving⟩
    | true =>
      have onward := serving.spawned_of_drop hread
      obtain ⟨serving', same', -⟩ := onward.spawned rfl
      refine ⟨same'.trans same, ?_, ?_⟩
      · rw [← same]; rfl
      · rw [← same]; exact serving'

theorem collect_pending {s : BlobStream} {ready : Bool} (h : (s.pollNext ready).1 = .pending)
    (polls : List Bool) : s.collect (ready :: polls) = (s.pollNext ready).2.collect polls := by
  have answer : s.pollNext ready = (.pending, (s.pollNext ready).2) := Prod.ext h rfl
  rw [collect, answer]

theorem collect_ready {s : BlobStream} {ready : Bool} {item : Option (Except Unit Bytes)}
    (h : (s.pollNext ready).1 = .ready item) (polls : List Bool) :
    s.collect (ready :: polls) = item :: (s.pollNext ready).2.collect polls := by
  have answer : s.pollNext ready = (.ready item, (s.pollNext ready).2) := Prod.ext h rfl
  rw [collect, answer]

theorem count_cons_le (ready : Bool) (polls : List Bool) {n : Nat} (h : polls.count true ≤ n) :
    (ready :: polls).count true ≤ n + 1 := by
  cases ready with
  | false => rw [List.count_cons_of_ne (by decide)]; omega
  | true => rw [List.count_cons_self]; omega

theorem Serving.drained {s : BlobStream} (h : s.Serving []) : s.Delivers [] := by
  intro polls
  induction polls generalizing s with
  | nil => exact ⟨.sofar [], Nat.le_refl 0⟩
  | cons ready polls ih =>
    obtain ⟨-, answer⟩ := h.polled ready
    rw [if_pos rfl] at answer
    obtain ⟨yields, counted⟩ := ih answer.2
    rw [collect_ready answer.1, List.length_cons]
    exact ⟨.ended yields, count_cons_le ready polls counted⟩

/-- The next chunk, and then what the chunks after it were. -/
theorem Serving.headed {s : BlobStream} {rest : Bytes} {chunks : List Bytes} (h : s.Serving rest)
    (left : rest ≠ [])
    (onward : ∀ t : BlobStream, t.chunkSize = s.chunkSize → t.Serving (rest.drop s.chunkSize) →
      t.Delivers chunks) :
    s.Delivers (rest.take s.chunkSize :: chunks) := by
  intro polls
  induction polls generalizing s with
  | nil => exact ⟨.sofar _, Nat.le_refl 0⟩
  | cons ready polls ih =>
    obtain ⟨same, answer⟩ := h.polled ready
    rw [if_neg left] at answer
    cases ready with
    | false =>
      rw [if_neg (by decide)] at answer
      have again := ih answer.2 (by rw [same]; exact onward)
      rw [same] at again
      rw [collect_pending answer.1, List.count_cons_of_ne (by decide)]
      exact again
    | true =>
      rw [if_pos rfl] at answer
      obtain ⟨yields, counted⟩ := onward _ same answer.2 polls
      rw [collect_ready answer.1, List.length_cons]
      exact ⟨.chunk yields, count_cons_le true polls counted⟩

/-- The chunks depend on what is to come and on the chunk size alone. -/
theorem Serving.delivers {chunkSize : Nat} (positive : 1 ≤ chunkSize) (rest : Bytes) :
    ∃ chunks : List Bytes, chunks.flatten = rest ∧
      (∀ c ∈ chunks, c ≠ [] ∧ c.length ≤ chunkSize) ∧
      ∀ s : BlobStream, s.chunkSize = chunkSize → s.Serving rest → s.Delivers chunks := by
  induction hn : rest.length using Nat.strong_induction_on generalizing rest with
  | _ n ih =>
    by_cases left : rest = []
    · subst left
      exact ⟨[], rfl, fun c hc => (by cases hc), fun s _ h => h.drained⟩
    · have pos := List.length_pos_iff.mpr left
      obtain ⟨chunks, joined, bounded, served⟩ := ih (rest.drop chunkSize).length
        (by rw [List.length_drop]; omega) (rest.drop chunkSize) rfl
      have head : rest.take chunkSize ≠ [] := by
        rw [ne_eq, List.take_eq_nil_iff, not_or]
        exact ⟨by omega, left⟩
      refine ⟨rest.take chunkSize :: chunks, ?_, ?_, fun s size h => ?_⟩
      · rw [List.flatten_cons, joined, List.take_append_drop]
      · intro c hc
        rcases List.mem_cons.mp hc with rfl | hc
        · exact ⟨head, List.length_take_le _ _⟩
        · exact bounded c hc
      · subst size
        exact h.headed left served

theorem serves {s : BlobStream} {slice : Bytes} (h : s.Serving slice) (positive : 1 ≤ s.chunkSize) :
    s.Serves slice := by
  obtain ⟨chunks, joined, bounded, served⟩ := Serving.delivers positive slice
  exact ⟨chunks, joined, bounded, served s rfl h⟩

end BlobStream

theorem resolve_inside {start end_ size : UInt64} (ordered : start ≤ end_) (inside : end_ < size) :
    (ByteRange.inclusive start end_).resolve size = some { start, end_ } := by
  have lt := UInt64.lt_iff_toNat_lt.mp inside
  have le := UInt64.le_iff_toNat_le.mp ordered
  have pos : size ≠ 0 := fun zero => by subst zero; rw [UInt64.toNat_zero] at lt; omega
  have capped : minU64 end_ (size - 1) = end_ := by
    rw [← UInt64.toNat_inj, toNat_minU64, toNat_sub_one pos]
    omega
  have within : ¬(end_ < start || size ≤ start) = true := by
    simp only [Bool.or_eq_true, decide_eq_true_eq, UInt64.lt_iff_toNat_lt, UInt64.le_iff_toNat_le]
    omega
  rw [ByteRange.resolve, if_neg within, capped]

/-- A window inside the file is streamed from its first byte to its last. -/
theorem Blob.streamRange_serves {b : Blob} {start end_ : UInt64}
    (whole : b.file.length = b.size.toNat) (ordered : start ≤ end_) (inside : end_ < b.size)
    (positive : 1 ≤ b.chunkSize) :
    (b.streamRange { start, end_ }).Serves
      ((b.file.drop start.toNat).take (end_.toNat - start.toNat + 1)) := by
  have lt := UInt64.lt_iff_toNat_lt.mp inside
  have le := UInt64.le_iff_toNat_le.mp ordered
  have pos : b.size ≠ 0 := fun zero => by rw [zero, UInt64.toNat_zero] at lt; omega
  have bound := b.size.toNat_lt
  have one : (1 : UInt64).toNat = 1 := rfl
  have first : minU64 start b.size = start := by
    rw [← UInt64.toNat_inj, toNat_minU64]
    omega
  have last : minU64 end_ (saturatingSub b.size 1) = end_ := by
    rw [← UInt64.toNat_inj, toNat_minU64, toNat_saturatingSub]
    omega
  have open_ : ¬(b.size = 0 || end_ < start) = true := by
    simp only [Bool.or_eq_true, decide_eq_true_eq, UInt64.lt_iff_toNat_lt]
    rintro (zero | lt)
    · exact pos zero
    · omega
  have length : (end_ - start + 1).toNat = end_.toNat - start.toNat + 1 := by
    rw [UInt64.toNat_add, UInt64.toNat_sub_of_le _ _ ordered, one, Nat.mod_eq_of_lt (by omega)]
  have stream : b.streamRange { start, end_ } =
      b.streamFrom start.toNat (end_.toNat - start.toNat + 1) := by
    rw [streamRange]
    dsimp only
    rw [first, last, if_neg open_, length]
  rw [stream]
  refine BlobStream.serves ⟨?_, ?_, fun _ => ?_, nofun⟩ positive
  · exact Nat.le_add_right _ _
  · rw [streamFrom]
    dsimp only
    omega
  · rw [BlobStream.unread, streamFrom]
    dsimp only
    rw [Nat.add_sub_cancel_left]

end Storage

end Summ
