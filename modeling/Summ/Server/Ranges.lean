import Summ.Core.Digest
import Summ.Lib.Texts
import Summ.Storage.Streams

/-!
# Ranges of a blob

The window a download asks for. It is resolved once by the server and once by
the blob store, and then streamed.

The integer parser takes a plus sign, and an empty blob answers before the
numbers are read: `ranges_serve_iff` says which headers are served as they
should be all the same.
-/

namespace Summ

open Texts

/-- A resolved window into a blob, inclusive at both ends. -/
structure ByteRange where
  start : UInt64
  end_ : UInt64
  deriving DecidableEq

namespace ByteRange

/-- Bytes covered, with the arithmetic of a release build. -/
def size (r : ByteRange) : UInt64 := r.end_ - r.start + 1

/-- The same where overflow is checked: `none` is a panic. -/
def sizeChecked (r : ByteRange) : Option UInt64 :=
  if r.end_ < r.start then none
  else if r.end_ - r.start = 0xFFFFFFFFFFFFFFFF then none
  else some (r.end_ - r.start + 1)

/-- The bytes from the first to the last. -/
def span (r : ByteRange) : Nat := r.end_.toNat - r.start.toNat + 1

end ByteRange

/-- What a `Range` header on a blob resolves to against a known length. -/
inductive RangeOutcome
  | whole
  | partial_ (window : ByteRange)
  | unsatisfiable
  deriving DecidableEq

def BYTES_UNIT : Text := "bytes=".toList

/-- `str::strip_prefix`. -/
def stripPrefix (pre t : Text) : Option Text :=
  if pre.isPrefixOf t then some (t.drop pre.length) else none

/-- The two numbers of a header that names one range. -/
def rangeNumbers (header : Text) : Option (Text × Text) := do
  let spec ← stripPrefix BYTES_UNIT (Texts.trim header)
  let spec := Texts.trim spec
  if spec.contains ',' then none
  else
    let (first, last) ← splitOnce '-' spec
    return (Texts.trim first, Texts.trim last)

/-- `parse_range`. -/
def parseRange (header : Text) (len : UInt64) : RangeOutcome :=
  match rangeNumbers header with
  | none => .whole
  | some (first, last) =>
    if len = 0 then .unsatisfiable
    else
      match first.isEmpty, last.isEmpty with
      | true, false =>
        match parseU64 last with
        | none => .whole
        | some suffix =>
          if suffix = 0 then .unsatisfiable
          else .partial_ { start := saturatingSub len suffix, end_ := len - 1 }
      | false, true =>
        match parseU64 first with
        | none => .whole
        | some start =>
          if len ≤ start then .unsatisfiable else .partial_ { start, end_ := len - 1 }
      | false, false =>
        match parseU64 first, parseU64 last with
        | some start, some end_ =>
          if len ≤ start || end_ < start then .unsatisfiable
          else .partial_ { start, end_ := minU64 end_ (len - 1) }
        | _, _ => .whole
      | true, true => .whole

/-! ## The numbers of a header -/

/-- One range, with white space around the header and around its numbers. -/
structure Spelled (header first last : Text) : Prop where
  text : ∃ a b c d e, Blank a ∧ Blank b ∧ Blank c ∧ Blank d ∧ Blank e ∧
    header = a ++ (BYTES_UNIT ++ (b ++ first ++ c ++ '-' :: (d ++ last ++ e)))
  trimmedFirst : Trimmed first
  trimmedLast : Trimmed last
  oneDash : '-' ∉ first
  oneRange : ',' ∉ first ∧ ',' ∉ last

theorem Blank.not_mem {t : Text} (h : Blank t) {c : Char} (hc : Texts.isWhitespace c = false) : c ∉ t := by
  intro mem
  rw [h c mem] at hc
  cases hc

theorem trim_unit (b : Text) : Texts.trim (BYTES_UNIT ++ b) = BYTES_UNIT ++ trimEnd b := by
  have start : trimStart (BYTES_UNIT ++ b) = BYTES_UNIT ++ b := rfl
  have ended : BYTES_UNIT ++ b = "bytes".toList ++ '=' :: b := rfl
  rw [Texts.trim, start, ended, trimEnd_cons (by decide)]
  rfl

theorem rangeNumbers_eq_some {header first last : Text} :
    rangeNumbers header = some (first, last) ↔ Spelled header first last := by
  have dash : Texts.isWhitespace '-' = false := by decide
  have comma : Texts.isWhitespace ',' = false := by decide
  constructor
  · intro h
    obtain ⟨rest, strip, h⟩ := Option.bind_eq_some_iff.mp h
    dsimp only at h
    split at h
    · cases h
    · rename_i oneRange
      obtain ⟨⟨f, l⟩, split, h⟩ := Option.bind_eq_some_iff.mp h
      cases h
      rw [stripPrefix] at strip
      split at strip
      · rename_i starts
        obtain ⟨rest', hrest⟩ := List.isPrefixOf_iff_prefix.mp starts
        rw [← hrest, List.drop_left] at strip
        cases strip
        obtain ⟨a, e, ha, he, whole, -⟩ := exists_trim header
        obtain ⟨b, c, hb, hc, spec, -⟩ := exists_trim rest
        obtain ⟨fa, fe, hfa, hfe, first, trimmedFirst⟩ := exists_trim f
        obtain ⟨la, le, hla, hle, last, trimmedLast⟩ := exists_trim l
        obtain ⟨cut, noDash⟩ := of_splitOnce split
        have noComma : ',' ∉ Texts.trim rest := by simpa using oneRange
        rw [cut, List.mem_append, List.mem_cons, not_or, not_or] at noComma
        have inside {t u : Text} {x : Char} (h : x ∉ t) {p q : Text} (ht : t = p ++ u ++ q) :
            x ∉ u := fun hx => h (by rw [ht]; simp [hx])
        refine ⟨⟨a, b ++ fa, fe, la, le ++ c ++ e, ha, hb.append hfa, hfe, hla,
          (hle.append hc).append he, ?_⟩, trimmedFirst, trimmedLast, inside noDash first,
          inside noComma.1 first, inside noComma.2.2 last⟩
        rw [whole, ← hrest, spec, cut]
        nth_rewrite 1 [first]
        nth_rewrite 1 [last]
        simp
      · cases strip
  · rintro ⟨⟨a, b, c, d, e, ha, hb, hc, hd, he, rfl⟩, trimmedFirst, trimmedLast, oneDash,
      noComma⟩
    have outer : Texts.trim (a ++ (BYTES_UNIT ++ (b ++ first ++ c ++ '-' :: (d ++ last ++ e)))) =
        BYTES_UNIT ++ (b ++ first ++ c ++ '-' :: trimEnd (d ++ last ++ e)) := by
      rw [Texts.trim, trimStart_blank ha]
      exact (trim_unit _).trans (by rw [trimEnd_cons dash])
    obtain ⟨d', hd', ended⟩ := exists_trimEnd_pad hd trimmedLast he
    have inner : Texts.trim (b ++ first ++ c ++ '-' :: (d' ++ last)) =
        trimStart (b ++ first ++ c) ++ '-' :: (d' ++ last) := by
      rw [Texts.trim, trimStart_cons dash, trimEnd_cons dash, ← ended, trimEnd, trimEnd,
        List.rdropWhile_idempotent]
    have plain {x : Char} (hx : Texts.isWhitespace x = false) (h : x ∉ first) :
        x ∉ trimStart (b ++ first ++ c) := by
      intro mem
      rcases List.mem_append.mp (mem_trimStart mem) with mem | mem
      · rcases List.mem_append.mp mem with mem | mem
        · exact Blank.not_mem hb hx mem
        · exact h mem
      · exact Blank.not_mem hc hx mem
    have oneRange : (trimStart (b ++ first ++ c) ++ '-' :: (d' ++ last)).contains ',' = false := by
      have absent : ',' ∉ trimStart (b ++ first ++ c) ++ '-' :: (d' ++ last) := by
        rw [List.mem_append, List.mem_cons, List.mem_append]
        rintro (h | h | h | h)
        · exact plain comma noComma.1 h
        · exact absurd h (by decide)
        · exact Blank.not_mem hd' comma h
        · exact noComma.2 h
      simpa using absent
    have numbers : Texts.trim (trimStart (b ++ first ++ c)) = first ∧ Texts.trim (d' ++ last) = last := by
      refine ⟨(trim_trimStart _).trans (trim_pad hb trimmedFirst hc), ?_⟩
      have := trim_pad hd' trimmedLast blank_nil
      rwa [List.append_nil] at this
    rw [rangeNumbers, outer, ended, stripPrefix,
      if_pos (List.isPrefixOf_iff_prefix.mpr (List.prefix_append _ _)), List.drop_left]
    dsimp only [Option.bind_eq_bind, Option.bind_some]
    rw [inner, oneRange, splitOnce_append (plain dash oneDash)]
    dsimp only [Option.bind_some]
    rw [numbers.1, numbers.2]
    rfl

/-! ## The windows a header asks for -/

/-- An int-range or a suffix-range, of digits only. -/
def Grammatical (first last : Text) : Prop :=
  Digits first ∧ Digits last ∧ ¬(first = [] ∧ last = [])

instance (t : Text) : Decidable (Digits t) := List.decidableBAll (fun c => isDigit c = true) t

instance (first last : Text) : Decidable (Grammatical first last) :=
  inferInstanceAs (Decidable (_ ∧ _))

/-- The window an int-range or a suffix-range prescribes for a representation. -/
def prescribed (len : Nat) (first last : Text) : Option (Nat × Nat) :=
  if first = [] then
    if decimal last = 0 ∨ len = 0 then none else some (len - decimal last, len - 1)
  else if len ≤ decimal first then none
  else if last = [] then some (decimal first, len - 1)
  else if decimal last < decimal first then none
  else some (decimal first, min (decimal last) (len - 1))

/-- A number the parser reads that is not written in digits only. -/
def Signed (t : Text) : Prop := ∃ digits, t = '+' :: digits ∧ (parseU64 t).isSome = true

/-- The server does not ignore the header, and the grammar does not have it: a
blob with nothing to read, or a number with a plus sign among those that are read. -/
def Misread (header : Text) (len : UInt64) : Prop :=
  ∃ first last, Spelled header first last ∧
    if len = 0 then ¬Grammatical first last
    else (Signed first ∨ Signed last) ∧ (first = [] ∨ (parseU64 first).isSome = true) ∧
      (last = [] ∨ (parseU64 last).isSome = true)

theorem digits_of_parse {t : Text} {v : UInt64} (h : parseU64 t = some v) (plain : ¬Signed t) :
    Digits t ∧ decimal t = v.toNat ∧ t ≠ [] := by
  obtain ⟨digits, rfl | rfl, left, ok, value⟩ := parseU64_eq_some.mp h
  · exact ⟨ok, value, left⟩
  · exact absurd ⟨digits, rfl, by rw [h]; rfl⟩ plain

theorem not_digits_of_signed {t : Text} (h : Signed t) : ¬Digits t := by
  obtain ⟨digits, rfl, -⟩ := h
  exact fun ok => absurd (ok '+' List.mem_cons_self) (by decide)

/-- What a header that is not ignored spells, for a blob with something to read. -/
theorem parseRange_read {header first last : Text} {len : UInt64} (spelled : Spelled header first last)
    (pos : len ≠ 0) :
    (parseRange header len ≠ .whole ↔ (first = [] ∨ (parseU64 first).isSome = true) ∧
      (last = [] ∨ (parseU64 last).isSome = true) ∧ ¬(first = [] ∧ last = [])) ∧
    ∀ w, parseRange header len = .partial_ w → ¬Signed first → ¬Signed last →
      w.start ≤ w.end_ ∧ w.end_ < len ∧
        prescribed len.toNat first last = some (w.start.toNat, w.end_.toNat) := by
  rw [parseRange, rangeNumbers_eq_some.mpr spelled]
  dsimp only
  rw [if_neg pos]
  have size : 0 < len.toNat := Nat.pos_of_ne_zero fun zero => pos (UInt64.toNat_inj.mp zero)
  have last_ := toNat_sub_one pos
  rcases eq_or_ne first [] with rfl | hfirst
  · rcases eq_or_ne last [] with rfl | hlast
    · exact ⟨by simp, fun w hw => by cases hw⟩
    · have shape : ([] : Text).isEmpty = true ∧ last.isEmpty = false := ⟨rfl, by simp [hlast]⟩
      rw [shape.1, shape.2]
      dsimp only
      cases hv : parseU64 last with
      | none => exact ⟨by simp [hlast], fun w hw => by cases hw⟩
      | some n =>
        dsimp only
        split
        · exact ⟨by simp [hlast], fun w hw => by cases hw⟩
        · rename_i nonzero
          refine ⟨by simp [hlast], fun w hw _ plain => ?_⟩
          cases hw
          obtain ⟨-, value, -⟩ := digits_of_parse hv plain
          have n0 : n.toNat ≠ 0 := fun zero => nonzero (UInt64.toNat_inj.mp zero)
          rw [UInt64.le_iff_toNat_le, UInt64.lt_iff_toNat_lt, toNat_saturatingSub, last_,
            prescribed, if_pos rfl, value, if_neg (by omega)]
          exact ⟨by omega, by omega, rfl⟩
  · rcases eq_or_ne last [] with rfl | hlast
    · have shape : first.isEmpty = false ∧ ([] : Text).isEmpty = true := ⟨by simp [hfirst], rfl⟩
      rw [shape.1, shape.2]
      dsimp only
      cases hv : parseU64 first with
      | none => exact ⟨by simp [hfirst], fun w hw => by cases hw⟩
      | some n =>
        dsimp only
        split
        · exact ⟨by simp [hfirst], fun w hw => by cases hw⟩
        · rename_i below
          refine ⟨by simp [hfirst], fun w hw plain _ => ?_⟩
          cases hw
          obtain ⟨-, value, -⟩ := digits_of_parse hv plain
          have lt := UInt64.lt_iff_toNat_lt.mp (UInt64.not_le.mp below)
          rw [UInt64.le_iff_toNat_le, UInt64.lt_iff_toNat_lt, last_, prescribed, if_neg hfirst,
            value, if_neg (by omega), if_pos rfl]
          dsimp only
          exact ⟨by omega, by omega, rfl⟩
    · have shape : first.isEmpty = false ∧ last.isEmpty = false := ⟨by simp [hfirst], by simp [hlast]⟩
      rw [shape.1, shape.2]
      dsimp only
      cases hv : parseU64 first with
      | none => exact ⟨by simp [hfirst], fun w hw => by cases hw⟩
      | some m =>
        cases hn : parseU64 last with
        | none => exact ⟨by simp [hlast], fun w hw => by cases hw⟩
        | some n =>
          dsimp only
          split
          · exact ⟨by simp [hfirst], fun w hw => by cases hw⟩
          · rename_i inside
            refine ⟨by simp [hfirst], fun w hw plain plain' => ?_⟩
            cases hw
            obtain ⟨-, start, -⟩ := digits_of_parse hv plain
            obtain ⟨-, stop, -⟩ := digits_of_parse hn plain'
            simp only [Bool.or_eq_true, decide_eq_true_eq, not_or, UInt64.lt_iff_toNat_lt,
              UInt64.le_iff_toNat_le] at inside
            rw [UInt64.le_iff_toNat_le, UInt64.lt_iff_toNat_lt, toNat_minU64, last_, prescribed,
              if_neg hfirst, start, stop, if_neg (by omega), if_neg hlast, if_neg (by omega)]
            dsimp only
            exact ⟨by omega, by omega, rfl⟩

/-- `get_blob`'s window: resolved again, against the file that is open. -/
def Storage.Blob.window (b : Storage.Blob) (range : Summ.ByteRange) : Option Storage.BlobStream :=
  (b.resolve (.inclusive range.start range.end_)).map b.streamRange

theorem Storage.Blob.window_serves {b : Storage.Blob} {w : Summ.ByteRange}
    (whole : b.file.length = b.size.toNat) (ordered : w.start ≤ w.end_) (inside : w.end_ < b.size)
    (positive : 1 ≤ b.chunkSize) :
    ∃ stream, b.window w = some stream ∧ stream.chunkSize = b.chunkSize ∧
      stream.Serves ((b.file.drop w.start.toNat).take w.span) := by
  refine ⟨b.streamRange { start := w.start, end_ := w.end_ }, ?_, rfl,
    Storage.Blob.streamRange_serves whole ordered inside positive⟩
  rw [window, resolve, Storage.resolve_inside ordered inside]
  rfl

/-- What a download owes: only ranges of the grammar are not ignored, the window
is the one they prescribe, and its bytes are what is streamed. -/
structure RangesServe (header : Text) (len : UInt64) : Prop where
  grammar : parseRange header len ≠ .whole →
    ∃ first last, Spelled header first last ∧ Grammatical first last
  window : ∀ w, parseRange header len = .partial_ w → w.start ≤ w.end_ ∧ w.end_ < len ∧
    ∃ first last, Spelled header first last ∧
      prescribed len.toNat first last = some (w.start.toNat, w.end_.toNat)
  resolved : ∀ w, parseRange header len = .partial_ w →
    (Storage.ByteRange.inclusive w.start w.end_).resolve len =
      some { start := w.start, end_ := w.end_ }
  streamed : ∀ w, parseRange header len = .partial_ w → ∀ b : Storage.Blob, b.size = len →
    b.file.length = len.toNat → 1 ≤ b.chunkSize →
    ∃ stream, b.window w = some stream ∧ stream.chunkSize = b.chunkSize ∧
      stream.Serves ((b.file.drop w.start.toNat).take w.span)

theorem Spelled.numbers {header first last first' last' : Text} (h : Spelled header first last)
    (h' : Spelled header first' last') : first = first' ∧ last = last' := by
  have same := (rangeNumbers_eq_some.mpr h).symm.trans (rangeNumbers_eq_some.mpr h')
  rw [Option.some.injEq, Prod.mk.injEq] at same
  exact same

theorem spelled_of_parse {header : Text} {len : UInt64} (h : parseRange header len ≠ .whole) :
    ∃ first last, Spelled header first last := by
  cases hn : rangeNumbers header with
  | none => exact absurd (by rw [parseRange, hn]) h
  | some numbers => exact ⟨numbers.1, numbers.2, rangeNumbers_eq_some.mp hn⟩

theorem parseRange_empty {header first last : Text} (h : Spelled header first last) :
    parseRange header 0 = .unsatisfiable := by
  rw [parseRange, rangeNumbers_eq_some.mpr h]
  exact if_pos rfl

theorem grammatical_of_read {first last : Text}
    (hfirst : first = [] ∨ (parseU64 first).isSome = true)
    (hlast : last = [] ∨ (parseU64 last).isSome = true) (some_ : ¬(first = [] ∧ last = []))
    (plain : ¬(Signed first ∨ Signed last)) : Grammatical first last := by
  have digits {t : Text} (h : t = [] ∨ (parseU64 t).isSome = true) (ht : ¬Signed t) : Digits t := by
    rcases h with rfl | h
    · exact fun c hc => by cases hc
    · obtain ⟨v, hv⟩ := Option.isSome_iff_exists.mp h
      exact (digits_of_parse hv ht).1
  rw [not_or] at plain
  exact ⟨digits hfirst plain.1, digits hlast plain.2, some_⟩

theorem ranges_serve_iff (header : Text) (len : UInt64) :
    RangesServe header len ↔ ¬Misread header len := by
  constructor
  · rintro serve ⟨first, last, spelled, misread⟩
    have grammatical (read : parseRange header len ≠ .whole) : Grammatical first last := by
      obtain ⟨first', last', spelled', ok⟩ := serve.grammar read
      obtain ⟨rfl, rfl⟩ := spelled.numbers spelled'
      exact ok
    split at misread
    · rename_i empty
      subst empty
      exact misread (grammatical (by rw [parseRange_empty spelled]; exact nofun))
    · rename_i pos
      obtain ⟨signed, hfirst, hlast⟩ := misread
      have some_ : ¬(first = [] ∧ last = []) := by
        rintro ⟨rfl, rfl⟩
        rcases signed with ⟨_, none, -⟩ | ⟨_, none, -⟩ <;> cases none
      obtain ⟨left, right, -⟩ :=
        grammatical ((parseRange_read spelled pos).1.mpr ⟨hfirst, hlast, some_⟩)
      rcases signed with signed | signed
      · exact not_digits_of_signed signed left
      · exact not_digits_of_signed signed right
  · intro read
    -- what is not ignored is of the grammar, and no number has a sign
    have grammar (h : parseRange header len ≠ .whole) : ∃ first last, Spelled header first last ∧
        Grammatical first last := by
      obtain ⟨first, last, spelled⟩ := spelled_of_parse h
      refine ⟨first, last, spelled, ?_⟩
      by_cases pos : len = 0
      · by_contra bad
        exact read ⟨first, last, spelled, by rw [if_pos pos]; exact bad⟩
      · obtain ⟨hfirst, hlast, some_⟩ := (parseRange_read spelled pos).1.mp h
        refine grammatical_of_read hfirst hlast some_ fun signed => ?_
        exact read ⟨first, last, spelled, by rw [if_neg pos]; exact ⟨signed, hfirst, hlast⟩⟩
    have window (w : ByteRange) (h : parseRange header len = .partial_ w) : w.start ≤ w.end_ ∧
        w.end_ < len ∧ ∃ first last, Spelled header first last ∧
          prescribed len.toNat first last = some (w.start.toNat, w.end_.toNat) := by
      obtain ⟨first, last, spelled, left, right, -⟩ := grammar (by rw [h]; exact nofun)
      have pos : len ≠ 0 := fun empty => by
        subst empty
        rw [parseRange_empty spelled] at h
        cases h
      obtain ⟨ordered, inside, same⟩ := (parseRange_read spelled pos).2 w h
        (fun signed => not_digits_of_signed signed left)
        (fun signed => not_digits_of_signed signed right)
      exact ⟨ordered, inside, first, last, spelled, same⟩
    refine ⟨grammar, window, fun w h => ?_, fun w h b size whole positive => ?_⟩
    · obtain ⟨ordered, inside, -⟩ := window w h
      exact Storage.resolve_inside ordered inside
    · obtain ⟨ordered, inside, -⟩ := window w h
      exact Storage.Blob.window_serves (by rw [whole, size]) ordered (by rw [size]; exact inside)
        positive

/-- A plus sign is read; and on an empty blob, anything with a dash is. -/
theorem signed_range_served :
    ¬RangesServe "bytes=+5-9".toList 10 ∧ ¬RangesServe "bytes=a-b".toList 0 := by
  constructor
  · intro serve
    obtain ⟨first, last, spelled, digits, -⟩ := serve.grammar (by decide +kernel)
    have numbers := rangeNumbers_eq_some.mpr spelled
    rw [show rangeNumbers "bytes=+5-9".toList = some ("+5".toList, "9".toList) by decide +kernel] at numbers
    cases numbers
    exact absurd (digits '+' (by decide)) (by decide)
  · intro serve
    obtain ⟨first, last, spelled, digits, -⟩ := serve.grammar (by decide +kernel)
    have numbers := rangeNumbers_eq_some.mpr spelled
    rw [show rangeNumbers "bytes=a-b".toList = some ("a".toList, "b".toList) by decide +kernel] at numbers
    cases numbers
    exact absurd (digits 'a' (by decide)) (by decide)


end Summ
