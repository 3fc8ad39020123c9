import Summ.Server.Ranges

/-!
# Chunks of an upload

The span that a chunk of an upload declares, and what it is checked against
before a byte is written. A chunk that spans every offset has one byte more
than a 64-bit length says: `chunks_exact_iff`.
-/

namespace Summ

open Texts

/-- Why a chunk's `Content-Range` was rejected. -/
inductive ChunkRangeError
  | malformed (detail : Text)
  | inverted
  deriving DecidableEq

def isAsciiAlphabetic (c : Char) : Bool :=
  ('a' ≤ c && c ≤ 'z') || ('A' ≤ c && c ≤ 'Z')

/-- `parse_chunk_range`. -/
def parseChunkRange (value : Text) : Except ChunkRangeError ByteRange :=
  let raw := Texts.trim value
  if raw.isEmpty then .error (.malformed value)
  else if raw.contains '/' || raw.any isAsciiAlphabetic then
    .error (.malformed
      ("chunked upload Content-Range is `<start>-<end>`, not RFC 9110 form: ".toList ++ raw))
  else
    match splitOnce '-' raw with
    | none => .error (.malformed raw)
    | some (first, last) =>
      if first.isEmpty || last.isEmpty || !first.all isDigit || !last.all isDigit then
        .error (.malformed raw)
      else
        match parseU64 first, parseU64 last with
        | some start, some end_ =>
          if end_ < start then .error .inverted else .ok { start, end_ }
        | _, _ => .error (.malformed raw)

inductive ErrorCode
  | blobUploadInvalid
  | paginationNumberInvalid
  | sizeInvalid
  deriving DecidableEq

namespace ErrorCode

def status : ErrorCode → Nat
  | blobUploadInvalid | paginationNumberInvalid | sizeInvalid => 400

def defaultMessage : ErrorCode → Text
  | blobUploadInvalid => "blob upload invalid".toList
  | paginationNumberInvalid => "invalid number of results requested".toList
  | sizeInvalid => "provided length did not match content length".toList

end ErrorCode

structure ApiError where
  status : Nat
  code : ErrorCode
  message : Text
  detail : Option Text

def RANGE_NOT_SATISFIABLE : Nat := 416

namespace ApiError

def new (code : ErrorCode) : ApiError where
  status := code.status
  code
  message := code.defaultMessage
  detail := none

def withStatus (e : ApiError) (status : Nat) : ApiError := { e with status }

def withMessage (e : ApiError) (message : Text) : ApiError := { e with message }

def withDetail (e : ApiError) (detail : Text) : ApiError := { e with detail := some detail }

end ApiError

def shown (n : UInt64) : Text := (toString n.toNat).toList

def sizeMismatch (expected actual : UInt64) : ApiError :=
  (ApiError.new .sizeInvalid).withDetail
    ("expected ".toList ++ shown expected ++ " bytes, got ".toList ++ shown actual)

/-- `validate_chunk`: a chunk has both headers, and anything else is a stream. -/
def validateChunk (contentRange contentLength : Option Text) (offset : UInt64) :
    Except ApiError (Option UInt64) :=
  match contentRange, contentLength.bind parseU64 with
  | some raw, some length =>
    match parseChunkRange raw with
    | .error (.malformed detail) =>
      .error (((ApiError.new .blobUploadInvalid).withMessage "malformed Content-Range".toList).withDetail
        detail)
    | .error .inverted =>
      .error (((ApiError.new .blobUploadInvalid).withMessage
        "Content-Range start is after its end".toList).withDetail raw)
    | .ok range =>
      if range.size ≠ length then .error (sizeMismatch range.size length)
      else if range.start ≠ offset then
        .error ((((ApiError.new .blobUploadInvalid).withStatus RANGE_NOT_SATISFIABLE).withMessage
          "chunk is out of order".toList).withDetail
            ("expected the chunk to start at ".toList ++ shown offset ++ ", got ".toList ++
              shown range.start))
      else .ok (some length)
  | _, _ => .ok none

theorem parseChunkRange_ok {value : Text} {r : ByteRange} (h : parseChunkRange value = .ok r) :
    ∃ first last, Texts.trim value = first ++ '-' :: last ∧ first ≠ [] ∧ last ≠ [] ∧ Digits first ∧
      Digits last ∧ decimal first = r.start.toNat ∧ decimal last = r.end_.toNat ∧
      r.start ≤ r.end_ := by
  rw [parseChunkRange] at h
  split at h
  · cases h
  · split at h
    · cases h
    · split at h
      · cases h
      · rename_i first last cut
        split at h
        · cases h
        · rename_i digits
          simp only [Bool.or_eq_true, Bool.not_eq_true', List.isEmpty_iff, not_or,
            Bool.not_eq_false, List.all_eq_true] at digits
          obtain ⟨⟨⟨hfirst, hlast⟩, dfirst⟩, dlast⟩ := digits
          split at h
          · rename_i start end_ hs he
            split at h
            · cases h
            · rename_i ordered
              cases h
              exact ⟨first, last, (of_splitOnce cut).1, hfirst, hlast, dfirst, dlast,
                ((parseU64_digits dfirst).mp hs).2, ((parseU64_digits dlast).mp he).2,
                UInt64.not_lt.mp ordered⟩
          · cases h

theorem not_digit_of_mem {t : Text} (h : Digits t) {c : Char} (hc : isDigit c = false) : c ∉ t :=
  fun mem => by rw [h c mem] at hc; cases hc

/-- Two numbers of digits, in order, are a span. -/
theorem parseChunkRange_of_digits {value first last : Text} (cut : Texts.trim value = first ++ '-' :: last)
    (hfirst : first ≠ []) (hlast : last ≠ []) (dfirst : Digits first) (dlast : Digits last)
    {r : ByteRange} (start : decimal first = r.start.toNat) (stop : decimal last = r.end_.toNat)
    (ordered : r.start ≤ r.end_) : parseChunkRange value = .ok r := by
  have present : ¬(Texts.trim value).isEmpty = true := by rw [cut]; simp
  have plain : ¬((Texts.trim value).contains '/' || (Texts.trim value).any isAsciiAlphabetic) = true := by
    have letter {t : Text} (h : Digits t) : ∀ c ∈ t, isAsciiAlphabetic c = false := by
      intro c hc
      have digit := h c hc
      simp only [isDigit, isAsciiAlphabetic, Bool.and_eq_true, decide_eq_true_eq, Char.le_def,
        UInt32.le_iff_toNat_le] at digit ⊢
      have nine : '9'.val.toNat = 57 := rfl
      have a : 'a'.val.toNat = 97 := rfl
      have upper : 'A'.val.toNat = 65 := rfl
      simp only [Bool.or_eq_false_iff, Bool.and_eq_false_iff, decide_eq_false_iff_not]
      omega
    rw [cut, Bool.or_eq_true, not_or]
    constructor
    · have absent : '/' ∉ first ++ '-' :: last := by
        rw [List.mem_append, List.mem_cons]
        rintro (h | h | h)
        · exact not_digit_of_mem dfirst (by decide) h
        · exact absurd h (by decide)
        · exact not_digit_of_mem dlast (by decide) h
      simpa using absent
    · rw [List.any_append, List.any_cons, Bool.or_eq_true, Bool.or_eq_true, not_or, not_or]
      refine ⟨?_, by decide, ?_⟩
      · rw [List.any_eq_true]
        rintro ⟨c, hc, alphabetic⟩
        rw [letter dfirst c hc] at alphabetic
        cases alphabetic
      · rw [List.any_eq_true]
        rintro ⟨c, hc, alphabetic⟩
        rw [letter dlast c hc] at alphabetic
        cases alphabetic
  have digits : ¬(first.isEmpty || last.isEmpty || !first.all isDigit || !last.all isDigit) = true := by
    simp only [Bool.or_eq_true, Bool.not_eq_true', List.isEmpty_iff, not_or, Bool.not_eq_false,
      List.all_eq_true]
    exact ⟨⟨⟨hfirst, hlast⟩, dfirst⟩, dlast⟩
  rw [parseChunkRange]
  rw [if_neg present, if_neg plain, cut, splitOnce_append (not_digit_of_mem dfirst (by decide))]
  dsimp only
  rw [if_neg digits, (parseU64_digits dfirst).mpr ⟨hfirst, start⟩,
    (parseU64_digits dlast).mpr ⟨hlast, stop⟩]
  exact if_neg (UInt64.not_lt.mpr ordered)

namespace ByteRange

/-- The one span that no 64-bit length says. -/
theorem size_exact_iff {r : ByteRange} (ordered : r.start ≤ r.end_) :
    (r.size.toNat : Int) = r.end_.toNat - r.start.toNat + 1 ↔
      ¬(r.start.toNat = 0 ∧ r.end_.toNat = 2 ^ 64 - 1) := by
  have le := UInt64.le_iff_toNat_le.mp ordered
  have bound := r.end_.toNat_lt
  have one : (1 : UInt64).toNat = 1 := rfl
  rw [size, UInt64.toNat_add, UInt64.toNat_sub_of_le _ _ ordered, one]
  omega

theorem sizeChecked_iff {r : ByteRange} (ordered : r.start ≤ r.end_) :
    r.sizeChecked = some r.size ↔ ¬(r.start.toNat = 0 ∧ r.end_.toNat = 2 ^ 64 - 1) := by
  have le := UInt64.le_iff_toNat_le.mp ordered
  have bound := r.end_.toNat_lt
  have full : r.end_ - r.start = 0xFFFFFFFFFFFFFFFF ↔ r.start.toNat = 0 ∧ r.end_.toNat = 2 ^ 64 - 1 := by
    rw [← UInt64.toNat_inj, UInt64.toNat_sub_of_le _ _ ordered]
    have max : (0xFFFFFFFFFFFFFFFF : UInt64).toNat = 2 ^ 64 - 1 := rfl
    rw [max]
    omega
  rw [sizeChecked, if_neg (UInt64.not_lt.mpr ordered)]
  split
  · rename_i wraps
    exact iff_of_false (by simp) fun fits => fits (full.mp wraps)
  · rename_i fits
    exact iff_of_true rfl fun wraps => fits (full.mpr wraps)

end ByteRange

theorem validateChunk_some {raw : Text} {contentLength : Option Text} {offset length : UInt64}
    {r : ByteRange} (read : parseChunkRange raw = .ok r)
    (h : validateChunk (some raw) contentLength offset = .ok (some length)) :
    r.size = length ∧ r.start = offset := by
  unfold validateChunk at h
  cases declared : contentLength.bind parseU64 with
  | none =>
    rw [declared] at h
    cases h
  | some n =>
    rw [declared] at h
    dsimp only at h
    rw [read] at h
    dsimp only at h
    split at h
    · cases h
    · rename_i size
      split at h
      · cases h
      · rename_i start
        cases h
        exact ⟨of_not_not size, of_not_not start⟩

/-- The exact span of every range that is read, and of every chunk accepted with it. -/
structure ChunksExact (value : Text) : Prop where
  size : ∀ r, parseChunkRange value = .ok r → r.sizeChecked = some r.size ∧
    (r.size.toNat : Int) = r.end_.toNat - r.start.toNat + 1
  accepted : ∀ r, parseChunkRange value = .ok r → ∀ contentLength offset length,
    validateChunk (some value) contentLength offset = .ok (some length) →
    r.start = offset ∧ (length.toNat : Int) = r.end_.toNat - r.start.toNat + 1

/-- From nought to the last 64-bit number. -/
def FullWidth (value : Text) : Prop :=
  ∃ first last, Texts.trim value = first ++ '-' :: last ∧ first ≠ [] ∧ (∀ c ∈ first, c = '0') ∧
    Digits last ∧ decimal last = 2 ^ 64 - 1

theorem fullWidth_iff {value : Text} {r : ByteRange} (h : parseChunkRange value = .ok r) :
    FullWidth value ↔ r.start.toNat = 0 ∧ r.end_.toNat = 2 ^ 64 - 1 := by
  obtain ⟨first, last, cut, hfirst, -, dfirst, dlast, start, stop, -⟩ := parseChunkRange_ok h
  rw [← start, ← stop, decimal_eq_zero dfirst]
  constructor
  · rintro ⟨first', last', cut', -, noughts, dlast', full⟩
    have digits : Digits first' := fun c hc => by rw [noughts c hc]; decide
    have same := splitOnce_append (not_digit_of_mem dfirst (c := '-') (by decide)) last
    rw [← cut, cut', splitOnce_append (not_digit_of_mem digits (by decide))] at same
    cases same
    exact ⟨noughts, full⟩
  · rintro ⟨noughts, full⟩
    exact ⟨first, last, cut, hfirst, noughts, dlast, full⟩

theorem chunks_exact_iff (value : Text) : ChunksExact value ↔ ¬FullWidth value := by
  constructor
  · rintro exact_ ⟨first, last, cut, hfirst, noughts, dlast, full⟩
    have dfirst : Digits first := fun c hc => by rw [noughts c hc]; decide
    have hlast : last ≠ [] := by
      rintro rfl
      cases full
    have read : parseChunkRange value = .ok { start := 0, end_ := 0xFFFFFFFFFFFFFFFF } :=
      parseChunkRange_of_digits cut hfirst hlast dfirst dlast
        ((decimal_eq_zero dfirst).mpr noughts) full (by decide)
    exact (ByteRange.size_exact_iff (by decide)).mp (exact_.size _ read).2 ⟨rfl, rfl⟩
  · intro narrow
    have span (r : ByteRange) (h : parseChunkRange value = .ok r) : r.sizeChecked = some r.size ∧
        (r.size.toNat : Int) = r.end_.toNat - r.start.toNat + 1 := by
      obtain ⟨-, -, -, -, -, -, -, -, -, ordered⟩ := parseChunkRange_ok h
      have fits := fun full => narrow ((fullWidth_iff h).mpr full)
      exact ⟨(ByteRange.sizeChecked_iff ordered).mpr fits,
        (ByteRange.size_exact_iff ordered).mpr fits⟩
    refine ⟨span, fun r h contentLength offset length accepted => ?_⟩
    obtain ⟨size, start⟩ := validateChunk_some h accepted
    exact ⟨start, by rw [← size]; exact (span r h).2⟩

/-- Its size wraps to nothing, so it is accepted with no bytes at all. -/
theorem full_width_chunk :
    ¬ChunksExact "0-18446744073709551615".toList ∧
      (validateChunk (some "0-18446744073709551615".toList) (some "0".toList) 0).toOption =
        some (some 0) := by
  constructor
  · intro exact_
    have cut : Texts.trim "0-18446744073709551615".toList =
        "0".toList ++ '-' :: "18446744073709551615".toList := by decide +kernel
    have read : parseChunkRange "0-18446744073709551615".toList =
        .ok { start := 0, end_ := 0xFFFFFFFFFFFFFFFF } :=
      parseChunkRange_of_digits cut (by decide) (by decide) (by decide) (by decide) (by decide)
        (by decide +kernel) (by decide)
    exact absurd (exact_.size _ read).2 (by decide)
  · decide +kernel

end Summ
