import Summ.Core.Digest

/-!
# Queries and percent escapes

The pairs of a query, and the escapes of its values. What is escaped is
decoded again, byte for byte: `formDecode_queryEscape`.
-/

namespace Summ

open Bytes

namespace query

/-- `hex_digit`. -/
def hexDigit (c : Byte) : Option Byte :=
  if 48 ≤ c && c ≤ 57 then some (c - 48)
  else if 97 ≤ c && c ≤ 102 then some (c - 97 + 10)
  else if 65 ≤ c && c ≤ 70 then some (c - 65 + 10)
  else none

/-- `hex_pair`. -/
def hexPair (hi lo : Byte) : Option Byte := do
  return (← hexDigit hi) * 16 + (← hexDigit lo)

def PERCENT : Byte := 0x25

def PLUS : Byte := 0x2B

def SPACE : Byte := 0x20

/-- The loop of `percent_decode`. A percent sign with no two digits after it stays. -/
def decodeBytes (plusIsSpace : Bool) : Bytes → Bytes
  | [] => []
  | c :: rest =>
    if c = PERCENT then
      match rest with
      | hi :: lo :: more =>
        match hexPair hi lo with
        | some byte => byte :: decodeBytes plusIsSpace more
        | none => PERCENT :: decodeBytes plusIsSpace (hi :: lo :: more)
      | rest => PERCENT :: decodeBytes plusIsSpace rest
    else (if c = PLUS && plusIsSpace then SPACE else c) :: decodeBytes plusIsSpace rest

/-- `percent_decode`. -/
def percentDecode (s : Text) (plusIsSpace : Bool) : Text :=
  if !(s.contains '%' || plusIsSpace && s.contains '+') then s
  else ofUtf8Lossy (decodeBytes plusIsSpace (utf8 s))

/-- `form_decode`. -/
def formDecode (s : Text) : Text := percentDecode s true

/-- `path_decode`. -/
def pathDecode (s : Text) : Text := percentDecode s false

def upperHexChar (n : Nat) : Char := "0123456789ABCDEF".toList.getD n '0'

def isUnreserved (b : Byte) : Bool :=
  (65 ≤ b && b ≤ 90) || (97 ≤ b && b ≤ 122) || (48 ≤ b && b ≤ 57) ||
    b = 45 || b = 95 || b = 46 || b = 126

/-- What `query_escape` writes for one byte. -/
def escapeByte (b : Byte) : Text :=
  if isUnreserved b then [Char.ofNat b.val]
  else if b = SPACE then ['+']
  else ['%', upperHexChar (b.val / 16), upperHexChar (b.val % 16)]

/-- `query_escape`. -/
def queryEscape (s : Text) : Text := (utf8 s).flatMap escapeByte

/-- `pairs`. -/
def pairs (q : Text) : List (Text × Text) :=
  ((q.splitOn '&').filter fun part => !part.isEmpty).map fun part =>
    match splitOnce '=' part with
    | some (k, v) => (formDecode k, formDecode v)
    | none => (formDecode part, [])

/-- `first`. -/
def first (ps : List (Text × Text)) (key : Text) : Option Text :=
  (ps.find? fun p => p.1 = key).map fun p => p.2

/-! ## Escapes are decoded -/

theorem decodeBytes_cons {plusIsSpace : Bool} {c : Byte} (h : c ≠ PERCENT) (rest : Bytes) :
    decodeBytes plusIsSpace (c :: rest) =
      (if c = PLUS && plusIsSpace then SPACE else c) :: decodeBytes plusIsSpace rest := by
  rw [decodeBytes.eq_def]
  exact if_neg h

theorem decodeBytes_plain {plusIsSpace : Bool} {b : Bytes} (percent : PERCENT ∉ b)
    (plus : plusIsSpace = true → PLUS ∉ b) : decodeBytes plusIsSpace b = b := by
  induction b with
  | nil => rfl
  | cons c b ih =>
    rw [List.mem_cons, not_or] at percent
    have later := ih percent.2 fun h => (not_or.mp (List.mem_cons.not.mp (plus h))).2
    have same : (if c = PLUS && plusIsSpace then SPACE else c) = c := by
      refine if_neg fun h => ?_
      rw [Bool.and_eq_true, decide_eq_true_eq] at h
      exact plus h.2 (by rw [h.1]; exact List.mem_cons_self)
    rw [decodeBytes_cons (Ne.symm percent.1), same, later]

/-- The shortcut for a text without escapes changes nothing. -/
theorem percentDecode_eq (s : Text) (plusIsSpace : Bool) :
    percentDecode s plusIsSpace = ofUtf8Lossy (decodeBytes plusIsSpace (utf8 s)) := by
  rw [percentDecode]
  split
  · rename_i plain
    simp only [Bool.not_eq_true', Bool.or_eq_false_iff, List.contains_eq_mem, decide_eq_false_iff_not,
      Bool.and_eq_false_iff] at plain
    have percent : PERCENT ∉ utf8 s := fun h => plain.1 (mem_utf8_ascii h (by decide))
    have plus (h : plusIsSpace = true) : PLUS ∉ utf8 s := fun mem => by
      rcases plain.2 with off | absent
      · rw [h] at off
        cases off
      · exact absent (mem_utf8_ascii mem (by decide))
    rw [decodeBytes_plain percent plus, ofUtf8Lossy_utf8]
  · rfl

/-- Whether `bytes` are what `b` is written as: one byte that stands for it, or
an escape of it. -/
def writes (b : Byte) : Bytes → Bool
  | [c] => decide (c ≠ PERCENT) && decide ((if c = PLUS then SPACE else c) = b)
  | [p, hi, lo] => decide (p = PERCENT) && decide (hexPair hi lo = some b)
  | _ => false

/-- A byte's escape is decoded to the byte, whatever comes after it. -/
theorem decodeBytes_escape (b : Byte) (rest : Bytes) :
    decodeBytes true (utf8 (escapeByte b) ++ rest) = b :: decodeBytes true rest := by
  have table : ∀ b : Byte, writes b (utf8 (escapeByte b)) = true := by decide +kernel
  have row := table b
  unfold writes at row
  split at row
  · rename_i c bytes
    rw [Bool.and_eq_true, decide_eq_true_eq, decide_eq_true_eq] at row
    rw [bytes, List.singleton_append, decodeBytes_cons row.1, Bool.and_true]
    simp only [decide_eq_true_eq]
    rw [row.2]
  · rename_i p hi lo bytes
    rw [Bool.and_eq_true, decide_eq_true_eq, decide_eq_true_eq] at row
    rw [bytes, List.cons_append, List.cons_append, List.singleton_append, decodeBytes,
      if_pos row.1, row.2]
  · cases row

theorem decodeBytes_escaped (bytes : Bytes) :
    decodeBytes true (bytes.flatMap fun b => utf8 (escapeByte b)) = bytes := by
  induction bytes with
  | nil => rfl
  | cons b bytes ih => rw [List.flatMap_cons, decodeBytes_escape, ih]

/-- What is escaped as a value is decoded as it was. -/
theorem formDecode_queryEscape (s : Text) : formDecode (queryEscape s) = s := by
  rw [formDecode, percentDecode_eq, queryEscape, utf8_flatMap, decodeBytes_escaped,
    ofUtf8Lossy_utf8]

/-- A text with nothing to decode. -/
theorem pathDecode_plain {s : Text} (h : '%' ∉ s) : pathDecode s = s := by
  rw [pathDecode, percentDecode, Bool.false_and, Bool.or_false]
  refine if_pos ?_
  simpa using h

end query

end Summ
