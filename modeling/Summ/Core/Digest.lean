import Mathlib.Data.Vector.Basic
import Summ.Lib.Bytes

/-! Content digests: the two algorithms, the key encoding, and the text form
with its parser. Text is a list of characters; offsets into it that the source
takes in bytes are counted with each character's UTF-8 size. -/

abbrev Text := List Char

instance textLawfulBEq : LawfulBEq Text := inferInstance

namespace Summ

inductive SummError
  | storage (message : String)
  | notFound
  | invalidData (message : String)
  | invalidDigest (message : String)
  deriving DecidableEq, Repr

def SummError.display : SummError → String
  | storage m => s!"storage error: {m}"
  | notFound => "not found"
  | invalidData m => s!"invalid data: {m}"
  | invalidDigest m => s!"invalid digest: {m}"

/-- `str::split_once`. -/
def splitOnce (c : Char) : Text → Option (Text × Text)
  | [] => none
  | x :: xs => if x = c then some ([], xs) else (splitOnce c xs).map fun p => (x :: p.1, p.2)

/-- `str::rsplit_once`. -/
def rsplitOnce (c : Char) (t : Text) : Option (Text × Text) :=
  (splitOnce c t.reverse).map fun p => (p.2.reverse, p.1.reverse)

/-- `str::len`. -/
def byteLen (t : Text) : Nat := (t.map Char.utf8Size).sum

def IsAscii (t : Text) : Prop := ∀ c ∈ t, c.utf8Size = 1

instance (t : Text) : Decidable (IsAscii t) := List.decidableBAll (fun c : Char => c.utf8Size = 1) t

theorem byteLen_of_ascii {t : Text} (h : IsAscii t) : byteLen t = t.length := by
  induction t with
  | nil => rfl
  | cons c t ih =>
    obtain ⟨hc, ht⟩ := List.forall_mem_cons.mp h
    rw [List.length_cons, ← ih ht, byteLen, List.map_cons, List.sum_cons, hc, Nat.add_comm]
    rfl

theorem mem_splitOnce {c x : Char} {t a b : Text} (h : splitOnce c t = some (a, b)) (hx : x ∈ b) :
    x ∈ t := by
  induction t generalizing a with
  | nil => cases h
  | cons y t ih =>
    rw [splitOnce] at h
    split at h
    · cases h
      exact List.mem_cons_of_mem _ hx
    · obtain ⟨⟨a', b'⟩, h', heq⟩ := Option.map_eq_some_iff.mp h
      cases heq
      exact List.mem_cons_of_mem _ (ih h')

theorem splitOnce_append {c : Char} {a : Text} (h : c ∉ a) (b : Text) :
    splitOnce c (a ++ c :: b) = some (a, b) := by
  induction a with
  | nil => simp [splitOnce]
  | cons x a ih =>
    have hx : x ≠ c := fun hx => h (by simp [hx])
    rw [List.cons_append, splitOnce, if_neg hx, ih fun hm => h (List.mem_cons_of_mem _ hm)]
    rfl

/-- A text is split at its first `c`. -/
theorem of_splitOnce {c : Char} {t a b : Text} (h : splitOnce c t = some (a, b)) :
    t = a ++ c :: b ∧ c ∉ a := by
  induction t generalizing a with
  | nil => cases h
  | cons x t ih =>
    rw [splitOnce] at h
    split at h
    · rename_i hx
      cases h
      exact ⟨by rw [hx]; rfl, by simp⟩
    · rename_i hx
      obtain ⟨⟨a', b'⟩, h', heq⟩ := Option.map_eq_some_iff.mp h
      cases heq
      obtain ⟨rfl, absent⟩ := ih h'
      exact ⟨rfl, by simp [absent, Ne.symm hx]⟩

inductive Digest
  | sha256 (raw : List.Vector Byte 32)
  | sha512 (raw : List.Vector Byte 64)
  deriving DecidableEq

def ALGO_SHA256 : Byte := 1
def ALGO_SHA512 : Byte := 2

/-- Encoded key length for an algorithm byte. -/
def encodedLenOf (algo : Byte) : Option Nat :=
  if algo = ALGO_SHA256 then some 33
  else if algo = ALGO_SHA512 then some 65
  else none

namespace Digest

def algorithm : Digest → Text
  | sha256 _ => "sha256".toList
  | sha512 _ => "sha512".toList

def raw : Digest → Bytes
  | sha256 b => b.toList
  | sha512 b => b.toList

def algoByte : Digest → Byte
  | sha256 _ => ALGO_SHA256
  | sha512 _ => ALGO_SHA512

def encodedLen (d : Digest) : Nat := 1 + d.raw.length

/-- The algorithm byte and the raw hash, as they stand inside a key. -/
def encode (d : Digest) : Bytes := d.algoByte :: d.raw

/-- A digest from the head of `buf`, and the number of bytes it took. -/
def decode : Bytes → Option (Digest × Nat)
  | [] => none
  | algo :: rest =>
    if algo = ALGO_SHA256 then
      if h : 32 ≤ rest.length then
        some (sha256 ⟨rest.take 32, by simp [h]⟩, 33)
      else none
    else if algo = ALGO_SHA512 then
      if h : 64 ≤ rest.length then
        some (sha512 ⟨rest.take 64, by simp [h]⟩, 65)
      else none
    else none

/-- `char::to_digit(16)`. -/
def hexDigit (c : Char) : Option Nat :=
  if '0' ≤ c ∧ c ≤ '9' then some (c.toNat - '0'.toNat)
  else if 'a' ≤ c ∧ c ≤ 'f' then some (c.toNat - 'a'.toNat + 10)
  else if 'A' ≤ c ∧ c ≤ 'F' then some (c.toNat - 'A'.toNat + 10)
  else none

/-- `u8::from_str_radix(_, 16)` on a slice of two one-byte characters. The
standard parser accepts a leading plus sign. -/
def fromStrRadix16 (a b : Char) : Option Byte :=
  if a = '+' then (hexDigit b).map (Fin.ofNat 256)
  else do
    let hi ← hexDigit a
    let lo ← hexDigit b
    return Fin.ofNat 256 (hi * 16 + lo)

/-- The slot loop of `unhex`. The outer `none` is a panic: a slice bound that
falls inside a character, or past the end of the text. -/
def unhexSlots (s : Text) : (n : Nat) → Text → Option (Except SummError (List.Vector Byte n))
  | 0, _ => some (.ok .nil)
  | _ + 1, [] => none
  | n + 1, a :: rest =>
    if a.utf8Size = 1 then
      match rest with
      | [] => none
      | b :: rest =>
        if b.utf8Size = 1 then
          match fromStrRadix16 a b with
          | some v => (unhexSlots s n rest).map fun r => r.map (List.Vector.cons v)
          | none => some (.error (.invalidDigest
              s!"invalid hex in {String.ofList s}: invalid digit found in string"))
        else none
    else if a.utf8Size = 2 then
      some (.error (.invalidDigest
        s!"invalid hex in {String.ofList s}: invalid digit found in string"))
    else none

def unhex (n : Nat) (hex s : Text) : Option (Except SummError (List.Vector Byte n)) :=
  if byteLen hex ≠ n * 2 then
    some (.error (.invalidDigest
      s!"expected {n * 2} hex chars, got {byteLen hex}: {String.ofList s}"))
  else unhexSlots s n hex

/-- `Digest::from_str`; the outer `none` is a panic. -/
def fromStr (s : Text) : Option (Except SummError Digest) :=
  match splitOnce ':' s with
  | none => some (.error (.invalidDigest s!"missing algorithm separator: {String.ofList s}"))
  | some (algo, hex) =>
    if algo = "sha256".toList then (unhex 32 hex s).map fun r => r.map sha256
    else if algo = "sha512".toList then (unhex 64 hex s).map fun r => r.map sha512
    else some (.error (.invalidDigest s!"unsupported algorithm {repr (String.ofList algo)}"))

theorem unhexSlots_isSome {s hex : Text} {n : Nat} (ascii : IsAscii hex)
    (len : hex.length = n * 2) : (unhexSlots s n hex).isSome := by
  induction n generalizing hex with
  | zero => rfl
  | succ n ih =>
    obtain - | ⟨a, - | ⟨b, hex⟩⟩ := hex
    · simp only [List.length_nil] at len
      omega
    · simp only [List.length_cons, List.length_nil] at len
      omega
    · have rest : IsAscii hex := fun c hc => ascii c (by simp [hc])
      simp only [List.length_cons] at len
      simp only [unhexSlots, ascii a (by simp), ascii b (by simp), if_true]
      split
      · rw [Option.isSome_map]
        exact ih rest (by omega)
      · rfl

theorem unhex_isSome {n : Nat} {hex s : Text} (ascii : IsAscii hex) : (unhex n hex s).isSome := by
  unfold unhex
  split
  · rfl
  · rename_i len
    rw [byteLen_of_ascii ascii] at len
    exact unhexSlots_isSome ascii (not_not.mp len)

/-- Parsing an ASCII text does not panic. -/
theorem fromStr_isSome {s : Text} (ascii : IsAscii s) : (fromStr s).isSome := by
  unfold fromStr
  split
  · rfl
  · rename_i algo hex hs
    have hexAscii : IsAscii hex := fun c hc => ascii c (mem_splitOnce hs hc)
    split
    · rw [Option.isSome_map]
      exact unhex_isSome hexAscii
    · split
      · rw [Option.isSome_map]
        exact unhex_isSome hexAscii
      · rfl

def hexChar (n : Nat) : Char := "0123456789abcdef".toList.getD n '0'

/-- The text form: algorithm, colon, lower-case hex. -/
def display (d : Digest) : Text :=
  d.algorithm ++ ':' :: d.raw.flatMap fun b => [hexChar (b.val / 16), hexChar (b.val % 16)]

@[simp] theorem encode_length (d : Digest) : d.encode.length = d.encodedLen := by
  cases d <;> simp [encode, encodedLen, Nat.add_comm]

theorem encodedLenOf_algoByte (d : Digest) : encodedLenOf d.algoByte = some d.encodedLen := by
  cases d <;> simp [encodedLenOf, algoByte, encodedLen, raw, ALGO_SHA256, ALGO_SHA512]

/-- An encoded digest tells where it ends. -/
theorem encode_append_inj {d e : Digest} {u v : Bytes} (h : d.encode ++ u = e.encode ++ v) :
    d = e ∧ u = v := by
  have halgo : d.algoByte = e.algoByte := (List.cons.inj h).1
  have hlen : d.encode.length = e.encode.length := by
    have := encodedLenOf_algoByte d
    rw [halgo, encodedLenOf_algoByte e] at this
    simpa using (Option.some.inj this).symm
  obtain ⟨henc, huv⟩ := List.append_inj h hlen
  refine ⟨?_, huv⟩
  cases d <;> cases e
  · exact congrArg sha256 (List.Vector.toList_injective (List.cons.inj henc).2)
  · exact absurd halgo (by simp [algoByte, ALGO_SHA256, ALGO_SHA512])
  · exact absurd halgo (by simp [algoByte, ALGO_SHA256, ALGO_SHA512])
  · exact congrArg sha512 (List.Vector.toList_injective (List.cons.inj henc).2)

theorem encode_injective {d e : Digest} (h : d.encode = e.encode) : d = e :=
  (encode_append_inj (u := []) (v := []) (by simpa using h)).1

theorem decode_encode (d : Digest) (rest : Bytes) :
    decode (d.encode ++ rest) = some (d, d.encodedLen) := by
  cases d with
  | sha256 b =>
    have hb : b.toList.length = 32 := b.toList_length
    simp only [encode, algoByte, raw, List.cons_append, decode, if_true, encodedLen, hb]
    rw [dif_pos (by simp [hb])]
    congr 2
    congr 1
    apply List.Vector.toList_injective
    exact List.take_left' hb
  | sha512 b =>
    have hb : b.toList.length = 64 := b.toList_length
    simp only [encode, algoByte, raw, List.cons_append, decode, encodedLen, hb]
    rw [if_neg (by decide), if_pos trivial, dif_pos (by simp [hb])]
    congr 2
    congr 1
    apply List.Vector.toList_injective
    exact List.take_left' hb

end Digest

/-- Unix milliseconds, a 64-bit count. -/
structure Timestamp where
  millis : Nat
  fits : millis < 2 ^ 64
  deriving DecidableEq

namespace Timestamp

/-- For a stored record, every one of which is a second's resolution. -/
def secs (t : Timestamp) : Nat := t.millis / 1000

/-- `from_secs`, saturating. -/
def fromSecs (secs : Nat) : Timestamp := ⟨min (secs * 1000) (2 ^ 64 - 1), by omega⟩

@[ext] theorem ext {a b : Timestamp} (h : a.millis = b.millis) : a = b := by
  cases a; cases b; cases h; rfl

/-- A whole number of seconds read off a clock survives the conversion back. -/
theorem secs_fromSecs {t : Timestamp} {n : Nat} (h : n ≤ t.secs) : (fromSecs n).secs = n := by
  have := t.fits
  have hn : n * 1000 ≤ t.millis := by
    unfold secs at h
    omega
  simp only [secs, fromSecs]
  omega

end Timestamp

end Summ
