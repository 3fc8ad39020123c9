import Summ.Registry.DigestText
import Summ.Registry.Sessions

/-!
# Upload ids

A session's key is sixteen bytes, and its staging file is named by a text. The
parser takes hyphens anywhere and either case; only the form that is minted is
the name of a file.
-/

namespace Summ

-- What holds of all members of a list is decided along the list.
attribute [local instance (high)] List.decidableBAll

/-- An upload id that can be a filename. -/
structure UploadId where
  text : Text
  short : byteLen text ≤ 128
  plain : text ≠ [] ∧ text ≠ ['.'] ∧ text ≠ ['.', '.']
  unreserved : ∀ c ∈ text, (c.isAlphanum || ['-', '_', '.', '~'].contains c) = true

namespace UploadId

instance (text : Text) :
    Decidable (∀ c ∈ text, (c.isAlphanum || ['-', '_', '.', '~'].contains c) = true) :=
  List.decidableBAll _ text

/-- `UploadId::new`. -/
def new (text : Text) : Option UploadId :=
  if h : byteLen text ≤ 128 ∧ (text ≠ [] ∧ text ≠ ['.'] ∧ text ≠ ['.', '.']) ∧
      ∀ c ∈ text, (c.isAlphanum || ['-', '_', '.', '~'].contains c) = true then
    some ⟨text, h.1, h.2.1, h.2.2⟩
  else none

theorem text_of_new {text : Text} {id : UploadId} (h : new text = some id) : id.text = text := by
  rw [new] at h
  split at h
  · cases h
    rfl
  · cases h

end UploadId

/-- One byte of the text form, with the hyphen before it. -/
def formatSlot (slot : Byte × Nat) : Text :=
  (if [4, 6, 8, 10].contains slot.2 then ['-'] else []) ++ Digest.hexPair slot.1

/-- `format_upload_id`. -/
def formatUploadId (key : UploadKey) : Text := key.toList.zipIdx.flatMap formatSlot

/-- The slot loop of `parse_upload_id`. -/
def readSlots : (n : Nat) → Text → Option (List.Vector Byte n)
  | 0, [] => some .nil
  | n + 1, hi :: lo :: nibbles =>
    match Digest.hexDigit hi, Digest.hexDigit lo with
    | some hi, some lo => (readSlots n nibbles).map (List.Vector.cons (Fin.ofNat 256 (hi * 16 + lo)))
    | _, _ => none
  | _, _ => none

/-- `parse_upload_id`. -/
def parseUploadId (id : Text) : Option UploadKey := readSlots 16 (id.filter (· ≠ '-'))

/-- The digits of the minted form. -/
def digitsOf (bytes : Bytes) : Text := bytes.flatMap Digest.hexPair

theorem hexPair_digits (b : Byte) : Digest.hexChar (b.val / 16) ≠ '-' ∧
    Digest.hexChar (b.val % 16) ≠ '-' ∧
    ∃ hi lo, Digest.hexDigit (Digest.hexChar (b.val / 16)) = some hi ∧
      Digest.hexDigit (Digest.hexChar (b.val % 16)) = some lo ∧
      Fin.ofNat 256 (hi * 16 + lo) = b := by
  have table : ∀ b : Byte, Digest.hexChar (b.val / 16) ≠ '-' ∧ Digest.hexChar (b.val % 16) ≠ '-' ∧
      Digest.hexDigit (Digest.hexChar (b.val / 16)) = some (b.val / 16) ∧
      Digest.hexDigit (Digest.hexChar (b.val % 16)) = some (b.val % 16) := by
    decide +kernel
  obtain ⟨first, second, high, low⟩ := table b
  refine ⟨first, second, b.val / 16, b.val % 16, high, low, Fin.ext ?_⟩
  change (b.val / 16 * 16 + b.val % 16) % 256 = b.val
  have bound := b.isLt
  omega

theorem filter_formatSlots (bytes : Bytes) (i : Nat) :
    ((bytes.zipIdx i).flatMap formatSlot).filter (· ≠ '-') = digitsOf bytes := by
  induction bytes generalizing i with
  | nil => rfl
  | cons b bytes ih =>
    obtain ⟨first, second, -⟩ := hexPair_digits b
    have slot : (formatSlot (b, i)).filter (· ≠ '-') = Digest.hexPair b := by
      rw [formatSlot]
      split <;> simp [Digest.hexPair, first, second]
    rw [List.zipIdx_cons, List.flatMap_cons, List.filter_append, ih, slot]
    rfl

theorem readSlots_digits {n : Nat} (v : List.Vector Byte n) : readSlots n (digitsOf v.toList) = some v := by
  induction v using List.Vector.inductionOn with
  | nil => rfl
  | cons ih =>
    rename_i n b w
    obtain ⟨-, -, hi, lo, high, low, value⟩ := hexPair_digits b
    rw [digitsOf, List.Vector.toList_cons, List.flatMap_cons, Digest.hexPair, List.cons_append,
      List.cons_append, List.nil_append, readSlots, high, low]
    dsimp only
    rw [show w.toList.flatMap Digest.hexPair = digitsOf w.toList from rfl, ih, value]
    rfl

/-- What is minted is read back. -/
theorem parse_format (key : UploadKey) : parseUploadId (formatUploadId key) = some key := by
  rw [parseUploadId, formatUploadId, filter_formatSlots, readSlots_digits]

theorem format_injective : Function.Injective formatUploadId := fun a b h => by
  have read := parse_format a
  rw [h, parse_format] at read
  exact (Option.some.inj read).symm

theorem formatSlot_plain (slot : Byte × Nat) : ∀ c ∈ formatSlot slot,
    c.utf8Size = 1 ∧ (c.isAlphanum || ['-', '_', '.', '~'].contains c) = true := by
  have table : ∀ b : Byte, ∀ c ∈ '-' :: Digest.hexPair b,
      c.utf8Size = 1 ∧ (c.isAlphanum || ['-', '_', '.', '~'].contains c) = true := by
    decide +kernel
  intro c hc
  refine table slot.1 c ?_
  rw [formatSlot] at hc
  split at hc
  · exact hc
  · exact List.mem_cons_of_mem _ hc

theorem formatSlots_length (bytes : Bytes) (i : Nat) :
    ((bytes.zipIdx i).flatMap formatSlot).length ≤ 3 * bytes.length := by
  induction bytes generalizing i with
  | nil => exact Nat.le_refl 0
  | cons b bytes ih =>
    have slot : (formatSlot (b, i)).length ≤ 3 := by
      rw [formatSlot]
      split <;> simp [Digest.hexPair]
    have rest := ih (i + 1)
    rw [List.zipIdx_cons, List.flatMap_cons, List.length_append, List.length_cons]
    omega

/-- What is minted names a file. -/
theorem new_format (key : UploadKey) : ∃ id, UploadId.new (formatUploadId key) = some id ∧
    id.text = formatUploadId key := by
  have plain (c : Char) (hc : c ∈ formatUploadId key) :
      c.utf8Size = 1 ∧ (c.isAlphanum || ['-', '_', '.', '~'].contains c) = true := by
    obtain ⟨slot, -, hc⟩ := List.mem_flatMap.mp hc
    exact formatSlot_plain slot c hc
  have short : byteLen (formatUploadId key) ≤ 128 := by
    rw [byteLen_of_ascii fun c hc => (plain c hc).1]
    have bound := formatSlots_length key.toList 0
    rw [List.Vector.toList_length] at bound
    exact Nat.le_trans bound (by decide)
  have read := parse_format key
  have named : formatUploadId key ≠ [] ∧ formatUploadId key ≠ ['.'] ∧
      formatUploadId key ≠ ['.', '.'] := by
    refine ⟨fun h => ?_, fun h => ?_, fun h => ?_⟩ <;> rw [h] at read <;> cases read
  refine ⟨⟨_, short, named, fun c hc => (plain c hc).2⟩, ?_, rfl⟩
  rw [UploadId.new, dif_pos ⟨short, named, fun c hc => (plain c hc).2⟩]

end Summ
