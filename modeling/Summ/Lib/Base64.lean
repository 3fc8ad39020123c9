import Summ.Lib.Bytes

/-!
# Base64

Groups of three bytes as four values below 64, written in the standard
alphabet. `Groups` says what a row of values stands for when the bits a short
last group leaves over are ignored; `values` is the row whose left-over bits
are zero.
-/

namespace Base64

/-- The character of a value below 64. -/
def digit (v : Nat) : Char :=
  "ABCDEFGHIJKLMNOPQRSTUVWXYZabcdefghijklmnopqrstuvwxyz0123456789+/".toList.getD v '='

/-- Its byte. -/
def code (v : Nat) : Byte := Fin.ofNat 256 (digit v).toNat

/-- The bytes a row of values stands for, left-over bits ignored. -/
inductive Groups : List Nat → Bytes → Prop
  | nil : Groups [] []
  | two {a b : Nat} {x : Byte} (value : (a * 64 + b) / 16 = x.val) : Groups [a, b] [x]
  | three {a b c : Nat} {x y : Byte} (value : ((a * 64 + b) * 64 + c) / 4 = x.val * 256 + y.val) :
      Groups [a, b, c] [x, y]
  | four {a b c d : Nat} {x y z : Byte} {vs : List Nat} {out : Bytes}
      (value : ((a * 64 + b) * 64 + c) * 64 + d = (x.val * 256 + y.val) * 256 + z.val)
      (rest : Groups vs out) : Groups (a :: b :: c :: d :: vs) (x :: y :: z :: out)

/-- A text in the alphabet, padded or not, and the bytes it stands for. -/
def Reads (t : List Char) (out : Bytes) : Prop :=
  ∃ (vs : List Nat) (pad : List Char), t = vs.map digit ++ pad ∧
    pad ∈ [[], ['='], ['=', '=']] ∧ (∀ v ∈ vs, v < 64) ∧ Groups vs out

/-- The values of a byte string, its left-over bits zero. -/
def values : Bytes → List Nat
  | x :: y :: z :: rest =>
    x.val / 4 :: (x.val % 4 * 16 + y.val / 16) :: (y.val % 16 * 4 + z.val / 64) :: z.val % 64 ::
      values rest
  | [x, y] => [x.val / 4, x.val % 4 * 16 + y.val / 16, y.val % 16 * 4]
  | [x] => [x.val / 4, x.val % 4 * 16]
  | [] => []

def padding : Bytes → List Char
  | _ :: _ :: _ :: rest => padding rest
  | [_, _] => ['=']
  | [_] => ['=', '=']
  | [] => []

/-- The standard encoding without its padding. -/
def unpadded (b : Bytes) : List Char := (values b).map digit

/-- The standard encoding. -/
def encode (b : Bytes) : List Char := unpadded b ++ padding b

theorem utf8_digits {vs : List Nat} (h : ∀ v ∈ vs, v < 64) :
    Bytes.utf8 (vs.map digit) = vs.map code := by
  have one : ∀ v < 64, Bytes.utf8 [digit v] = [code v] := by decide +kernel
  induction vs with
  | nil => rfl
  | cons v vs ih =>
    obtain ⟨hv, h⟩ := List.forall_mem_cons.mp h
    rw [List.map_cons, List.map_cons, ← List.singleton_append, Bytes.utf8_append, one v hv, ih h,
      List.singleton_append]

theorem code_ne_pad {v : Nat} (h : v < 64) : code v ≠ 61 := by
  have table : ∀ v < 64, code v ≠ 61 := by decide +kernel
  exact table v h

theorem values_lt (b : Bytes) : ∀ v ∈ values b, v < 64 := by
  fun_induction values b with
  | case1 x y z rest ih =>
    have := x.isLt
    have := y.isLt
    have := z.isLt
    simp only [List.forall_mem_cons]
    exact ⟨by omega, by omega, by omega, by omega, ih⟩
  | case2 x y =>
    have := x.isLt
    have := y.isLt
    simp only [List.forall_mem_cons]
    exact ⟨by omega, by omega, by omega, by simp⟩
  | case3 x =>
    have := x.isLt
    simp only [List.forall_mem_cons]
    exact ⟨by omega, by omega, by simp⟩
  | case4 => simp

theorem groups_values (b : Bytes) : Groups (values b) b := by
  fun_induction values b with
  | case1 x y z rest ih =>
    have := x.isLt
    have := y.isLt
    have := z.isLt
    exact .four (by omega) ih
  | case2 x y =>
    have := x.isLt
    have := y.isLt
    exact .three (by omega)
  | case3 x =>
    have := x.isLt
    exact .two (by omega)
  | case4 => exact .nil

theorem padding_mem (b : Bytes) : padding b ∈ [[], ['='], ['=', '=']] := by
  fun_induction padding b with
  | case1 x y z rest ih => exact ih
  | _ => simp

/-- The standard encoding of a byte string stands for it, with its padding and without. -/
theorem reads_encode (b : Bytes) : Reads (encode b) b :=
  ⟨values b, padding b, rfl, padding_mem b, values_lt b, groups_values b⟩

theorem reads_unpadded (b : Bytes) : Reads (unpadded b) b :=
  ⟨values b, [], (List.append_nil _).symm, by simp, values_lt b, groups_values b⟩

end Base64
