import Mathlib.Algebra.Order.Ring.Nat
import Mathlib.Data.List.Lex
import Mathlib.Order.Fin.Basic
import Mathlib.Data.Fin.Basic

/-!
# Byte strings in lexicographic order

* `be w n`: the `w`-byte big-endian form of `n`, with its length; below
  `256 ^ w` the encoding is injective and keeps the order;
* `utf8`: the UTF-8 bytes of a text, injective, and free of NUL where the text is;
* prefixes against the order: a prefix comes first (`prefix_le`), and the
  strings that start with it lie together (`startsWith_convex`);
* `append_inj_of_delimited`: a run without a delimiter is recovered from what
  follows it.
-/

/-- One constant that the byte literals of every module refer to. -/
instance byteNeZero : NeZero 256 := ⟨Nat.succ_ne_zero 255⟩

abbrev Byte := Fin 256

abbrev Bytes := List Byte

/-- By name, since membership in a list of byte constants asks for it at every use. -/
instance Byte.lawfulBEq : LawfulBEq Byte := inferInstance

namespace Bytes

/-! ## Big-endian numbers -/

/-- The last `w` base-256 digits of `n`, most significant first. -/
def be : Nat → Nat → Bytes
  | 0, _ => []
  | w + 1, n => be w (n / 256) ++ [Fin.ofNat 256 n]

@[simp] theorem be_length (w n : Nat) : (be w n).length = w := by
  induction w generalizing n with
  | zero => rfl
  | succ w ih => simp [be, ih]

theorem be_inj {w m n : Nat} (hm : m < 256 ^ w) (hn : n < 256 ^ w) (h : be w m = be w n) :
    m = n := by
  induction w generalizing m n with
  | zero => simp at hm hn; omega
  | succ w ih =>
    have hlen : (be w (m / 256)).length = (be w (n / 256)).length := by simp
    obtain ⟨high, low⟩ := List.append_inj h hlen
    have hd : m / 256 = n / 256 :=
      ih (by rw [Nat.pow_succ] at hm; omega) (by rw [Nat.pow_succ] at hn; omega) high
    have hr : m % 256 = n % 256 := by
      simpa only [List.cons.injEq, and_true, Fin.ofNat, Fin.mk.injEq] using low
    omega

/-- The number big-endian bytes spell. -/
def ofBe (b : Bytes) : Nat := b.foldl (fun n x => n * 256 + x.val) 0

theorem ofBe_be {w n : Nat} (h : n < 256 ^ w) : ofBe (be w n) = n := by
  induction w generalizing n with
  | zero =>
    rw [Nat.pow_zero] at h
    exact (Nat.lt_one_iff.mp h).symm
  | succ w ih =>
    have high : n / 256 < 256 ^ w := by
      rw [Nat.pow_succ] at h
      omega
    rw [be, ofBe, List.foldl_append, ← ofBe, ih high]
    change n / 256 * 256 + n % 256 = n
    omega

/-! ## Texts -/

/-- The UTF-8 bytes of a text. -/
def utf8 (t : List Char) : Bytes := (t.flatMap String.utf8EncodeChar).map UInt8.toFin

@[simp] theorem utf8_nil : utf8 [] = [] := rfl

theorem utf8_append (s t : List Char) : utf8 (s ++ t) = utf8 s ++ utf8 t := by
  simp [utf8]

theorem utf8_flatMap {α : Type*} (f : α → List Char) (l : List α) :
    utf8 (l.flatMap f) = l.flatMap fun x => utf8 (f x) := by
  induction l with
  | nil => rfl
  | cons x l ih => rw [List.flatMap_cons, utf8_append, ih, List.flatMap_cons]

theorem utf8_injective {s t : List Char} (h : utf8 s = utf8 t) : s = t := by
  have bytes : s.flatMap String.utf8EncodeChar = t.flatMap String.utf8EncodeChar :=
    List.map_injective_iff.mpr (fun a b hab => UInt8.toFin_inj.mp hab) h
  have texts : String.ofList s = String.ofList t := by
    apply String.toByteArray_inj.mp
    rw [String.toByteArray_ofList, String.toByteArray_ofList, List.utf8Encode, List.utf8Encode,
      bytes]
  simpa using congrArg String.toList texts

/-- `str::from_utf8`. -/
def ofUtf8 (b : Bytes) : Option (List Char) :=
  (b.map UInt8.ofFin).toByteArray.utf8Decode?.map Array.toList

theorem ofFin_utf8 (t : List Char) : ((utf8 t).map UInt8.ofFin).toByteArray = t.utf8Encode := by
  rw [utf8, List.map_map, List.utf8Encode]
  congr 1
  exact List.map_id'' (fun _ => rfl) _

@[simp] theorem ofUtf8_utf8 (t : List Char) : ofUtf8 (utf8 t) = some t := by
  rw [ofUtf8, ofFin_utf8, List.utf8Decode?_utf8Encode, Option.map_some]

/-- A text is read off its own bytes alone. -/
theorem ofUtf8_iff {b : Bytes} {t : List Char} : ofUtf8 b = some t ↔ b = utf8 t := by
  constructor
  · intro h
    obtain ⟨chars, hchars, rfl⟩ := Option.map_eq_some_iff.mp h
    have back := ByteArray.utf8Encode_get_utf8Decode? (b := (b.map UInt8.ofFin).toByteArray)
      (h := by rw [hchars]; rfl)
    simp only [hchars, Option.get_some] at back
    rw [← ofFin_utf8, List.toByteArray_inj] at back
    have injective : Function.Injective UInt8.ofFin := fun x y hxy => congrArg UInt8.toFin hxy
    exact (injective.list_map back).symm
  · rintro rfl
    exact ofUtf8_utf8 t

/-- A continuation byte from `lo` to `hi`. -/
def continues (lo hi : Byte) (b : Option Byte) : Bool := b.any fun b => lo ≤ b && b ≤ hi

/-- The length of the sequence at the head, and whether it is a character's; a
broken one ends before the byte that does not go on with it. -/
def headSequence : Bytes → Bool × Nat
  | [] => (false, 1)
  | first :: rest =>
    if first < 0x80 then (true, 1)
    else if 0xC2 ≤ first && first ≤ 0xDF then
      if continues 0x80 0xBF rest[0]? then (true, 2) else (false, 1)
    else if 0xE0 ≤ first && first ≤ 0xEF then
      let lo := if first = 0xE0 then 0xA0 else 0x80
      let hi := if first = 0xED then 0x9F else 0xBF
      if !continues lo hi rest[0]? then (false, 1)
      else if continues 0x80 0xBF rest[1]? then (true, 3) else (false, 2)
    else if 0xF0 ≤ first && first ≤ 0xF4 then
      let lo := if first = 0xF0 then 0x90 else 0x80
      let hi := if first = 0xF4 then 0x8F else 0xBF
      if !continues lo hi rest[0]? then (false, 1)
      else if !continues 0x80 0xBF rest[1]? then (false, 2)
      else if continues 0x80 0xBF rest[2]? then (true, 4) else (false, 3)
    else (false, 1)

/-- Broken sequences become replacement characters. -/
def replaceBroken (b : Bytes) : List Char :=
  match b with
  | [] => []
  | first :: rest =>
    match headSequence (first :: rest) with
    | (true, n) =>
      ((ofUtf8 ((first :: rest).take n)).getD []) ++ replaceBroken (rest.drop (n - 1))
    | (false, n) => Char.ofNat 0xFFFD :: replaceBroken (rest.drop (n - 1))
termination_by b.length
decreasing_by all_goals simp only [List.length_cons, List.length_drop]; omega

/-- `String::from_utf8_lossy`. -/
def ofUtf8Lossy (b : Bytes) : List Char := (ofUtf8 b).getD (replaceBroken b)

@[simp] theorem ofUtf8Lossy_utf8 (t : List Char) : ofUtf8Lossy (utf8 t) = t := by
  rw [ofUtf8Lossy, ofUtf8_utf8, Option.getD_some]

/-- An ASCII byte stands for its own character alone. -/
theorem mem_utf8EncodeChar {c : Char} {b : UInt8} (h : b ∈ String.utf8EncodeChar c)
    (ascii : b.toNat < 128) : c.toNat = b.toNat := by
  have bound : c.toNat < 0x110000 := by
    have hv := c.valid
    rcases hv with hv | hv
    · change c.toNat < _ at hv; omega
    · exact hv.2
  unfold String.utf8EncodeChar at h
  simp only [Char.toNat_val] at h
  have value {n : Nat} (hn : b = UInt8.ofNat n) : n % 256 < 128 ∧ b.toNat = n % 256 := by
    subst hn
    exact ⟨by simpa using ascii, by simp⟩
  split at h
  · obtain ⟨low, same⟩ := value (List.mem_singleton.mp h)
    omega
  · split at h
    · simp only [List.mem_cons, List.not_mem_nil, or_false] at h
      rcases h with h | h <;> obtain ⟨low, -⟩ := value h <;> omega
    · split at h
      · simp only [List.mem_cons, List.not_mem_nil, or_false] at h
        rcases h with h | h | h <;> obtain ⟨low, -⟩ := value h <;> omega
      · simp only [List.mem_cons, List.not_mem_nil, or_false] at h
        rcases h with h | h | h | h <;> obtain ⟨low, -⟩ := value h <;> omega

theorem mem_utf8_ascii {t : List Char} {b : Byte} (h : b ∈ utf8 t) (ascii : b.val < 128) :
    Char.ofNat b.val ∈ t := by
  obtain ⟨u, hu, rfl⟩ := List.mem_map.mp h
  obtain ⟨c, hc, huc⟩ := List.mem_flatMap.mp hu
  have same := mem_utf8EncodeChar huc ascii
  have value : Char.ofNat u.toFin.val = c := by
    change Char.ofNat u.toNat = c
    rw [← same, Char.ofNat_toNat]
  rw [value]
  exact hc

theorem utf8EncodeChar_ne_zero {c : Char} (h : c ≠ '\x00') : 0 ∉ String.utf8EncodeChar c := by
  have positive : c.toNat ≠ 0 := by
    intro hz
    apply h
    apply Char.ext
    exact UInt32.toNat_inj.mp hz
  have bound : c.toNat < 1114112 := by
    rcases c.valid with hv | hv
    · change c.toNat < _ at hv; omega
    · exact hv.2
  have small {n : Nat} (hn : n % 256 ≠ 0) : (0 : UInt8) ≠ UInt8.ofNat n := by
    intro hz
    apply hn
    have := congrArg UInt8.toNat hz
    simpa using this.symm
  unfold String.utf8EncodeChar
  simp only [Char.toNat_val]
  split
  · simpa using small (by omega)
  · split
    · simp only [List.mem_cons, List.not_mem_nil, or_false, not_or]
      exact ⟨small (by omega), small (by omega)⟩
    · split
      · simp only [List.mem_cons, List.not_mem_nil, or_false, not_or]
        exact ⟨small (by omega), small (by omega), small (by omega)⟩
      · simp only [List.mem_cons, List.not_mem_nil, or_false, not_or]
        exact ⟨small (by omega), small (by omega), small (by omega), small (by omega)⟩

theorem zero_not_mem_utf8 {t : List Char} (h : '\x00' ∉ t) : (0 : Byte) ∉ utf8 t := by
  intro hz
  obtain ⟨b, hb, he⟩ := List.mem_map.mp hz
  obtain ⟨c, hc, hbc⟩ := List.mem_flatMap.mp hb
  have hb0 : b = 0 := UInt8.toFin_inj.mp he
  subst hb0
  exact utf8EncodeChar_ne_zero (fun hc0 => h (hc0 ▸ hc)) hbc

/-! ## Prefixes and the order -/

section Order
variable {α : Type*} [LinearOrder α]

theorem cons_le_cons {a b : α} {s t : List α} :
    a :: s ≤ b :: t ↔ a < b ∨ a = b ∧ s ≤ t := by
  rw [← not_lt, List.cons_lt_cons_iff, ← not_lt]
  rcases lt_trichotomy a b with h | rfl | h
  · simp [h, not_lt_of_gt h, ne_of_gt h]
  · simp
  · simp [h, not_lt_of_gt h, ne_of_gt h]

theorem prefix_le {p k : List α} (h : p <+: k) : p ≤ k := by
  induction p generalizing k with
  | nil => exact not_lt.mp (List.not_lt_nil k)
  | cons a p ih =>
    obtain ⟨rest, rfl⟩ := h
    rw [List.cons_append, cons_le_cons]
    exact Or.inr ⟨rfl, ih (List.prefix_append p rest)⟩

theorem append_lt_append_left {p a b : List α} : p ++ a < p ++ b ↔ a < b := by
  induction p with
  | nil => rfl
  | cons x p ih =>
    rw [List.cons_append, List.cons_append, List.cons_lt_cons_iff, ih]
    simp

theorem append_le_append_left {p a b : List α} : p ++ a ≤ p ++ b ↔ a ≤ b := by
  rw [← not_lt, append_lt_append_left, not_lt]

/-- Lists of one length compare as their longer forms do, where they differ. -/
theorem append_lt_append_of_lt {a b : List α}
    (length : a.length = b.length) (h : a < b) (u v : List α) : a ++ u < b ++ v := by
  induction a generalizing b with
  | nil =>
    rw [List.length_nil, eq_comm, List.length_eq_zero_iff] at length
    exact absurd h (by simp [length])
  | cons x a ih =>
    cases b with
    | nil => simp at length
    | cons y b =>
      rw [List.cons_append, List.cons_append, List.cons_lt_cons_iff]
      rcases List.cons_lt_cons_iff.mp h with lt | ⟨rfl, lt⟩
      · exact Or.inl lt
      · exact Or.inr ⟨rfl, ih (by simpa using length) lt⟩

/-- Lists of one length compare as their codes do, where a code keeps the order
and all codes are of one length. -/
theorem flatMap_lt_flatMap {β : Type*} [LinearOrder β] {code : β → List α}
    (mono : ∀ x y, x < y → code x < code y) (width : ∀ x y, (code x).length = (code y).length)
    {a b : List β} (length : a.length = b.length) : a.flatMap code < b.flatMap code ↔ a < b := by
  induction a generalizing b with
  | nil =>
    rw [List.length_nil, eq_comm, List.length_eq_zero_iff] at length
    simp [length]
  | cons x a ih =>
    cases b with
    | nil => simp at length
    | cons y b =>
      have rest : a.length = b.length := by simpa using length
      rw [List.flatMap_cons, List.flatMap_cons, List.cons_lt_cons_iff]
      rcases lt_trichotomy x y with lt | rfl | lt
      · simp [lt, append_lt_append_of_lt (width x y) (mono x y lt)]
      · simp [append_lt_append_left, ih rest]
      · have above := append_lt_append_of_lt (width y x) (mono y x lt) (b.flatMap code)
          (a.flatMap code)
        simp [not_lt_of_gt lt, ne_of_gt lt, le_of_lt above]

/-- What lies between two strings that start with `p` starts with `p`. -/
theorem startsWith_convex {p a b c : List α} (ha : p <+: a) (hc : p <+: c) (hab : a ≤ b)
    (hbc : b ≤ c) : p <+: b := by
  induction p generalizing a b c with
  | nil => exact List.nil_prefix
  | cons x p ih =>
    obtain ⟨a', rfl⟩ := ha
    obtain ⟨c', rfl⟩ := hc
    cases b with
    | nil => exact absurd hab (not_le.mpr (List.nil_lt_cons _ _))
    | cons y b =>
      rw [List.cons_append, cons_le_cons] at hab hbc
      rcases hab with hab | ⟨rfl, hab⟩
      · rcases hbc with hbc | ⟨rfl, _⟩
        · exact absurd (lt_trans hab hbc) (lt_irrefl x)
        · exact absurd hab (lt_irrefl _)
      · rcases hbc with hbc | ⟨_, hbc⟩
        · exact absurd hbc (lt_irrefl _)
        · exact List.cons_prefix_cons.mpr
            ⟨rfl, ih (List.prefix_append p a') (List.prefix_append p c') hab hbc⟩

end Order

/-- Big-endian forms compare as the numbers do. -/
theorem be_lt_be {w m n : Nat} (hn : n < 256 ^ w) (h : m < n) : be w m < be w n := by
  induction w generalizing m n with
  | zero => simp at hn; omega
  | succ w ih =>
    have high : n / 256 < 256 ^ w := by
      rw [Nat.pow_succ] at hn
      omega
    rw [be, be]
    by_cases hd : m / 256 < n / 256
    · exact append_lt_append_of_lt (by simp) (ih high hd) _ _
    · have same : m / 256 = n / 256 := by omega
      have digit : (Fin.ofNat 256 m) < (Fin.ofNat 256 n) := by
        rw [Fin.lt_def]
        change m % 256 < n % 256
        omega
      rw [same]
      exact append_lt_append_left.mpr (List.cons_lt_cons_iff.mpr (Or.inl digit))

/-- The delimiter `z` ends a run that does not contain it. -/
theorem append_inj_of_delimited {α : Type*} {z : α} {s t u v : List α} (hs : z ∉ s) (ht : z ∉ t)
    (h : s ++ z :: u = t ++ z :: v) : s = t ∧ u = v := by
  induction s generalizing t with
  | nil =>
    cases t with
    | nil => exact ⟨rfl, by simpa using h⟩
    | cons y t =>
      simp only [List.nil_append, List.cons_append, List.cons.injEq] at h
      exact absurd (List.mem_cons.mpr (Or.inl h.1)) ht
  | cons x s ih =>
    cases t with
    | nil =>
      simp only [List.nil_append, List.cons_append, List.cons.injEq] at h
      exact absurd (List.mem_cons.mpr (Or.inl h.1.symm)) hs
    | cons y t =>
      simp only [List.cons_append, List.cons.injEq] at h
      obtain ⟨rfl, hrest⟩ := h
      obtain ⟨rfl, huv⟩ := ih (fun hm => hs (List.mem_cons_of_mem _ hm))
        (fun hm => ht (List.mem_cons_of_mem _ hm)) hrest
      exact ⟨rfl, huv⟩

end Bytes
