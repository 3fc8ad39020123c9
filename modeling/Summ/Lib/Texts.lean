import Mathlib.Algebra.Group.Nat.Defs
import Mathlib.Data.List.DropRight
import Mathlib.Tactic.Common

/-!
# Texts that are trimmed and read as numbers

`trim` is `str::trim`, and `parseU64` is `str::parse::<u64>`, which takes a plus
sign before the digits.
-/

namespace Texts

/-- The characters Unicode has as white space. -/
def isWhitespace (c : Char) : Bool :=
  (9 ≤ c.toNat && c.toNat ≤ 13) || (0x2000 ≤ c.toNat && c.toNat ≤ 0x200A) ||
    [0x20, 0x85, 0xA0, 0x1680, 0x2028, 0x2029, 0x202F, 0x205F, 0x3000].contains c.toNat

def trimStart (t : List Char) : List Char := t.dropWhile isWhitespace

def trimEnd (t : List Char) : List Char := t.rdropWhile isWhitespace

def trim (t : List Char) : List Char := trimEnd (trimStart t)

def Blank (t : List Char) : Prop := ∀ c ∈ t, isWhitespace c = true

/-- No white space at either end. -/
def Trimmed (t : List Char) : Prop :=
  (∀ c ∈ t.head?, isWhitespace c = false) ∧ ∀ c ∈ t.getLast?, isWhitespace c = false

theorem blank_nil : Blank [] := fun c hc => by cases hc

theorem Blank.append {s t : List Char} (hs : Blank s) (ht : Blank t) : Blank (s ++ t) := by
  intro c hc
  rcases List.mem_append.mp hc with hc | hc
  · exact hs c hc
  · exact ht c hc

theorem trimStart_blank {a t : List Char} (h : Blank a) : trimStart (a ++ t) = trimStart t :=
  List.dropWhile_append_of_pos h

theorem trimEnd_blank {t e : List Char} (h : Blank e) : trimEnd (t ++ e) = trimEnd t := by
  rw [trimEnd, List.rdropWhile, List.reverse_append,
    List.dropWhile_append_of_pos fun c hc => h c (List.mem_reverse.mp hc)]
  rfl

/-- What stands before a visible character is trimmed on its own. -/
theorem trimStart_cons {c : Char} (h : isWhitespace c = false) (s t : List Char) :
    trimStart (s ++ c :: t) = trimStart s ++ c :: t := by
  induction s with
  | nil => exact List.dropWhile_cons_of_neg (by simp [h])
  | cons x s ih =>
    by_cases hx : isWhitespace x = true
    · have drop (u : List Char) : trimStart (x :: u) = trimStart u :=
        List.dropWhile_cons_of_pos hx
      rw [List.cons_append, drop, drop, ih]
    · have keep (u : List Char) : trimStart (x :: u) = x :: u := List.dropWhile_cons_of_neg hx
      rw [List.cons_append, keep, keep, List.cons_append]

theorem trimEnd_cons {c : Char} (h : isWhitespace c = false) (s t : List Char) :
    trimEnd (s ++ c :: t) = s ++ c :: trimEnd t := by
  induction t using List.reverseRecOn with
  | nil => exact List.rdropWhile_concat_neg _ _ _ (by simp [h])
  | append_singleton t x ih =>
    have split : s ++ c :: (t ++ [x]) = (s ++ c :: t) ++ [x] := by simp
    by_cases hx : isWhitespace x = true
    · have blank : Blank [x] := by
        intro y hy
        rwa [List.mem_singleton.mp hy]
      rw [split, trimEnd_blank blank, ih, trimEnd_blank blank]
    · have keep (u : List Char) : trimEnd (u ++ [x]) = u ++ [x] :=
        List.rdropWhile_concat_neg _ _ _ hx
      rw [split, keep, keep, split]

theorem Trimmed.trim_eq {t : List Char} (h : Trimmed t) : trim t = t := by
  have start : trimStart t = t := by
    cases t with
    | nil => rfl
    | cons c t => exact List.dropWhile_cons_of_neg (by simp [h.1 c rfl])
  rw [trim, start]
  refine List.rdropWhile_eq_self_iff.mpr fun left => ?_
  simp [h.2 _ (List.getLast?_eq_some_getLast left)]

/-- A text is its trimmed form between white space. -/
theorem exists_trim (t : List Char) :
    ∃ a e, Blank a ∧ Blank e ∧ t = a ++ trim t ++ e ∧ Trimmed (trim t) := by
  have taken : Blank (t.takeWhile isWhitespace) := fun c hc => List.mem_takeWhile_imp hc
  have ended : Blank ((trimStart t).rtakeWhile isWhitespace) :=
    fun c hc => List.mem_rtakeWhile_imp hc
  refine ⟨_, _, taken, ended, ?_, ?_, ?_⟩
  · rw [trim, trimEnd, List.append_assoc, List.rdropWhile_append_rtakeWhile, trimStart,
      List.takeWhile_append_dropWhile]
  · intro c hc
    have front : trim t <+: trimStart t := List.rdropWhile_prefix _ _
    obtain ⟨rest, hrest⟩ := front
    cases ht : trim t with
    | nil => simp [ht] at hc
    | cons x u =>
      obtain rfl : x = c := by simpa [ht] using hc
      have first := List.head?_dropWhile_not isWhitespace t
      rw [show t.dropWhile isWhitespace = x :: (u ++ rest) by
        rw [← List.cons_append, ← ht, hrest]; rfl] at first
      simpa using first
  · intro c hc
    have left : trim t ≠ [] := by
      intro nil
      rw [nil] at hc
      cases hc
    have last := List.rdropWhile_last_not isWhitespace (trimStart t) left
    rw [List.getLast?_eq_some_getLast left] at hc
    cases hc
    exact Bool.eq_false_iff.mpr last

theorem trim_pad {a t e : List Char} (ha : Blank a) (ht : Trimmed t) (he : Blank e) :
    trim (a ++ t ++ e) = t := by
  rw [trim, List.append_assoc, trimStart_blank ha]
  cases t with
  | nil =>
    have none_ : trimStart e = [] := List.dropWhile_eq_nil_iff.mpr he
    rw [List.nil_append, none_]
    rfl
  | cons c t =>
    have keep : trimStart (c :: t ++ e) = c :: t ++ e :=
      List.dropWhile_cons_of_neg (by simp [ht.1 c rfl])
    have start : trimStart (c :: t) = c :: t := List.dropWhile_cons_of_neg (by simp [ht.1 c rfl])
    have whole := ht.trim_eq
    rw [trim, start] at whole
    rw [keep, trimEnd_blank he, whole]

/-- White space before a trimmed text stays, if anything does. -/
theorem exists_trimEnd_pad {d t e : List Char} (hd : Blank d) (ht : Trimmed t) (he : Blank e) :
    ∃ d', Blank d' ∧ trimEnd (d ++ t ++ e) = d' ++ t := by
  rw [trimEnd_blank he]
  cases t with
  | nil =>
    refine ⟨[], blank_nil, ?_⟩
    rw [List.append_nil, List.append_nil]
    exact List.rdropWhile_eq_nil_iff.mpr hd
  | cons c t =>
    refine ⟨d, hd, List.rdropWhile_eq_self_iff.mpr fun left => ?_⟩
    have last := ht.2 _ (List.getLast?_eq_some_getLast (List.cons_ne_nil c t))
    rw [List.getLast_append_of_ne_nil _ (List.cons_ne_nil c t), last]
    decide

theorem mem_trimStart {c : Char} {t : List Char} (h : c ∈ trimStart t) : c ∈ t :=
  (List.dropWhile_sublist _).subset h

theorem trim_trimStart (t : List Char) : trim (trimStart t) = trim t := by
  rw [trim, trimStart, trimStart, List.dropWhile_idempotent]
  rfl

/-! ## Decimal numbers -/

def isDigit (c : Char) : Bool := decide ('0' ≤ c) && decide (c ≤ '9')

def Digits (t : List Char) : Prop := ∀ c ∈ t, isDigit c = true

def pushDigit (n : Nat) (c : Char) : Nat := n * 10 + (c.toNat - '0'.toNat)

/-- The number that digits spell. -/
def decimal (t : List Char) : Nat := t.foldl pushDigit 0

/-- The digits of a 64-bit number, one after the other. -/
def readDigits : Nat → List Char → Option Nat
  | n, [] => some n
  | n, c :: t =>
    if isDigit c then if pushDigit n c < 2 ^ 64 then readDigits (pushDigit n c) t else none
    else none

/-- `str::parse::<u64>`. -/
def parseU64 (t : List Char) : Option UInt64 :=
  match t with
  | [] => none
  | '+' :: digits => if digits.isEmpty then none else (readDigits 0 digits).map UInt64.ofNat
  | t => (readDigits 0 t).map UInt64.ofNat

theorem le_foldl_pushDigit (t : List Char) (n : Nat) : n ≤ t.foldl pushDigit n := by
  induction t generalizing n with
  | nil => exact Nat.le_refl n
  | cons c t ih =>
    have first : n ≤ pushDigit n c := by
      rw [pushDigit]
      omega
    exact Nat.le_trans first (ih _)

theorem readDigits_eq_some {t : List Char} {n m : Nat} (h : n < 2 ^ 64) :
    readDigits n t = some m ↔ Digits t ∧ t.foldl pushDigit n = m ∧ m < 2 ^ 64 := by
  induction t generalizing n with
  | nil =>
    constructor
    · intro some_
      cases some_
      exact ⟨(fun c hc => nomatch hc), rfl, h⟩
    · rintro ⟨-, rfl, -⟩
      rfl
  | cons c t ih =>
    rw [readDigits, List.foldl_cons]
    have digits : Digits (c :: t) ↔ isDigit c = true ∧ Digits t := List.forall_mem_cons
    rw [digits]
    split
    · rename_i hc
      split
      · rename_i fits
        rw [ih fits, and_assoc]
        exact ⟨fun h => ⟨hc, h⟩, fun h => h.2⟩
      · rename_i big
        refine iff_of_false (by simp) ?_
        rintro ⟨-, rfl, fits⟩
        exact big (Nat.lt_of_le_of_lt (le_foldl_pushDigit t _) fits)
    · rename_i hc
      exact iff_of_false (by simp) fun h => hc h.1.1

theorem foldl_pushDigit_eq_zero {t : List Char} (h : Digits t) (n : Nat) :
    t.foldl pushDigit n = 0 ↔ n = 0 ∧ ∀ c ∈ t, c = '0' := by
  induction t generalizing n with
  | nil => exact ⟨fun zero => ⟨zero, nofun⟩, fun zero => zero.1⟩
  | cons c t ih =>
    obtain ⟨digit, digits⟩ := List.forall_mem_cons.mp h
    rw [List.foldl_cons, ih digits, List.forall_mem_cons, ← and_assoc, pushDigit]
    have low : '0'.toNat ≤ c.toNat := by
      rw [isDigit, Bool.and_eq_true, decide_eq_true_eq] at digit
      exact Char.le_def.mp digit.1
    have same : c.toNat - '0'.toNat = 0 ↔ c = '0' := by
      constructor
      · exact fun none => Char.toNat_inj.mp (by omega)
      · rintro rfl
        rfl
    have head : n * 10 + (c.toNat - '0'.toNat) = 0 ↔ n = 0 ∧ c = '0' := by
      rw [← same]
      omega
    rw [head]

/-- Digits that spell nothing are noughts. -/
theorem decimal_eq_zero {t : List Char} (h : Digits t) : decimal t = 0 ↔ ∀ c ∈ t, c = '0' :=
  (foldl_pushDigit_eq_zero h 0).trans (by simp)

/-- What is read as a 64-bit number: digits that spell one, or these after a plus sign. -/
theorem parseU64_eq_some {t : List Char} {v : UInt64} :
    parseU64 t = some v ↔ ∃ digits, (t = digits ∨ t = '+' :: digits) ∧ digits ≠ [] ∧
      Digits digits ∧ decimal digits = v.toNat := by
  have read (digits : List Char) : (readDigits 0 digits).map UInt64.ofNat = some v ↔
      Digits digits ∧ decimal digits = v.toNat := by
    rw [Option.map_eq_some_iff]
    constructor
    · rintro ⟨n, hn, rfl⟩
      obtain ⟨ok, value, fits⟩ := (readDigits_eq_some (by decide)).mp hn
      exact ⟨ok, by rw [UInt64.toNat_ofNat_of_lt' fits]; exact value⟩
    · rintro ⟨ok, value⟩
      exact ⟨v.toNat, (readDigits_eq_some (by decide)).mpr ⟨ok, value, v.toNat_lt⟩,
        UInt64.ofNat_toNat⟩
  have plus : ¬Digits ('+' :: t) ∧ ∀ u, ¬Digits ('+' :: u) := by
    have no (u : List Char) : ¬Digits ('+' :: u) := fun h =>
      absurd (h '+' List.mem_cons_self) (by decide)
    exact ⟨no t, no⟩
  unfold parseU64
  split
  · refine iff_of_false (by simp) ?_
    rintro ⟨digits, rfl | h, left, -⟩
    · exact left rfl
    · cases h
  · rename_i digits
    split
    · rename_i none_
      obtain rfl := List.isEmpty_iff.mp none_
      refine iff_of_false (by simp) ?_
      rintro ⟨digits, rfl | h, left, ok, -⟩
      · exact plus.2 _ ok
      · obtain ⟨-, rfl⟩ := List.cons.inj h
        exact left rfl
    · rename_i left
      rw [read]
      constructor
      · exact fun h => ⟨digits, Or.inr rfl, fun nil => left (by rw [nil]; rfl), h⟩
      · rintro ⟨digits', rfl | h, -, ok, value⟩
        · exact absurd ok (plus.2 _)
        · obtain ⟨-, rfl⟩ := List.cons.inj h
          exact ⟨ok, value⟩
  · rename_i left plain
    rw [read]
    constructor
    · exact fun h => ⟨t, Or.inl rfl, left, h⟩
    · rintro ⟨digits, rfl | h, -, ok, value⟩
      · exact ⟨ok, value⟩
      · exact absurd h (plain digits)

/-- Digits are read as the number they spell, if it has 64 bits. -/
theorem parseU64_digits {t : List Char} {v : UInt64} (h : Digits t) :
    parseU64 t = some v ↔ t ≠ [] ∧ decimal t = v.toNat := by
  rw [parseU64_eq_some]
  constructor
  · rintro ⟨digits, rfl | rfl, left, -, value⟩
    · exact ⟨left, value⟩
    · exact absurd (h '+' List.mem_cons_self) (by decide)
  · exact fun read => ⟨t, Or.inl rfl, read.1, h, read.2⟩

end Texts
