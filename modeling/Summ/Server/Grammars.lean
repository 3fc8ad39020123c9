import Mathlib.Data.List.TakeWhile
import Summ.Lib.Regular
import Summ.Registry.DigestText
import Summ.Registry.Reference

/-!
# The grammars of a request

Repository names, tags and digests, with the scanners of the server and of the
registry against the expressions they are documented by.
-/

namespace Summ

-- What holds of all members of a list is decided along the list.
attribute [local instance (high)] List.decidableBAll

open Regular RegularExpression

def MAX_NAME_LEN : Nat := 255

def isNameAlnum (c : Char) : Bool := ('a' ≤ c && c ≤ 'z') || ('0' ≤ c && c ≤ '9')

/-- `valid_name_component`, an alphanumeric run and a separator at a time. -/
def validNameComponent (b : Text) : Bool :=
  if (b.takeWhile isNameAlnum).isEmpty then false
  else
    match _h : b.dropWhile isNameAlnum with
    | [] => true
    | c :: rest =>
      if c = '.' then validNameComponent rest
      else if c = '_' then
        if 2 < 1 + (rest.takeWhile (· = '_')).length then false
        else validNameComponent (rest.dropWhile (· = '_'))
      else if c = '-' then validNameComponent (rest.dropWhile (· = '-'))
      else false
termination_by b.length
decreasing_by
  all_goals
    have whole := (List.dropWhile_suffix isNameAlnum (l := b)).length_le
    rw [_h, List.length_cons] at whole
  · omega
  · have left := (List.dropWhile_suffix (· = '_') (l := rest)).length_le
    omega
  · have left := (List.dropWhile_suffix (· = '-') (l := rest)).length_le
    omega

/-- `valid_name`. -/
def validName (name : Text) : Bool :=
  if name.isEmpty || MAX_NAME_LEN < byteLen name then false
  else (name.splitOn '/').all validNameComponent

/-- `valid_tag`, of the server. -/
def validTag : Text → Bool
  | [] => false
  | first :: chars =>
    if MAX_TAG_LEN < byteLen (first :: chars) then false
    else if !(isAsciiAlphanumeric first || first = '_') then false
    else chars.all isTagChar

/-- `parse_digest`, of the server. The outer `none` is a panic. -/
def parseDigestStrict (s : Text) : Option (Except Text Digest) :=
  match splitOnce ':' s with
  | none => some (.error ("missing algorithm separator: ".toList ++ s))
  | some (algorithm, encoded) =>
    if algorithm.isEmpty || encoded.isEmpty then some (.error ("malformed digest: ".toList ++ s))
    else if !encoded.all isNameAlnum then
      some (.error ("digest encoding must be lowercase: ".toList ++ s))
    else (Digest.fromStr s).map fun result => result.mapError fun e => e.display.toList

/-! ## The expressions -/

def LOWER : Text := "abcdefghijklmnopqrstuvwxyz".toList

def DIGITS : Text := "0123456789".toList

def UPPER : Text := "ABCDEFGHIJKLMNOPQRSTUVWXYZ".toList

/-- `\.|_|__|-+`. -/
def nameSeparator : RegularExpression Char :=
  oneOf ['.'] + (literal ['_'] + (literal ['_', '_'] + many (oneOf ['-'])))

/-- `[a-z0-9]+((\.|_|__|-+)[a-z0-9]+)*`. -/
def nameComponent : RegularExpression Char := separated (many (oneOf (LOWER ++ DIGITS))) nameSeparator

/-- Components with slashes between them. -/
def nameExpression : RegularExpression Char := separated nameComponent (oneOf ['/'])

/-- `[a-zA-Z0-9_][a-zA-Z0-9._-]{0,127}`. -/
def tagExpression : RegularExpression Char :=
  oneOf (LOWER ++ UPPER ++ DIGITS ++ ['_']) *
    (1 + oneOf (LOWER ++ UPPER ++ DIGITS ++ ['.', '_', '-'])) ^ 127

def LOWER_HEX : Text := "0123456789abcdef".toList

/-- `sha256:[0-9a-f]{64}|sha512:[0-9a-f]{128}`. -/
def digestExpression : RegularExpression Char :=
  literal "sha256:".toList * oneOf LOWER_HEX ^ 64 + literal "sha512:".toList * oneOf LOWER_HEX ^ 128

/-! ## Names -/

/-- A class of ASCII characters is known by what it has of the first 128. -/
theorem class_iff {p : Char → Bool} {cs : Text} (ascii : ∀ c, p c = true → c.toNat < 128)
    (table : ∀ k < 128, p (Char.ofNat k) = true → Char.ofNat k ∈ cs) (all : ∀ c ∈ cs, p c = true)
    (c : Char) : p c = true ↔ c ∈ cs := by
  refine ⟨fun h => ?_, all c⟩
  have mem := table c.toNat (ascii c h)
  rw [Char.ofNat_toNat] at mem
  exact mem h

theorem toNat_le_of_le {a b : Char} (h : a ≤ b) : a.toNat ≤ b.toNat := h

theorem isNameAlnum_iff (c : Char) : isNameAlnum c = true ↔ c ∈ LOWER ++ DIGITS := by
  refine class_iff (fun c h => ?_) (by decide +kernel) (by decide +kernel) c
  simp only [isNameAlnum, Bool.or_eq_true, Bool.and_eq_true, decide_eq_true_eq] at h
  rcases h with ⟨-, h⟩ | ⟨-, h⟩
  · exact Nat.lt_of_le_of_lt (toNat_le_of_le h) (by decide)
  · exact Nat.lt_of_le_of_lt (toNat_le_of_le h) (by decide)

theorem mem_alnum_run {t : Text} : t ∈ (many (oneOf (LOWER ++ DIGITS))).matches' ↔
    t ≠ [] ∧ ∀ c ∈ t, isNameAlnum c = true := by
  rw [mem_many_oneOf]
  simp only [isNameAlnum_iff]

theorem mem_nameSeparator {t : Text} : t ∈ nameSeparator.matches' ↔
    t = ['.'] ∨ t = ['_'] ∨ t = ['_', '_'] ∨ t ≠ [] ∧ ∀ c ∈ t, c = '-' := by
  rw [nameSeparator, mem_add, mem_add, mem_add, mem_oneOf, mem_literal, mem_literal, mem_many_oneOf]
  simp only [List.mem_singleton, exists_eq_left]

theorem validNameComponent_head {t : Text} (h : validNameComponent t = true) :
    ∃ c rest, t = c :: rest ∧ isNameAlnum c = true := by
  rw [validNameComponent] at h
  split at h
  · cases h
  · rename_i run
    cases t with
    | nil => exact absurd rfl run
    | cons c rest =>
      refine ⟨c, rest, rfl, ?_⟩
      by_contra other
      exact run (by rw [List.takeWhile_cons_of_neg other]; rfl)

theorem takeWhile_all {p : Char → Bool} {a t : Text} (ha : ∀ c ∈ a, p c = true)
    (ht : ∀ c ∈ t.head?, p c = false) :
    (a ++ t).takeWhile p = a ∧ (a ++ t).dropWhile p = t := by
  rw [List.takeWhile_append_of_pos ha, List.dropWhile_append_of_pos ha]
  cases t with
  | nil => exact ⟨List.append_nil a, rfl⟩
  | cons c t =>
    have stop : ¬p c = true := by rw [ht c rfl]; decide
    rw [List.takeWhile_cons_of_neg stop, List.dropWhile_cons_of_neg stop, List.append_nil]
    exact ⟨rfl, rfl⟩

/-- A run and a separator after it are passed. -/
theorem validNameComponent_step {a b t : Text} (ha : a ≠ [] ∧ ∀ c ∈ a, isNameAlnum c = true)
    (hb : b ∈ nameSeparator.matches') (ht : validNameComponent t = true) :
    validNameComponent (a ++ (b ++ t)) = true := by
  obtain ⟨d, rest, rfl, hd⟩ := validNameComponent_head ht
  have other {x : Char} (hx : isNameAlnum x = false) : ∀ c ∈ (d :: rest).head?, decide (c = x) = false := by
    intro c hc
    cases hc
    refine decide_eq_false fun same => ?_
    rw [same, hx] at hd
    cases hd
  obtain ⟨x, more, rfl, hx⟩ : ∃ x more, b = x :: more ∧ isNameAlnum x = false := by
    rcases mem_nameSeparator.mp hb with rfl | rfl | rfl | ⟨left, all⟩
    · exact ⟨'.', [], rfl, by decide⟩
    · exact ⟨'_', [], rfl, by decide⟩
    · exact ⟨'_', ['_'], rfl, by decide⟩
    · cases b with
      | nil => exact absurd rfl left
      | cons x more => exact ⟨x, more, rfl, by rw [all x List.mem_cons_self]; decide⟩
  obtain ⟨run, left⟩ := takeWhile_all (t := x :: more ++ d :: rest) ha.2 fun c hc => by cases hc; exact hx
  have some_ : ¬a.isEmpty = true := by rw [List.isEmpty_iff]; exact ha.1
  rw [validNameComponent, run, if_neg some_]
  split
  · rename_i nothing
    rw [left] at nothing
  · rename_i c after cut
    rw [left, List.cons_append, List.cons.injEq] at cut
    obtain ⟨rfl, rfl⟩ := cut
    rcases mem_nameSeparator.mp hb with h | h | h | ⟨-, all⟩
    · obtain ⟨rfl, rfl⟩ := List.cons.inj h
      rw [if_pos rfl]
      exact ht
    · obtain ⟨rfl, rfl⟩ := List.cons.inj h
      obtain ⟨taken, dropped⟩ := takeWhile_all (p := (· = '_')) (a := []) nofun (other (by decide))
      rw [List.nil_append] at taken dropped ⊢
      rw [if_neg (by decide), if_pos rfl, taken, dropped, if_neg (by decide)]
      exact ht
    · obtain ⟨rfl, rfl⟩ := List.cons.inj h
      obtain ⟨taken, dropped⟩ := takeWhile_all (p := (· = '_')) (a := ['_']) (by decide)
        (other (by decide))
      rw [if_neg (by decide), if_pos rfl, taken, dropped, if_neg (by decide)]
      exact ht
    · obtain ⟨first, hyphens⟩ := List.forall_mem_cons.mp all
      subst first
      obtain ⟨-, dropped⟩ := takeWhile_all (p := (· = '-'))
        (fun c hc => decide_eq_true (hyphens c hc)) (other (by decide))
      rw [if_neg (by decide), if_neg (by decide), if_pos rfl, dropped]
      exact ht

theorem validNameComponent_run {a : Text} (ha : a ≠ [] ∧ ∀ c ∈ a, isNameAlnum c = true) :
    validNameComponent a = true := by
  obtain ⟨run, left⟩ := takeWhile_all (t := []) ha.2 nofun
  rw [List.append_nil] at run left
  have some_ : ¬a.isEmpty = true := by rw [List.isEmpty_iff]; exact ha.1
  rw [validNameComponent, run, if_neg some_]
  split
  · rfl
  · rename_i cut
    rw [left] at cut
    cases cut

theorem alnum_run {b : Text} (run : ¬(b.takeWhile isNameAlnum).isEmpty = true) :
    b.takeWhile isNameAlnum ≠ [] ∧ ∀ c ∈ b.takeWhile isNameAlnum, isNameAlnum c = true :=
  ⟨fun h => run (by rw [h]; rfl), fun _ hc => List.mem_takeWhile_imp hc⟩

theorem component_cut {b rest more after : Text} {c : Char}
    (cut : b.dropWhile isNameAlnum = c :: rest) (whole : more ++ after = rest) :
    b = b.takeWhile isNameAlnum ++ ((c :: more) ++ after) := by
  rw [List.cons_append, whole, ← cut, List.takeWhile_append_dropWhile]

/-- The scanner of a component takes its expression, and nothing else. -/
theorem validNameComponent_iff (b : Text) :
    validNameComponent b = true ↔ b ∈ nameComponent.matches' := by
  constructor
  · fun_induction validNameComponent b with
    | case1 b empty => exact fun h => by cases h
    | case2 b run none_ =>
      intro _
      have whole := List.takeWhile_append_dropWhile (p := isNameAlnum) (l := b)
      rw [none_, List.append_nil] at whole
      rw [← whole]
      exact separated_one (mem_alnum_run.mpr (alnum_run run))
    | case3 b run rest cut ih =>
      intro valid
      rw [component_cut cut (List.nil_append rest)]
      exact separated_more (mem_alnum_run.mpr (alnum_run run))
        (mem_nameSeparator.mpr (Or.inl rfl)) (ih valid)
    | case4 => exact fun h => by cases h
    | case5 b run rest short cut _ ih =>
      intro valid
      have scores (c : Char) (hc : c ∈ rest.takeWhile (· = '_')) : c = '_' := by
        have score := List.mem_takeWhile_imp hc
        exact of_decide_eq_true score
      rw [component_cut cut List.takeWhile_append_dropWhile]
      refine separated_more (mem_alnum_run.mpr (alnum_run run)) (mem_nameSeparator.mpr ?_) (ih valid)
      -- one underscore or two
      generalize rest.takeWhile (· = '_') = more at short scores
      match more with
      | [] => exact Or.inr (Or.inl rfl)
      | [c] =>
        rw [scores c (by simp)]
        exact Or.inr (Or.inr (Or.inl rfl))
      | c :: d :: more =>
        rw [List.length_cons, List.length_cons] at short
        omega
    | case6 b run rest cut _ _ ih =>
      intro valid
      rw [component_cut cut List.takeWhile_append_dropWhile]
      refine separated_more (mem_alnum_run.mpr (alnum_run run)) (mem_nameSeparator.mpr ?_) (ih valid)
      refine Or.inr (Or.inr (Or.inr ⟨List.cons_ne_nil _ _, List.forall_mem_cons.mpr ⟨rfl, ?_⟩⟩))
      intro c hc
      have hyphen := List.mem_takeWhile_imp hc
      exact of_decide_eq_true hyphen
    | case7 => exact fun h => by cases h
  · refine separated_induction (fun a ha => validNameComponent_run (mem_alnum_run.mp ha))
      fun a ha b hb t _ ht => validNameComponent_step (mem_alnum_run.mp ha) hb ht

theorem slash_not_mem {b : Text} (h : b ∈ nameComponent.matches') : '/' ∉ b := by
  have run {a : Text} (ha : a ∈ (many (oneOf (LOWER ++ DIGITS))).matches') : '/' ∉ a := by
    intro mem
    exact absurd ((mem_alnum_run.mp ha).2 _ mem) (by decide)
  refine separated_induction (P := fun b => '/' ∉ b) (fun a ha => run ha) ?_ h
  intro a ha b hb t _ ht
  have between : '/' ∉ b := by
    rcases mem_nameSeparator.mp hb with rfl | rfl | rfl | ⟨-, all⟩
    · decide
    · decide
    · decide
    · exact fun mem => absurd (all _ mem) (by decide)
  rw [List.mem_append, List.mem_append, not_or, not_or]
  exact ⟨run ha, between, ht⟩

theorem slash_mem {t : Text} : t ∈ (oneOf ['/']).matches' ↔ t = ['/'] := by
  rw [mem_oneOf]
  simp only [List.mem_singleton, exists_eq_left]

/-- The pieces between the slashes are the components. -/
theorem splitOn_components (name : Text) :
    (name.splitOn '/').all validNameComponent = true ↔ name ∈ nameExpression.matches' := by
  constructor
  · intro all
    have joined : ['/'].intercalate (name.splitOn '/') = name := List.intercalate_splitOn '/'
    generalize hp : name.splitOn '/' = pieces at all joined
    have left : pieces ≠ [] := by rw [← hp]; exact List.splitOn_ne_nil _ _
    rw [← joined]
    clear hp joined
    induction pieces with
    | nil => exact absurd rfl left
    | cons piece pieces ih =>
      rw [List.all_cons, Bool.and_eq_true] at all
      have first := (validNameComponent_iff piece).mp all.1
      cases pieces with
      | nil =>
        rw [List.intercalate_singleton]
        exact separated_one first
      | cons next pieces =>
        rw [List.intercalate_cons_cons]
        rw [List.append_assoc]
        exact separated_more first (slash_mem.mpr rfl) (ih all.2 (List.cons_ne_nil _ _))
  · refine separated_induction (P := fun name => (name.splitOn '/').all validNameComponent = true)
      (fun a ha => ?_) fun a ha b hb t _ ht => ?_
    · rw [List.splitOn_eq_singleton (slash_not_mem ha), List.all_cons, List.all_nil, Bool.and_true]
      exact (validNameComponent_iff a).mpr ha
    · rw [slash_mem.mp hb, List.singleton_append,
        List.splitOn_append_cons_self_of_not_mem (slash_not_mem ha), List.all_cons, ht, Bool.and_true]
      exact (validNameComponent_iff a).mpr ha

theorem validName_iff (name : Text) :
    validName name = true ↔ name ∈ nameExpression.matches' ∧ byteLen name ≤ MAX_NAME_LEN := by
  rw [validName, ← splitOn_components]
  split
  · rename_i outside
    refine iff_of_false (by decide) fun h => ?_
    rw [Bool.or_eq_true, List.isEmpty_iff, decide_eq_true_eq] at outside
    rcases outside with rfl | long
    · exact absurd h.1 (by simp [validNameComponent])
    · omega
  · rename_i inside
    rw [Bool.or_eq_true, not_or, decide_eq_true_eq] at inside
    exact ⟨fun h => ⟨h, by omega⟩, fun h => h.1⟩

/-! ## Tags -/

theorem isAsciiAlphanumeric_lt {c : Char} (h : isAsciiAlphanumeric c = true) : c.toNat < 128 := by
  simp only [isAsciiAlphanumeric, Bool.or_eq_true, Bool.and_eq_true, decide_eq_true_eq] at h
  rcases h with (⟨-, h⟩ | ⟨-, h⟩) | ⟨-, h⟩
  · exact Nat.lt_of_le_of_lt (toNat_le_of_le h) (by decide)
  · exact Nat.lt_of_le_of_lt (toNat_le_of_le h) (by decide)
  · exact Nat.lt_of_le_of_lt (toNat_le_of_le h) (by decide)

theorem tagFirst_iff (c : Char) :
    (isAsciiAlphanumeric c || decide (c = '_')) = true ↔ c ∈ LOWER ++ UPPER ++ DIGITS ++ ['_'] := by
  refine class_iff (p := fun c => isAsciiAlphanumeric c || decide (c = '_')) (fun c h => ?_)
    (by decide +kernel) (by decide +kernel) c
  rcases (Bool.or_eq_true _ _).mp h with h | h
  · exact isAsciiAlphanumeric_lt h
  · rw [of_decide_eq_true h]
    decide

theorem isTagChar_lt {c : Char} (h : isTagChar c = true) : c.toNat < 128 := by
  rcases (Bool.or_eq_true _ _).mp h with h | h
  · exact isAsciiAlphanumeric_lt h
  · have table : ∀ c ∈ ['.', '_', '-'], c.toNat < 128 := by decide
    exact table c (of_decide_eq_true h)

theorem isTagChar_iff (c : Char) :
    isTagChar c = true ↔ c ∈ LOWER ++ UPPER ++ DIGITS ++ ['.', '_', '-'] :=
  class_iff (fun _ h => isTagChar_lt h) (by decide +kernel) (by decide +kernel) c

theorem mem_tagExpression {first : Char} {chars : Text} :
    first :: chars ∈ tagExpression.matches' ↔ (isAsciiAlphanumeric first || decide (first = '_')) = true ∧
      chars.length ≤ 127 ∧ ∀ c ∈ chars, isTagChar c = true := by
  rw [tagExpression, mem_mul, tagFirst_iff]
  simp only [isTagChar_iff]
  constructor
  · rintro ⟨a, ha, b, hb, whole⟩
    obtain ⟨c, hc, rfl⟩ := mem_oneOf.mp ha
    obtain ⟨rfl, rfl⟩ := List.cons.inj whole
    exact ⟨hc, mem_pow_optional.mp hb⟩
  · rintro ⟨hf, hc⟩
    exact ⟨[first], mem_oneOf.mpr ⟨first, hf, rfl⟩, chars, mem_pow_optional.mpr hc, rfl⟩

theorem utf8Size_of_lt {c : Char} (h : c.toNat < 128) : c.utf8Size = 1 := by
  have low : c.val ≤ 127 := by
    rw [UInt32.le_iff_toNat_le]
    exact Nat.le_of_lt_succ h
  exact if_pos low

theorem byteLen_of_tag {first : Char} {chars : Text}
    (hfirst : (isAsciiAlphanumeric first || decide (first = '_')) = true)
    (hchars : ∀ c ∈ chars, isTagChar c = true) :
    byteLen (first :: chars) = chars.length + 1 := by
  have ascii : IsAscii (first :: chars) := by
    refine List.forall_mem_cons.mpr ⟨utf8Size_of_lt ?_, fun c hc => ?_⟩
    · rcases (Bool.or_eq_true _ _).mp hfirst with h | h
      · exact isAsciiAlphanumeric_lt h
      · rw [of_decide_eq_true h]
        decide
    · exact utf8Size_of_lt (isTagChar_lt (hchars c hc))
  rw [byteLen_of_ascii ascii, List.length_cons]

/-- Counted in bytes, the server's rule is the expression. -/
theorem validTag_iff (tag : Text) : validTag tag = true ↔ tag ∈ tagExpression.matches' := by
  cases tag with
  | nil =>
    refine iff_of_false (by decide) fun h => ?_
    obtain ⟨a, ha, b, -, whole⟩ := mem_mul.mp h
    obtain ⟨c, -, rfl⟩ := mem_oneOf.mp ha
    cases whole
  | cons first chars =>
    rw [mem_tagExpression, validTag]
    have limit : MAX_TAG_LEN = 128 := rfl
    constructor
    · intro h
      split at h
      · cases h
      · rename_i short
        split at h
        · cases h
        · rename_i starts
          rw [Bool.not_eq_true', Bool.not_eq_false] at starts
          rw [List.all_eq_true] at h
          rw [byteLen_of_tag starts h, limit] at short
          exact ⟨starts, by omega, h⟩
    · rintro ⟨starts, short, all⟩
      have length : ¬MAX_TAG_LEN < byteLen (first :: chars) := by
        rw [byteLen_of_tag starts all, limit]
        omega
      rw [if_neg length, starts, List.all_eq_true.mpr all]
      rfl

/-- Counted in characters, so is the registry's. -/
theorem validateTag_iff (tag : Text) :
    (∃ t, validateTag tag = .ok t) ↔ tag ∈ tagExpression.matches' := by
  have grammar : (∃ t, validateTag tag = .ok t) ↔ isTag tag = true := by
    constructor
    · rintro ⟨t, ht⟩
      rw [← validateTag_eq_ok.mp ht]
      exact t.valid
    · exact fun valid => ⟨⟨tag, valid⟩, validateTag_eq_ok.mpr rfl⟩
  rw [grammar]
  cases tag with
  | nil =>
    refine iff_of_false (by decide) fun h => ?_
    obtain ⟨a, ha, b, -, whole⟩ := mem_mul.mp h
    obtain ⟨c, -, rfl⟩ := mem_oneOf.mp ha
    cases whole
  | cons first chars =>
    rw [mem_tagExpression, isTag, Bool.and_eq_true, Bool.and_eq_true, decide_eq_true_eq,
      List.all_eq_true, List.length_cons, and_assoc]
    exact and_congr_right fun _ => and_congr_left fun _ => by
      have limit : MAX_TAG_LEN = 128 := rfl
      omega

/-! ## Digests -/

namespace Digest

theorem isNameAlnum_size {c : Char} (h : isNameAlnum c = true) : c.utf8Size = 1 := by
  have table : ∀ c ∈ LOWER ++ DIGITS, c.utf8Size = 1 := by decide +kernel
  exact table c ((isNameAlnum_iff c).mp h)

/-- Lower-case text is cut between characters. -/
theorem wellCut_of_lower {s hex : Text} {n : Nat} (lower : ∀ c ∈ hex, isNameAlnum c = true)
    (len : byteLen hex = n * 2) : WellCut hex := by
  have plain (c : Char) (hc : c ∈ hex) : c ≠ '+' := by
    rintro rfl
    exact absurd (lower _ hc) (by decide)
  cases unhexSlots_outcome s len with
  | read slots v cut length values read =>
    refine ⟨slots, [], by rw [List.append_nil]; exact cut, taken_of_values values,
      Or.inr ⟨rfl, fun p hp => plain p.1 ?_⟩⟩
    rw [cut]
    exact List.mem_flatMap.mpr ⟨p, hp, List.mem_cons_self⟩
  | failed slots rest e cut taken rejected result => exact ⟨slots, rest, cut, taken, Or.inl rejected⟩
  | panicked slots rest cut taken split result =>
    have one (c : Char) (hc : c ∈ rest) : c.utf8Size = 1 :=
      isNameAlnum_size (lower c (by rw [cut]; exact List.mem_append_right _ hc))
    cases split with
    | first size => exact absurd (one _ List.mem_cons_self) (by omega)
    | second first second => exact absurd (one _ (by simp)) second

theorem lowerHex_iff (c : Char) :
    isNameAlnum c = true ∧ (hexDigit c).isSome = true ↔ c ∈ LOWER_HEX := by
  have table : ∀ c ∈ LOWER ++ DIGITS, (hexDigit c).isSome = true → c ∈ LOWER_HEX := by
    decide +kernel
  have hex : ∀ c ∈ LOWER_HEX, isNameAlnum c = true ∧ (hexDigit c).isSome = true := by
    decide +kernel
  exact ⟨fun h => table c ((isNameAlnum_iff c).mp h.1) h.2, hex c⟩

/-- The grammar in lower case. -/
theorem mem_digestExpression {s : Text} : s ∈ digestExpression.matches' ↔
    ∃ algo hex, splitOnce ':' s = some (algo, hex) ∧ (∀ c ∈ hex, isNameAlnum c = true) ∧
      Grammar s := by
  have half {algo : Text} {n : Nat} (plain : ':' ∉ algo) :
      s ∈ (literal (algo ++ [':']) * oneOf LOWER_HEX ^ n).matches' ↔
        ∃ hex, s = algo ++ [':'] ++ hex ∧ hex.length = n ∧ ∀ c ∈ hex, c ∈ LOWER_HEX := by
    rw [mem_mul]
    constructor
    · rintro ⟨a, ha, hex, hh, rfl⟩
      rw [mem_literal.mp ha]
      exact ⟨hex, rfl, mem_pow_oneOf.mp hh⟩
    · rintro ⟨hex, rfl, hh⟩
      exact ⟨_, mem_literal.mpr rfl, hex, mem_pow_oneOf.mpr hh, rfl⟩
  have short : ':' ∉ "sha256".toList := by decide
  have long : ':' ∉ "sha512".toList := by decide
  have first : "sha256:".toList = "sha256".toList ++ [':'] := rfl
  have second : "sha512:".toList = "sha512".toList ++ [':'] := rfl
  rw [digestExpression, mem_add, first, second, half short, half long]
  constructor
  · rintro (⟨hex, rfl, length, all⟩ | ⟨hex, rfl, length, all⟩)
    · refine ⟨_, hex, by rw [List.append_assoc]; exact splitOnce_append short hex,
        fun c hc => ((lowerHex_iff c).mpr (all c hc)).1, hex,
        fun c hc => ((lowerHex_iff c).mpr (all c hc)).2, Or.inl ⟨rfl, length⟩⟩
    · refine ⟨_, hex, by rw [List.append_assoc]; exact splitOnce_append long hex,
        fun c hc => ((lowerHex_iff c).mpr (all c hc)).1, hex,
        fun c hc => ((lowerHex_iff c).mpr (all c hc)).2, Or.inr ⟨rfl, length⟩⟩
  · rintro ⟨algo, hex, split, lower, hex', digits, ⟨rfl, length⟩ | ⟨rfl, length⟩⟩
    · rw [first, List.append_assoc] at split
      cases (splitOnce_append short hex').symm.trans split
      exact Or.inl ⟨hex, rfl, length, fun c hc => (lowerHex_iff c).mp ⟨lower c hc, digits c hc⟩⟩
    · rw [second, List.append_assoc] at split
      cases (splitOnce_append long hex').symm.trans split
      exact Or.inr ⟨hex, rfl, length, fun c hc => (lowerHex_iff c).mp ⟨lower c hc, digits c hc⟩⟩

/-- The server's parser takes the expression, and does not panic. -/
theorem parseDigestStrict_iff (s : Text) :
    (parseDigestStrict s).isSome = true ∧
      ((∃ d, parseDigestStrict s = some (.ok d)) ↔ s ∈ digestExpression.matches') := by
  rw [mem_digestExpression, parseDigestStrict]
  cases split : splitOnce ':' s with
  | none => exact ⟨rfl, iff_of_false (by simp) (by simp)⟩
  | some p =>
    obtain ⟨algo, hex⟩ := p
    dsimp only
    split
    · rename_i empty
      refine ⟨rfl, iff_of_false (by simp) ?_⟩
      rintro ⟨-, -, -, -, hex', -, h⟩
      have left : ¬(algo = [] ∨ hex = []) := by
        rcases h with ⟨rfl, length⟩ | ⟨rfl, length⟩
        · have cut := splitOnce_append (c := ':') (a := "sha256".toList) (by decide) hex'
          cases split.symm.trans cut
          rintro (h | rfl)
          · cases h
          · cases length
        · have cut := splitOnce_append (c := ':') (a := "sha512".toList) (by decide) hex'
          cases split.symm.trans cut
          rintro (h | rfl)
          · cases h
          · cases length
      rw [Bool.or_eq_true, List.isEmpty_iff, List.isEmpty_iff] at empty
      exact left empty
    · split
      · rename_i upper
        refine ⟨rfl, iff_of_false (by simp) ?_⟩
        rintro ⟨algo', hex', same, lower, -⟩
        cases same
        rw [List.all_eq_true.mpr lower] at upper
        cases upper
      · rename_i lower
        rw [Bool.not_eq_true', Bool.not_eq_false, List.all_eq_true] at lower
        have parses : Parses fromStr s := by
          rw [parses_iff]
          intro algo' hex' n same _ len
          rw [split] at same
          cases same
          exact wellCut_of_lower lower len (s := s)
        refine ⟨by rw [Option.isSome_map]; exact parses.returns, ?_⟩
        have same : (∃ d, (fromStr s).map (fun result => result.mapError fun e => e.display.toList) =
            some (.ok d)) ↔ ∃ d, fromStr s = some (.ok d) := by
          cases fromStr s with
          | none => simp
          | some result => cases result <;> simp [Except.mapError]
        rw [same, parses.accepts]
        exact ⟨fun h => ⟨algo, hex, rfl, lower, h⟩, fun ⟨_, _, _, _, h⟩ => h⟩

end Digest

/-- Names, tags and digests are accepted by their expressions: names up to their
length in bytes, tags by both copies of the rule alike. -/
theorem grammars_exact (s : Text) :
    (validName s = true ↔ s ∈ nameExpression.matches' ∧ byteLen s ≤ 255) ∧
    (validTag s = true ↔ s ∈ tagExpression.matches') ∧
    ((∃ t, validateTag s = .ok t) ↔ s ∈ tagExpression.matches') ∧
    ((∃ d, parseDigestStrict s = some (.ok d)) ↔ s ∈ digestExpression.matches') :=
  ⟨validName_iff s, validTag_iff s, validateTag_iff s, (Digest.parseDigestStrict_iff s).2⟩

end Summ
