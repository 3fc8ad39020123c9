import Summ.Registry.Error

/-!
# Digests as text

`from_str` reads the hex of a digest two bytes at a time. A slot that cuts a
character panics, and the integer parser takes a plus sign for a first digit.
`from_str_iff` says which texts are read as the grammar has them all the same.
-/

namespace Summ

/-- `parse_digest`, of a history cursor. -/
def parseDigest (raw : Text) : Option (Except RegistryError Digest) :=
  (Digest.fromStr raw).map fun result =>
    result.mapError fun _ => .digestInvalid s!"{String.ofList raw} is not a digest"

namespace Digest

/-! ## Hex digits -/

theorem hexDigit_lt {c : Char} {n : Nat} (h : hexDigit c = some n) : c.toNat < 128 := by
  have bound {a b : Char} (hle : a ≤ b) : a.toNat ≤ b.toNat := hle
  unfold hexDigit at h
  split at h
  · rename_i range
    exact Nat.lt_of_le_of_lt (bound range.2) (by decide)
  · split at h
    · rename_i range
      exact Nat.lt_of_le_of_lt (bound range.2) (by decide)
    · split at h
      · rename_i range
        exact Nat.lt_of_le_of_lt (bound range.2) (by decide)
      · cases h

/-- A hex digit is one byte and no plus sign, and is printed in lower case. -/
theorem hexDigit_eq_some {c : Char} {n : Nat} (h : hexDigit c = some n) :
    n < 16 ∧ hexChar n = c.toLower ∧ c.utf8Size = 1 ∧ c ≠ '+' := by
  have table : ∀ k < 128, ((hexDigit (Char.ofNat k)).all fun n =>
      decide (n < 16) && decide (hexChar n = (Char.ofNat k).toLower) &&
        decide ((Char.ofNat k).utf8Size = 1) && decide (Char.ofNat k ≠ '+')) = true := by decide
  have row := table c.toNat (hexDigit_lt h)
  rw [Char.ofNat_toNat, h] at row
  simpa only [Option.all_some, Bool.and_eq_true, decide_eq_true_eq, and_assoc] using row

theorem byteLen_of_digits {hex : Text} (digits : ∀ c ∈ hex, (hexDigit c).isSome = true) :
    byteLen hex = hex.length := by
  refine byteLen_of_ascii fun c hc => ?_
  obtain ⟨n, hn⟩ := Option.isSome_iff_exists.mp (digits c hc)
  exact (hexDigit_eq_some hn).2.2.1

/-- A slot's value is printed as its two digits in lower case. -/
theorem fromStrRadix16_shows {a b : Char} {v : Byte} (h : fromStrRadix16 a b = some v)
    (plus : a ≠ '+') : (hexDigit a).isSome = true ∧ (hexDigit b).isSome = true ∧
      [hexChar (v.val / 16), hexChar (v.val % 16)] = [a.toLower, b.toLower] := by
  rw [fromStrRadix16, if_neg plus] at h
  cases ha : hexDigit a with
  | none => simp [ha] at h
  | some hi =>
    cases hb : hexDigit b with
    | none => simp [ha, hb] at h
    | some lo =>
      obtain ⟨hhi, showsHi, -⟩ := hexDigit_eq_some ha
      obtain ⟨hlo, showsLo, -⟩ := hexDigit_eq_some hb
      have value : v.val = hi * 16 + lo := by
        have : Fin.ofNat 256 (hi * 16 + lo) = v := by simpa [ha, hb] using h
        rw [← this]
        change (hi * 16 + lo) % 256 = _
        omega
      have high : v.val / 16 = hi := by omega
      have low : v.val % 16 = lo := by omega
      exact ⟨rfl, rfl, by rw [high, low, showsHi, showsLo]⟩

/-- What the integer parser takes is two one-byte characters. -/
theorem fromStrRadix16_size {a b : Char} {v : Byte} (h : fromStrRadix16 a b = some v) :
    a.utf8Size = 1 ∧ b.utf8Size = 1 := by
  unfold fromStrRadix16 at h
  split at h
  · rename_i plus
    obtain ⟨lo, hb, -⟩ := Option.map_eq_some_iff.mp h
    exact ⟨by rw [plus]; decide, (hexDigit_eq_some hb).2.2.1⟩
  · obtain ⟨hi, ha, h⟩ := Option.bind_eq_some_iff.mp h
    obtain ⟨lo, hb, -⟩ := Option.bind_eq_some_iff.mp h
    exact ⟨(hexDigit_eq_some ha).2.2.1, (hexDigit_eq_some hb).2.2.1⟩

/-! ## The slots of a hex text -/

/-- Slots of two characters, one after the other. -/
def joined (slots : List (Char × Char)) : Text := slots.flatMap fun p => [p.1, p.2]

/-- Slots the integer parser takes. -/
def Taken (slots : List (Char × Char)) : Prop :=
  ∀ p ∈ slots, (fromStrRadix16 p.1 p.2).isSome = true

/-- The next slot is whole characters, and no hex. -/
inductive Rejected : Text → Prop
  | two {a b : Char} {more : Text} (first : a.utf8Size = 1) (second : b.utf8Size = 1)
      (none : fromStrRadix16 a b = none) : Rejected (a :: b :: more)
  | one {a : Char} {more : Text} (first : a.utf8Size = 2) : Rejected (a :: more)

/-- The next slot ends inside a character. -/
inductive Split : Text → Prop
  | first {a : Char} {more : Text} (size : 2 < a.utf8Size) : Split (a :: more)
  | second {a b : Char} {more : Text} (first : a.utf8Size = 1) (second : b.utf8Size ≠ 1) :
      Split (a :: b :: more)

/-- No slot starts here that the integer parser takes. -/
def Stuck (rest : Text) : Prop :=
  ∀ a b more, rest = a :: b :: more → fromStrRadix16 a b = none

theorem Rejected.stuck {rest : Text} (h : Rejected rest) : Stuck rest := by
  rintro a b more rfl
  cases h with
  | two first second none => exact none
  | one first =>
    cases hv : fromStrRadix16 a b with
    | none => rfl
    | some v =>
      have := (fromStrRadix16_size hv).1
      omega

theorem Split.stuck {rest : Text} (h : Split rest) : Stuck rest := by
  rintro a b more rfl
  cases hv : fromStrRadix16 a b with
  | none => rfl
  | some v =>
    obtain ⟨ha, hb⟩ := fromStrRadix16_size hv
    cases h with
    | first size => omega
    | second first second => exact absurd hb second

theorem stuck_nil : Stuck [] := by
  intro a b more h
  cases h

theorem Split.not_rejected {rest : Text} (h : Split rest) : ¬Rejected rest := by
  intro rejected
  cases h with
  | first size => cases rejected <;> omega
  | second first second => cases rejected <;> omega

/-- A text has one reading as slots up to where it is stuck. -/
theorem joined_unique {slots slots' : List (Char × Char)} {rest rest' : Text}
    (h : joined slots ++ rest = joined slots' ++ rest') (taken : Taken slots)
    (taken' : Taken slots') (stuck : Stuck rest) (stuck' : Stuck rest') :
    slots = slots' ∧ rest = rest' := by
  induction slots generalizing slots' with
  | nil =>
    cases slots' with
    | nil => exact ⟨rfl, h⟩
    | cons p slots' =>
      have none := stuck p.1 p.2 _ h
      have some := taken' p List.mem_cons_self
      rw [none] at some
      cases some
  | cons p slots ih =>
    cases slots' with
    | nil =>
      have none := stuck' p.1 p.2 _ h.symm
      have some := taken p List.mem_cons_self
      rw [none] at some
      cases some
    | cons q slots' =>
      obtain ⟨ha, h⟩ := List.cons.inj h
      obtain ⟨hb, h⟩ := List.cons.inj h
      obtain ⟨rfl, rfl⟩ := ih h (fun p hp => taken p (List.mem_cons_of_mem _ hp))
        fun p hp => taken' p (List.mem_cons_of_mem _ hp)
      exact ⟨by rw [Prod.ext ha hb], rfl⟩

/-- How reading `n` slots of a text of the right length ends. -/
inductive Outcome (s : Text) (n : Nat) (hex : Text) : Prop
  | read (slots : List (Char × Char)) (v : List.Vector Byte n) (whole : hex = joined slots)
      (length : slots.length = n)
      (values : slots.map (fun p => fromStrRadix16 p.1 p.2) = v.toList.map some)
      (result : unhexSlots s n hex = some (.ok v))
  | failed (slots : List (Char × Char)) (rest : Text) (e : SummError)
      (cut : hex = joined slots ++ rest) (taken : Taken slots) (rejected : Rejected rest)
      (result : unhexSlots s n hex = some (.error e))
  | panicked (slots : List (Char × Char)) (rest : Text) (cut : hex = joined slots ++ rest)
      (taken : Taken slots) (split : Split rest) (result : unhexSlots s n hex = none)

theorem byteLen_cons (c : Char) (t : Text) : byteLen (c :: t) = c.utf8Size + byteLen t := rfl

/-- A slot that is read, before the others. -/
theorem Outcome.cons {s : Text} {n : Nat} {a b : Char} {rest : Text} {v : Byte}
    (value : fromStrRadix16 a b = some v) (outcome : Outcome s n rest) :
    Outcome s (n + 1) (a :: b :: rest) := by
  obtain ⟨ha, hb⟩ := fromStrRadix16_size value
  have step : unhexSlots s (n + 1) (a :: b :: rest) =
      (unhexSlots s n rest).map fun r => r.map (List.Vector.cons v) := by
    simp [unhexSlots, ha, hb, value]
  have taken' {slots : List (Char × Char)} (taken : Taken slots) : Taken ((a, b) :: slots) := by
    intro p hp
    rcases List.mem_cons.mp hp with rfl | hp
    · rw [value]
      rfl
    · exact taken p hp
  cases outcome with
  | read slots w whole length values result =>
    refine .read ((a, b) :: slots) (v ::ᵥ w) ?_ ?_ ?_ ?_
    · rw [whole]
      rfl
    · rw [List.length_cons, length]
    · rw [List.map_cons, values, value, List.Vector.toList_cons]
      rfl
    · rw [step, result]
      rfl
  | failed slots rest' e cut taken rejected result =>
    refine .failed ((a, b) :: slots) rest' e ?_ (taken' taken) rejected ?_
    · rw [cut]
      rfl
    · rw [step, result]
      rfl
  | panicked slots rest' cut taken split result =>
    refine .panicked ((a, b) :: slots) rest' ?_ (taken' taken) split ?_
    · rw [cut]
      rfl
    · rw [step, result]
      rfl

theorem unhexSlots_outcome (s : Text) {n : Nat} {hex : Text} (len : byteLen hex = n * 2) :
    Outcome s n hex := by
  have nothing : Taken [] := fun p hp => by cases hp
  induction n generalizing hex with
  | zero =>
    cases hex with
    | nil => exact .read [] .nil rfl rfl rfl rfl
    | cons a rest =>
      have := a.utf8Size_pos
      rw [byteLen_cons] at len
      omega
  | succ n ih =>
    cases hex with
    | nil => simp [byteLen] at len
    | cons a rest =>
      have size := a.utf8Size_pos
      rw [byteLen_cons] at len
      by_cases one : a.utf8Size = 1
      · cases rest with
        | nil =>
          simp [byteLen] at len
          omega
        | cons b rest =>
          rw [byteLen_cons] at len
          by_cases whole : b.utf8Size = 1
          · cases hv : fromStrRadix16 a b with
            | none =>
              exact .failed [] _ _ rfl nothing (.two one whole hv)
                (by
                rw [unhexSlots, if_pos one, if_pos whole, hv])
            | some v => exact (ih (by omega)).cons hv
          · exact .panicked [] _ rfl nothing (.second one whole) (by simp [unhexSlots, one, whole])
      · by_cases two : a.utf8Size = 2
        · exact .failed [] _ _ rfl nothing (.one two) (by
            unfold unhexSlots
            rw [if_neg one, if_pos two])
        · exact .panicked [] _ rfl nothing (.first (by omega)) (by simp [unhexSlots, one, two])

/-! ## The grammar -/

/-- An algorithm and as many hex digits as its hash has. -/
def Grammar (s : Text) : Prop :=
  ∃ hex : Text, (∀ c ∈ hex, (hexDigit c).isSome = true) ∧
    (s = "sha256:".toList ++ hex ∧ hex.length = 64 ∨ s = "sha512:".toList ++ hex ∧ hex.length = 128)

/-- The parser returns, accepts the grammar and nothing else, and what it read
is printed in lower case. -/
structure Parses {ε : Type} (parse : Text → Option (Except ε Digest)) (s : Text) : Prop where
  returns : (parse s).isSome = true
  accepts : (∃ d, parse s = some (.ok d)) ↔ Grammar s
  shows : ∀ d, parse s = some (.ok d) → d.display = s.map Char.toLower

/-- The slots up to the first that is no hex end between characters: that one is
whole characters, or there is none and no slot starts with a plus sign. -/
def WellCut (hex : Text) : Prop :=
  ∃ slots rest, hex = joined slots ++ rest ∧ Taken slots ∧
    (Rejected rest ∨ rest = [] ∧ ∀ p ∈ slots, p.1 ≠ '+')

/-- The number of bytes an algorithm's hash has. -/
def hashLen (algo : Text) : Option Nat :=
  if algo = "sha256".toList then some 32
  else if algo = "sha512".toList then some 64
  else none

/-- No text of the right algorithm and length is cut badly. -/
def Sound (s : Text) : Prop :=
  ∀ algo hex n, splitOnce ':' s = some (algo, hex) → hashLen algo = some n →
    byteLen hex = n * 2 → WellCut hex

/-- A text with an algorithm the registry has is in the grammar when the rest is
hex of the right length. -/
theorem grammar_iff {s algo hex : Text} {n : Nat} (split : splitOnce ':' s = some (algo, hex))
    (known : hashLen algo = some n) :
    Grammar s ↔ (∀ c ∈ hex, (hexDigit c).isSome = true) ∧ hex.length = n * 2 := by
  have known' : algo = "sha256".toList ∧ n = 32 ∨ algo = "sha512".toList ∧ n = 64 := by
    unfold hashLen at known
    split at known
    · rename_i h
      exact Or.inl ⟨h, (Option.some.inj known).symm⟩
    · split at known
      · rename_i h
        exact Or.inr ⟨h, (Option.some.inj known).symm⟩
      · cases known
  have whole := (of_splitOnce split).1
  constructor
  · rintro ⟨hex', digits, ⟨rfl, length⟩ | ⟨rfl, length⟩⟩
    · have split' := splitOnce_append (c := ':') (a := "sha256".toList) (by decide) hex'
      obtain ⟨rfl, rfl⟩ := Prod.mk.inj (Option.some.inj (split'.symm.trans split))
      obtain ⟨-, rfl⟩ | ⟨h, -⟩ := known'
      · exact ⟨digits, length⟩
      · exact absurd h (by decide)
    · have split' := splitOnce_append (c := ':') (a := "sha512".toList) (by decide) hex'
      obtain ⟨rfl, rfl⟩ := Prod.mk.inj (Option.some.inj (split'.symm.trans split))
      obtain ⟨h, -⟩ | ⟨-, rfl⟩ := known'
      · exact absurd h (by decide)
      · exact ⟨digits, length⟩
  · rintro ⟨digits, length⟩
    refine ⟨hex, digits, ?_⟩
    rcases known' with ⟨rfl, rfl⟩ | ⟨rfl, rfl⟩
    · exact Or.inl ⟨whole, length⟩
    · exact Or.inr ⟨whole, length⟩

theorem not_grammar {s : Text} (h : ∀ algo hex n, splitOnce ':' s = some (algo, hex) →
    hashLen algo ≠ some n) : ¬Grammar s := by
  rintro ⟨hex, -, ⟨rfl, -⟩ | ⟨rfl, -⟩⟩
  · exact h "sha256".toList hex 32 (splitOnce_append (a := "sha256".toList) (by decide) hex) rfl
  · exact h "sha512".toList hex 64 (splitOnce_append (a := "sha512".toList) (by decide) hex) rfl

/-- What is read of a hex text without a plus sign is printed in lower case. -/
theorem shows_of_values {slots : List (Char × Char)} {bytes : Bytes}
    (values : slots.map (fun p => fromStrRadix16 p.1 p.2) = bytes.map some)
    (plain : ∀ p ∈ slots, p.1 ≠ '+') :
    (∀ c ∈ joined slots, (hexDigit c).isSome = true) ∧
      (bytes.flatMap fun b => [hexChar (b.val / 16), hexChar (b.val % 16)]) =
        (joined slots).map Char.toLower := by
  induction slots generalizing bytes with
  | nil =>
    obtain rfl : bytes = [] := by simpa using values.symm
    exact ⟨fun c hc => (by cases hc), rfl⟩
  | cons p slots ih =>
    cases bytes with
    | nil => cases values
    | cons v bytes =>
      obtain ⟨value, values⟩ := List.cons.inj values
      obtain ⟨ha, hb, shows⟩ := fromStrRadix16_shows value (plain p List.mem_cons_self)
      obtain ⟨digits, rest⟩ := ih values fun q hq => plain q (List.mem_cons_of_mem _ hq)
      constructor
      · intro c hc
        rcases List.mem_cons.mp hc with rfl | hc
        · exact ha
        · rcases List.mem_cons.mp hc with rfl | hc
          · exact hb
          · exact digits c hc
      · rw [List.flatMap_cons, shows, rest]
        rfl

/-- The text of a rejected slot is not all hex. -/
theorem Rejected.not_hex {rest : Text} (h : Rejected rest) :
    ¬∀ c ∈ rest, (hexDigit c).isSome = true := by
  intro digits
  cases h with
  | @two a b more first second none =>
    obtain ⟨hi, ha⟩ := Option.isSome_iff_exists.mp (digits a (by simp))
    obtain ⟨lo, hb⟩ := Option.isSome_iff_exists.mp (digits b (by simp))
    have plus := (hexDigit_eq_some ha).2.2.2
    simp [fromStrRadix16, plus, ha, hb] at none
  | @one a more first =>
    obtain ⟨hi, ha⟩ := Option.isSome_iff_exists.mp (digits a (by simp))
    have := (hexDigit_eq_some ha).2.2.1
    omega

/-- A text with an algorithm the registry has is what its hex is read as. -/
theorem fromStr_eq {s algo hex : Text} {n : Nat} (split : splitOnce ':' s = some (algo, hex))
    (known : hashLen algo = some n) :
    ∃ mk : List.Vector Byte n → Digest, fromStr s = (unhex n hex s).map (fun r => r.map mk) ∧
      ∀ v, (mk v).display = algo ++ ':' :: v.toList.flatMap fun b =>
        [hexChar (b.val / 16), hexChar (b.val % 16)] := by
  unfold hashLen at known
  split at known
  · rename_i h
    cases known
    refine ⟨sha256, ?_, fun v => by rw [h]; rfl⟩
    rw [fromStr, split]
    dsimp only
    rw [if_pos h]
  · rename_i other
    split at known
    · rename_i h
      cases known
      refine ⟨sha512, ?_, fun v => by rw [h]; rfl⟩
      rw [fromStr, split]
      dsimp only
      rw [if_neg other, if_pos h]
    · cases known

/-- A text the parser refuses is read as it should be, if it is not in the grammar. -/
theorem parses_of_error {s : Text} {e : SummError} (result : fromStr s = some (.error e))
    (other : ¬Grammar s) : Parses fromStr s where
  returns := by rw [result]; rfl
  accepts := by
    refine iff_of_false ?_ other
    rintro ⟨d, hd⟩
    cases result.symm.trans hd
  shows d hd := by cases result.symm.trans hd

theorem taken_of_values {slots : List (Char × Char)} {bytes : Bytes}
    (values : slots.map (fun p => fromStrRadix16 p.1 p.2) = bytes.map some) : Taken slots := by
  intro p hp
  have mem := List.mem_map_of_mem (f := fun p => fromStrRadix16 p.1 p.2) hp
  rw [values] at mem
  obtain ⟨b, -, hb⟩ := List.mem_map.mp mem
  rw [← hb]
  rfl

/-- Of a text whose hex has the right length. -/
theorem parses_iff_wellCut {s algo hex : Text} {n : Nat}
    (split : splitOnce ':' s = some (algo, hex)) (known : hashLen algo = some n)
    (len : byteLen hex = n * 2) : Parses fromStr s ↔ WellCut hex := by
  obtain ⟨mk, result, display⟩ := fromStr_eq split known
  have grammar := grammar_iff split known
  have whole := (of_splitOnce split).1
  rw [unhex, if_neg (not_not.mpr len)] at result
  cases unhexSlots_outcome s len with
  | read slots v cut length values read =>
    have taken := taken_of_values values
    have ok : fromStr s = some (.ok (mk v)) := by
      rw [result, read]
      rfl
    constructor
    · intro parses
      have digits := (grammar.mp (parses.accepts.mp ⟨_, ok⟩)).1
      refine ⟨slots, [], by rw [cut, List.append_nil], taken, Or.inr ⟨rfl, fun p hp plus => ?_⟩⟩
      have digit := digits p.1 (by rw [cut]; exact List.mem_flatMap.mpr ⟨p, hp, by simp⟩)
      rw [plus] at digit
      cases digit
    · rintro ⟨slots', rest, cut', taken', ending⟩
      have stuck : Stuck rest := by
        rcases ending with rejected | ⟨rfl, -⟩
        · exact rejected.stuck
        · exact stuck_nil
      have same : joined slots ++ [] = joined slots' ++ rest := by
        rw [List.append_nil, ← cut, cut']
      obtain ⟨rfl, rfl⟩ := joined_unique same taken taken' stuck_nil stuck
      have plain : ∀ p ∈ slots, p.1 ≠ '+' := by
        rcases ending with rejected | ⟨-, plain⟩
        · cases rejected
        · exact plain
      obtain ⟨digits, shows⟩ := shows_of_values values plain
      rw [← cut] at digits shows
      have hexLength : hex.length = n * 2 := by rw [← byteLen_of_digits digits, len]
      refine ⟨by rw [ok]; rfl, iff_of_true ⟨_, ok⟩ (grammar.mpr ⟨digits, hexLength⟩), ?_⟩
      intro d hd
      obtain rfl : mk v = d := by
        rw [ok] at hd
        exact Except.ok.inj (Option.some.inj hd)
      have lower : algo.map Char.toLower = algo := by
        unfold hashLen at known
        split at known
        · rename_i h
          rw [h]
          decide
        · split at known
          · rename_i h
            rw [h]
            decide
          · cases known
      rw [display, shows, whole, List.map_append, List.map_cons, lower]
      rfl
  | failed slots rest e cut taken rejected read =>
    refine iff_of_true (parses_of_error (e := e) ?_ ?_) ⟨slots, rest, cut, taken, Or.inl rejected⟩
    · rw [result, read]
      rfl
    · intro inGrammar
      refine rejected.not_hex fun c hc => (grammar.mp inGrammar).1 c ?_
      rw [cut]
      exact List.mem_append_right _ hc
  | panicked slots rest cut taken split read =>
    have panics : fromStr s = none := by
      rw [result, read]
      rfl
    refine iff_of_false (fun parses => ?_) ?_
    · have := parses.returns
      rw [panics] at this
      cases this
    · rintro ⟨slots', rest', cut', taken', ending⟩
      have stuck : Stuck rest' := by
        rcases ending with rejected | ⟨rfl, -⟩
        · exact rejected.stuck
        · exact stuck_nil
      obtain ⟨-, rfl⟩ := joined_unique (cut.symm.trans cut') taken taken' split.stuck stuck
      rcases ending with rejected | ⟨rfl, -⟩
      · exact split.not_rejected rejected
      · cases split

theorem parses_iff (s : Text) : Parses fromStr s ↔ Sound s := by
  by_cases h : ∃ algo hex n, splitOnce ':' s = some (algo, hex) ∧ hashLen algo = some n ∧
      byteLen hex = n * 2
  · obtain ⟨algo, hex, n, split, known, len⟩ := h
    rw [parses_iff_wellCut split known len]
    constructor
    · intro wellCut algo' hex' n' split' _ _
      obtain ⟨-, rfl⟩ := Prod.mk.inj (Option.some.inj (split.symm.trans split'))
      exact wellCut
    · exact fun sound => sound algo hex n split known len
  · refine iff_of_true ?_ fun algo hex n split known len => absurd ⟨algo, hex, n, split, known, len⟩ h
    cases split : splitOnce ':' s with
    | none =>
      refine parses_of_error (by rw [fromStr, split]) (not_grammar fun algo hex n split' _ => ?_)
      cases split.symm.trans split'
    | some p =>
      obtain ⟨algo, hex⟩ := p
      cases known : hashLen algo with
      | none =>
        have other : algo ≠ "sha256".toList ∧ algo ≠ "sha512".toList := by
          constructor <;> rintro rfl <;> cases known
        have error : ∃ e, fromStr s = some (.error e) := by
          rw [fromStr, split]
          dsimp only
          rw [if_neg other.1, if_neg other.2]
          exact ⟨_, rfl⟩
        obtain ⟨e, error⟩ := error
        refine parses_of_error error (not_grammar fun algo' hex' n split' known' => ?_)
        · rw [split] at split'
          cases split'
          cases known.symm.trans known'
      | some n =>
        have len : byteLen hex ≠ n * 2 := fun len => h ⟨algo, hex, n, split, known, len⟩
        obtain ⟨mk, result, -⟩ := fromStr_eq split known
        rw [unhex, if_pos len] at result
        refine parses_of_error result fun inGrammar => len ?_
        obtain ⟨digits, length⟩ := (grammar_iff split known).mp inGrammar
        rw [byteLen_of_digits digits, length]

/-! ## Back from the printed form -/

/-- The two digits a byte is printed as. -/
def hexPair (b : Byte) : Text := [hexChar (b.val / 16), hexChar (b.val % 16)]

theorem hexPair_reads (b : Byte) :
    (hexChar (b.val / 16)).utf8Size = 1 ∧ (hexChar (b.val % 16)).utf8Size = 1 ∧
      fromStrRadix16 (hexChar (b.val / 16)) (hexChar (b.val % 16)) = some b := by
  have table : ∀ b : Byte, (hexChar (b.val / 16)).utf8Size = 1 ∧
      (hexChar (b.val % 16)).utf8Size = 1 ∧
      fromStrRadix16 (hexChar (b.val / 16)) (hexChar (b.val % 16)) = some b := by
    decide +kernel
  exact table b

theorem unhexSlots_hexPair (s : Text) {n : Nat} (v : List.Vector Byte n) :
    unhexSlots s n (v.toList.flatMap hexPair) = some (.ok v) := by
  induction v using List.Vector.inductionOn with
  | nil => rfl
  | cons ih =>
    rename_i n b w
    obtain ⟨first, second, value⟩ := hexPair_reads b
    rw [List.Vector.toList_cons, List.flatMap_cons, hexPair, List.cons_append, List.cons_append,
      List.nil_append, unhexSlots, if_pos first, if_pos second, value]
    dsimp only
    rw [ih]
    rfl

theorem byteLen_hexPair {n : Nat} (v : List.Vector Byte n) :
    byteLen (v.toList.flatMap hexPair) = n * 2 := by
  induction v using List.Vector.inductionOn with
  | nil => rfl
  | cons ih =>
    rename_i n b w
    obtain ⟨first, second, -⟩ := hexPair_reads b
    rw [List.Vector.toList_cons, List.flatMap_cons, hexPair, List.cons_append, List.cons_append,
      List.nil_append, byteLen_cons, byteLen_cons, ih, first, second]
    omega

/-- The printed form is read back. -/
theorem fromStr_display (d : Digest) : fromStr d.display = some (.ok d) := by
  have read {n : Nat} (algo : Text) (v : List.Vector Byte n) (plain : ':' ∉ algo)
      (known : hashLen algo = some n) :
      splitOnce ':' (algo ++ ':' :: v.toList.flatMap hexPair) =
          some (algo, v.toList.flatMap hexPair) ∧
        unhex n (v.toList.flatMap hexPair) (algo ++ ':' :: v.toList.flatMap hexPair) =
          some (.ok v) := by
    refine ⟨splitOnce_append plain _, ?_⟩
    rw [unhex, if_neg (not_not.mpr (byteLen_hexPair v)), unhexSlots_hexPair]
  cases d with
  | sha256 v =>
    obtain ⟨split, value⟩ := read "sha256".toList v (by decide) rfl
    change fromStr ("sha256".toList ++ ':' :: v.toList.flatMap hexPair) = _
    rw [fromStr, split]
    dsimp only
    rw [if_pos rfl, value]
    rfl
  | sha512 v =>
    obtain ⟨split, value⟩ := read "sha512".toList v (by decide) rfl
    change fromStr ("sha512".toList ++ ':' :: v.toList.flatMap hexPair) = _
    rw [fromStr, split]
    dsimp only
    rw [if_neg (by decide), if_pos rfl, value]
    rfl

theorem parseDigest_display (d : Digest) : parseDigest d.display = some (.ok d) := by
  rw [parseDigest, fromStr_display]
  rfl

/-- The cursor's parser only words its failure otherwise. -/
theorem parses_parseDigest (s : Text) : Parses parseDigest s ↔ Parses fromStr s := by
  have ok (d : Digest) : parseDigest s = some (.ok d) ↔ fromStr s = some (.ok d) := by
    unfold parseDigest
    rcases fromStr s with - | (e | d') <;> simp [Except.mapError]
  have some : (parseDigest s).isSome = (fromStr s).isSome := Option.isSome_map
  constructor
  · rintro ⟨returns, accepts, shows⟩
    simp only [ok, some] at returns accepts shows
    exact ⟨returns, accepts, shows⟩
  · rintro ⟨returns, accepts, shows⟩
    simp only [← ok, ← some] at returns accepts shows
    exact ⟨returns, accepts, shows⟩

/-- Parsing a digest, and the digest of a history cursor, terminates, accepts the
grammar alone and prints back in lower case, exactly for the texts that are not
cut badly. -/
theorem from_str_iff (s : Text) : Parses fromStr s ∧ Parses parseDigest s ↔ Sound s := by
  rw [parses_parseDigest, and_self, parses_iff]

/-- Sixty-four bytes of which the second and third are one character. -/
def cutDigest : Text := "sha256:0é".toList ++ List.replicate 61 '0'

theorem from_str_panics : ¬∀ s : Text, Parses fromStr s ∧ Parses parseDigest s := by
  intro parses
  have returns := (parses cutDigest).1.returns
  have panics : fromStr cutDigest = none := by decide +kernel
  rw [panics] at returns
  cases returns

end Digest

end Summ
