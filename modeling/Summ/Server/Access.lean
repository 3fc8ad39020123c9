import Summ.Lib.Base64
import Summ.Server.Auth

/-!
# Authorization is sound and complete

`Admits` says who is admitted without saying how it is found out. The decision
agrees with it for base64 as `Base64.Reads` has it, which takes more texts than
the standard encodings.
-/

namespace Summ

open Base64 (digit code Groups Reads)

/-! ## The comparison with a key -/

theorem foldl_or_eq_zero {α : Type*} (f : α → Nat) (l : List α) (d : Nat) :
    l.foldl (fun diff x => diff ||| f x) d = 0 ↔ d = 0 ∧ ∀ x ∈ l, f x = 0 := by
  induction l generalizing d with
  | nil => simp
  | cons x l ih => rw [List.foldl_cons, ih, Nat.or_eq_zero_iff, List.forall_mem_cons, and_assoc]

theorem xor_eq_zero {a b : Nat} : a ^^^ b = 0 ↔ a = b := by
  constructor
  · intro h
    have same := congrArg (· ^^^ b) h
    simpa [Nat.xor_assoc] using same
  · rintro rfl
    exact Nat.xor_self a

theorem utf8_isEmpty (t : Text) : (Bytes.utf8 t).isEmpty = t.isEmpty := by
  rw [Bool.eq_iff_iff, List.isEmpty_iff, List.isEmpty_iff]
  constructor
  · intro h
    exact Bytes.utf8_injective (h.trans Bytes.utf8_nil.symm)
  · rintro rfl
    exact Bytes.utf8_nil

/-- Two strings of one length that agree at every index, wrapped or not, are equal. -/
theorem eq_of_wrapped {a b : Bytes} (length : a.length = b.length)
    (h : ∀ i ∈ List.range (max a.length b.length),
      (a.getD (i % a.length) 0).val ^^^ (b.getD (i % b.length) 0).val = 0) : a = b := by
  apply List.ext_getElem length
  intro i ha hb
  have at_ := xor_eq_zero.mp (h i (List.mem_range.mpr (by omega)))
  rw [Nat.mod_eq_of_lt ha, Nat.mod_eq_of_lt hb] at at_
  have values : a.getD i 0 = b.getD i 0 := Fin.ext at_
  simpa [List.getD_eq_getElem?_getD, ha, hb] using values

/-- A key matches itself alone, and an empty key nothing. -/
theorem ApiKey.matches_iff (key : ApiKey) (presented : Text) :
    key.matches_ presented = true ↔ key.text ≠ [] ∧ presented = key.text := by
  unfold ApiKey.matches_
  simp only [utf8_isEmpty]
  by_cases empty : (key.text.isEmpty || presented.isEmpty) = true
  · rw [if_pos empty]
    constructor
    · intro h
      cases h
    · rintro ⟨ne, rfl⟩
      simp [ne] at empty
  · rw [if_neg empty, beq_iff_eq, foldl_or_eq_zero, xor_eq_zero]
    simp only [Bool.or_eq_true, List.isEmpty_iff, not_or] at empty
    constructor
    · rintro ⟨length, h⟩
      exact ⟨empty.1, (Bytes.utf8_injective (eq_of_wrapped length h)).symm⟩
    · rintro ⟨-, rfl⟩
      exact ⟨rfl, fun i _ => Nat.xor_self _⟩

/-- A key written out any number of times but once is another text. -/
theorem ApiKey.not_matches_repeated (key : ApiKey) {n : Nat} (h : n ≠ 1) :
    key.matches_ (List.replicate n key.text).flatten = false := by
  by_contra matched
  obtain ⟨ne, same⟩ := (key.matches_iff _).mp (Bool.eq_true_of_not_eq_false matched)
  have lengths := congrArg List.length same
  simp only [List.length_flatten, List.map_replicate, List.sum_replicate_nat] at lengths
  have positive : 0 < key.text.length := List.length_pos_iff.mpr ne
  exact h (Nat.eq_of_mul_eq_mul_right positive (lengths.trans (Nat.one_mul _).symm))

/-- So is a part of it. -/
theorem ApiKey.not_matches_part (key : ApiKey) {presented : Text} (h : presented ≠ key.text) :
    key.matches_ presented = false := by
  by_contra matched
  exact h ((key.matches_iff _).mp (Bool.eq_true_of_not_eq_false matched)).2

/-! ## The decoder -/

theorem sextet_code {v : Nat} (h : v < 64) : sextet (code v) = some v := by
  have table : ∀ v < 64, sextet (code v) = some v := by decide +kernel
  exact table v h

theorem of_sextet {b : Byte} {v : Nat} (h : sextet b = some v) : v < 64 ∧ code v = b := by
  have table : ∀ n < 256, ((sextet (Fin.ofNat 256 n)).all fun v =>
      decide (v < 64) && decide (code v = Fin.ofNat 256 n)) = true := by decide +kernel
  have row := table b.val b.isLt
  rw [Fin.ofNat_val_eq_self, h] at row
  simpa using row

/-- The number a row of values spells. -/
def spelled (acc : Nat) (vs : List Nat) : Nat := vs.foldl (fun acc v => acc * 64 + v) acc

theorem shift_or {acc v : Nat} (h : v < 64) : (acc <<< 6) ||| v = acc * 64 + v := by
  rw [← Nat.shiftLeft_add_eq_or_of_lt (i := 6) h, Nat.shiftLeft_eq]

theorem foldlM_sextets {vs : List Nat} (h : ∀ v ∈ vs, v < 64) (acc : Nat) :
    (vs.map code).foldlM (fun acc byte => (sextet byte).map fun v => (acc <<< 6) ||| v) acc =
      some (spelled acc vs) := by
  induction vs generalizing acc with
  | nil => rfl
  | cons v vs ih =>
    obtain ⟨hv, h⟩ := List.forall_mem_cons.mp h
    rw [List.map_cons, List.foldlM_cons, sextet_code hv, Option.map_some, shift_or hv]
    exact ih h _

theorem of_foldlM_sextets {chunk : Bytes} {acc n : Nat}
    (h : chunk.foldlM (fun acc byte => (sextet byte).map fun v => (acc <<< 6) ||| v) acc = some n) :
    ∃ vs : List Nat, chunk = vs.map code ∧ ∀ v ∈ vs, v < 64 := by
  induction chunk generalizing acc with
  | nil => exact ⟨[], rfl, by simp⟩
  | cons b chunk ih =>
    rw [List.foldlM_cons] at h
    obtain ⟨acc', hacc, rest⟩ := Option.bind_eq_some_iff.mp h
    obtain ⟨v, hv, -⟩ := Option.map_eq_some_iff.mp hacc
    obtain ⟨lt, rfl⟩ := of_sextet hv
    obtain ⟨vs, rfl, small⟩ := ih rest
    exact ⟨v :: vs, rfl, List.forall_mem_cons.mpr ⟨lt, small⟩⟩

theorem decodeChunk_codes {vs : List Nat} (h : ∀ v ∈ vs, v < 64) :
    decodeChunk (vs.map code) = some ((List.range (vs.length - 1)).map fun i =>
      Fin.ofNat 256 (spelled 0 vs * 2 ^ (6 * (4 - vs.length)) / 2 ^ (16 - 8 * i) % 256)) := by
  have low (n : Nat) : n &&& 0xff = n % 256 := Nat.and_two_pow_sub_one_eq_mod n 8
  rw [decodeChunk, foldlM_sextets h, List.length_map]
  simp only [Option.bind_eq_bind, Option.bind_some, Option.pure_def, low, Nat.shiftLeft_eq,
    Nat.shiftRight_eq_div_pow]

theorem of_decodeChunk {chunk out : Bytes} (h : decodeChunk chunk = some out) :
    ∃ vs : List Nat, chunk = vs.map code ∧ ∀ v ∈ vs, v < 64 := by
  obtain ⟨n, hn, -⟩ := Option.bind_eq_some_iff.mp h
  exact of_foldlM_sextets hn

/-- The decoder on what is left once the padding is off. -/
def decodeBytes (input : Bytes) : Option Bytes :=
  if input.length % 4 = 1 then none
  else ((chunks4 input).mapM decodeChunk).map List.flatten

theorem decodeBytes_cons (a b c d : Byte) (rest : Bytes) :
    decodeBytes (a :: b :: c :: d :: rest) =
      (decodeChunk [a, b, c, d]).bind fun x => (decodeBytes rest).map (x ++ ·) := by
  have length : (a :: b :: c :: d :: rest).length % 4 = rest.length % 4 := by
    simp only [List.length_cons]
    omega
  rw [decodeBytes, decodeBytes, length, chunks4, List.mapM_cons]
  cases decodeChunk [a, b, c, d] with
  | none => simp
  | some x =>
    split
    · simp
    · cases (chunks4 rest).mapM decodeChunk <;> simp

theorem decodeBytes_short {chunk : Bytes} (h : chunk.length = 2 ∨ chunk.length = 3) :
    decodeBytes chunk = decodeChunk chunk := by
  have alone : chunks4 chunk = [chunk] := by
    unfold chunks4
    split
    · simp at h
    · simp at h
    · rfl
  rw [decodeBytes, if_neg (by omega), alone]
  cases hc : decodeChunk chunk with
  | none => simp [hc]
  | some x => simp [hc]

/-- What a row of values stands for, the decoder makes of it. -/
theorem decodeBytes_codes {vs : List Nat} {out : Bytes} (groups : Groups vs out)
    (h : ∀ v ∈ vs, v < 64) : decodeBytes (vs.map code) = some out := by
  induction groups with
  | nil => rfl
  | @two a b x value =>
    have byte : spelled 0 [a, b] * 2 ^ 12 / 2 ^ 16 % 256 = x.val := by
      have := x.isLt
      simp only [spelled, List.foldl_cons, List.foldl_nil]
      omega
    rw [decodeBytes_short (by simp), decodeChunk_codes h]
    change some [Fin.ofNat 256 (spelled 0 [a, b] * 2 ^ 12 / 2 ^ 16 % 256)] = some [x]
    rw [byte, Fin.ofNat_val_eq_self]
  | @three a b c x y value =>
    have n : spelled 0 [a, b, c] = (a * 64 + b) * 64 + c := by simp [spelled]
    have first : spelled 0 [a, b, c] * 2 ^ 6 / 2 ^ 16 % 256 = x.val := by
      have := x.isLt
      have := y.isLt
      omega
    have second : spelled 0 [a, b, c] * 2 ^ 6 / 2 ^ 8 % 256 = y.val := by
      have := y.isLt
      omega
    rw [decodeBytes_short (by simp), decodeChunk_codes h]
    change some [Fin.ofNat 256 (spelled 0 [a, b, c] * 2 ^ 6 / 2 ^ 16 % 256),
      Fin.ofNat 256 (spelled 0 [a, b, c] * 2 ^ 6 / 2 ^ 8 % 256)] = some [x, y]
    rw [first, second, Fin.ofNat_val_eq_self, Fin.ofNat_val_eq_self]
  | @four a b c d x y z vs out value rest ih =>
    have head : ∀ v ∈ [a, b, c, d], v < 64 := fun v hv => h v (by
      simp only [List.mem_cons, List.not_mem_nil, or_false] at hv ⊢
      tauto)
    have n : spelled 0 [a, b, c, d] = ((a * 64 + b) * 64 + c) * 64 + d := by simp [spelled]
    have first : spelled 0 [a, b, c, d] * 2 ^ 0 / 2 ^ 16 % 256 = x.val := by
      have := x.isLt
      have := y.isLt
      have := z.isLt
      omega
    have second : spelled 0 [a, b, c, d] * 2 ^ 0 / 2 ^ 8 % 256 = y.val := by
      have := y.isLt
      have := z.isLt
      omega
    have third : spelled 0 [a, b, c, d] * 2 ^ 0 / 2 ^ 0 % 256 = z.val := by
      have := z.isLt
      omega
    have chunk : decodeChunk [code a, code b, code c, code d] = some [x, y, z] := by
      refine (decodeChunk_codes head).trans ?_
      change some [Fin.ofNat 256 (spelled 0 [a, b, c, d] * 2 ^ 0 / 2 ^ 16 % 256),
        Fin.ofNat 256 (spelled 0 [a, b, c, d] * 2 ^ 0 / 2 ^ 8 % 256),
        Fin.ofNat 256 (spelled 0 [a, b, c, d] * 2 ^ 0 / 2 ^ 0 % 256)] = some [x, y, z]
      rw [first, second, third, Fin.ofNat_val_eq_self, Fin.ofNat_val_eq_self,
        Fin.ofNat_val_eq_self]
    have tail := ih fun v hv => h v (by simp [hv])
    simp only [List.map_cons]
    rw [decodeBytes_cons, chunk, Option.bind_some, tail]
    rfl

/-- A row of values stands for bytes unless it has one over a multiple of four. -/
theorem exists_groups : (vs : List Nat) → (∀ v ∈ vs, v < 64) → vs.length % 4 ≠ 1 →
    ∃ out, Groups vs out
  | [], _, _ => ⟨[], .nil⟩
  | [_], _, length => absurd rfl length
  | [a, b], h, _ => by
    have ha := h a (by simp)
    have hb := h b (by simp)
    refine ⟨[Fin.ofNat 256 ((a * 64 + b) / 16)], .two ?_⟩
    change _ = _ % 256
    omega
  | [a, b, c], h, _ => by
    have ha := h a (by simp)
    have hb := h b (by simp)
    have hc := h c (by simp)
    refine ⟨[Fin.ofNat 256 (((a * 64 + b) * 64 + c) / 1024),
      Fin.ofNat 256 (((a * 64 + b) * 64 + c) / 4)], .three ?_⟩
    change _ = _ % 256 * 256 + _ % 256
    omega
  | a :: b :: c :: d :: vs, h, length => by
    have ha := h a (by simp)
    have hb := h b (by simp)
    have hc := h c (by simp)
    have hd := h d (by simp)
    have shorter : vs.length % 4 ≠ 1 := by
      simp only [List.length_cons] at length
      omega
    obtain ⟨out, groups⟩ := exists_groups vs (fun v hv => h v (by simp [hv])) shorter
    refine ⟨Fin.ofNat 256 ((((a * 64 + b) * 64 + c) * 64 + d) / 65536) ::
      Fin.ofNat 256 ((((a * 64 + b) * 64 + c) * 64 + d) / 256) ::
      Fin.ofNat 256 (((a * 64 + b) * 64 + c) * 64 + d) :: out, .four ?_ groups⟩
    change _ = (_ % 256 * 256 + _ % 256) * 256 + _ % 256
    omega

/-- What the decoder takes is a row of values. -/
theorem of_decodeBytes {input out : Bytes} (h : decodeBytes input = some out) :
    ∃ vs : List Nat, input = vs.map code ∧ ∀ v ∈ vs, v < 64 := by
  induction input using chunks4.induct generalizing out with
  | case1 a b c d rest ih =>
    rw [decodeBytes_cons] at h
    obtain ⟨x, hx, tail⟩ := Option.bind_eq_some_iff.mp h
    obtain ⟨y, hy, -⟩ := Option.map_eq_some_iff.mp tail
    obtain ⟨vs, hvs, small⟩ := of_decodeChunk hx
    obtain ⟨ws, rfl, small'⟩ := ih hy
    refine ⟨vs ++ ws, ?_, ?_⟩
    · rw [List.map_append, ← hvs]
      rfl
    · intro v hv
      exact (List.mem_append.mp hv).elim (small v) (small' v)
  | case2 => exact ⟨[], rfl, by simp⟩
  | case3 short long ne =>
    have alone : chunks4 short = [short] := by
      unfold chunks4
      split
      · exact absurd rfl (long _ _ _ _ _)
      · exact absurd rfl ne
      · rfl
    rw [decodeBytes, alone] at h
    split at h
    · cases h
    · obtain ⟨chunks, hchunks, -⟩ := Option.map_eq_some_iff.mp h
      rw [List.mapM_cons] at hchunks
      obtain ⟨x, hx, -⟩ := Option.bind_eq_some_iff.mp hchunks
      exact of_decodeChunk hx

/-- The decoder reads rows of values, and makes of them what they stand for. -/
theorem decodeBytes_iff (input out : Bytes) : decodeBytes input = some out ↔
    ∃ vs : List Nat, input = vs.map code ∧ (∀ v ∈ vs, v < 64) ∧ Groups vs out := by
  constructor
  · intro h
    obtain ⟨vs, rfl, small⟩ := of_decodeBytes h
    have length : vs.length % 4 ≠ 1 := by
      intro length
      rw [decodeBytes, if_pos (by simpa using length)] at h
      cases h
    obtain ⟨out', groups⟩ := exists_groups vs small length
    rw [decodeBytes_codes groups small] at h
    exact ⟨vs, rfl, small, Option.some.inj h ▸ groups⟩
  · rintro ⟨vs, rfl, small, groups⟩
    exact decodeBytes_codes groups small

/-! ## The padding -/

theorem stripEnd_append (body back : Bytes) : stripEnd (body ++ back) back = some body := by
  rw [stripEnd, if_pos (List.suffix_append body back)]
  simp

theorem stripEnd_none {s back : Bytes} (h : ¬ back <:+ s) : stripEnd s back = none := if_neg h

theorem of_stripEnd {s back body : Bytes} (h : stripEnd s back = some body) :
    s = body ++ back := by
  unfold stripEnd at h
  split at h
  · rename_i suffix
    obtain ⟨front, rfl⟩ := suffix
    cases h
    simp
  · cases h

/-- A row of values does not end in a padding character. -/
theorem not_pad_suffix {vs : List Nat} (small : ∀ v ∈ vs, v < 64) (back : Bytes) :
    ¬ back ++ [61] <:+ vs.map code := by
  rintro ⟨front, h⟩
  have mem : (61 : Byte) ∈ vs.map code := by
    rw [← h]
    simp
  obtain ⟨v, hv, hcode⟩ := List.mem_map.mp mem
  exact Base64.code_ne_pad (small v hv) hcode

theorem utf8_pad : Bytes.utf8 ['='] = [61] ∧ Bytes.utf8 ['=', '='] = [61, 61] := by decide

/-- A byte string without its padding: two padding bytes, or one, or none. -/
def unpad (bytes : Bytes) : Bytes :=
  ((stripEnd bytes [61, 61]).or (stripEnd bytes [61])).getD bytes

/-- Only the padding goes. -/
theorem of_unpad (bytes : Bytes) :
    ∃ pad : List Char, pad ∈ [[], ['='], ['=', '=']] ∧ bytes = unpad bytes ++ Bytes.utf8 pad := by
  unfold unpad
  cases two : stripEnd bytes [61, 61] with
  | some body => exact ⟨['=', '='], by simp, by rw [utf8_pad.2]; exact of_stripEnd two⟩
  | none =>
    cases one : stripEnd bytes [61] with
    | some body => exact ⟨['='], by simp, by rw [utf8_pad.1]; exact of_stripEnd one⟩
    | none => exact ⟨[], by simp, by simp [Bytes.utf8_nil]⟩

/-- All of it goes after a row of values. -/
theorem unpad_codes {vs : List Nat} (small : ∀ v ∈ vs, v < 64) {pad : List Char}
    (h : pad ∈ [[], ['='], ['=', '=']]) : unpad (vs.map code ++ Bytes.utf8 pad) = vs.map code := by
  unfold unpad
  simp only [List.mem_cons, List.not_mem_nil, or_false] at h
  rcases h with rfl | rfl | rfl
  · have two := stripEnd_none (not_pad_suffix small [61])
    have one := stripEnd_none (not_pad_suffix small [])
    simp only [List.singleton_append, List.nil_append] at two one
    rw [Bytes.utf8_nil, List.append_nil, two, one]
    rfl
  · have two : ¬ [61, 61] <:+ vs.map code ++ [61] := by
      rintro ⟨front, h⟩
      have same : (front ++ [61]) ++ [61] = vs.map code ++ [61] := by simpa using h
      have cut := List.append_cancel_right same
      exact not_pad_suffix small [] ⟨front, by simpa using cut⟩
    rw [utf8_pad.1, stripEnd_none two, stripEnd_append]
    rfl
  · rw [utf8_pad.2, stripEnd_append]
    rfl

/-- `base64_decode` takes the texts that stand for bytes, and makes these of them. -/
theorem base64Decode_iff (input : Text) (out : Bytes) :
    base64Decode input = some out ↔ Reads input out := by
  change decodeBytes (unpad (Bytes.utf8 input)) = some out ↔ _
  rw [decodeBytes_iff]
  constructor
  · rintro ⟨vs, hvs, small, groups⟩
    obtain ⟨pad, hpad, whole⟩ := of_unpad (Bytes.utf8 input)
    rw [hvs, ← Base64.utf8_digits small, ← Bytes.utf8_append] at whole
    exact ⟨vs, pad, Bytes.utf8_injective whole, hpad, small, groups⟩
  · rintro ⟨vs, pad, rfl, hpad, small, groups⟩
    refine ⟨vs, ?_, small, groups⟩
    rw [Bytes.utf8_append, Base64.utf8_digits small, unpad_codes small hpad]

/-! ## The credential -/

/-- `key` is the credential in the header text `value`; `decodes` says which texts
are base64, and of what. -/
def Yields (decodes : Text → Bytes → Prop) (value key : Text) : Prop :=
  ∃ scheme rest : Text, value = scheme ++ ' ' :: rest ∧ ' ' ∉ scheme ∧ key ≠ [] ∧
    (eqIgnoreAsciiCase scheme "bearer".toList = true ∧ key = Texts.trim rest ∨
      eqIgnoreAsciiCase scheme "basic".toList = true ∧ ∃ user password : Text,
        decodes (Texts.trim rest) (Bytes.utf8 (user ++ ':' :: password)) ∧ ':' ∉ user ∧
          key = if password = [] then user else password)

theorem guarded_eq_some {t key : Text} :
    (if t = [] then none else some t) = some key ↔ key ≠ [] ∧ key = t := by
  by_cases h : t = []
  · rw [if_pos h]
    constructor
    · intro none_
      cases none_
    · rintro ⟨ne, rfl⟩
      exact absurd h ne
  · rw [if_neg h]
    constructor
    · intro some_
      cases some_
      exact ⟨h, rfl⟩
    · rintro ⟨-, rfl⟩
      rfl

/-- One scheme at most. -/
theorem bearer_not_basic {scheme : Text} (bearer : eqIgnoreAsciiCase scheme "bearer".toList = true) :
    ¬ eqIgnoreAsciiCase scheme "basic".toList = true := by
  intro basic
  have h₁ := of_decide_eq_true bearer
  have h₂ := of_decide_eq_true basic
  rw [h₁] at h₂
  exact absurd h₂ (by decide)

/-- The credential of a `Basic` value. -/
theorem basic_iff (rest key : Text) :
    ((base64Decode rest).bind fun decoded => (Bytes.ofUtf8 decoded).bind fun decoded =>
      (splitOnce ':' decoded).bind fun p =>
        if (if p.2 = [] then p.1 else p.2) = [] then none
        else some (if p.2 = [] then p.1 else p.2)) = some key ↔
      key ≠ [] ∧ ∃ user password : Text,
        Reads rest (Bytes.utf8 (user ++ ':' :: password)) ∧ ':' ∉ user ∧
          key = if password = [] then user else password := by
  constructor
  · intro h
    obtain ⟨bytes, hbytes, decoded⟩ := Option.bind_eq_some_iff.mp h
    obtain ⟨text, htext, found⟩ := Option.bind_eq_some_iff.mp decoded
    obtain ⟨⟨user, password⟩, hsplit, guarded⟩ := Option.bind_eq_some_iff.mp found
    obtain ⟨rfl, first⟩ := of_splitOnce hsplit
    obtain rfl := Bytes.ofUtf8_iff.mp htext
    obtain ⟨ne, hkey⟩ := guarded_eq_some.mp guarded
    exact ⟨ne, user, password, (base64Decode_iff _ _).mp hbytes, first, hkey⟩
  · rintro ⟨ne, user, password, reads, first, hkey⟩
    rw [(base64Decode_iff _ _).mpr reads, Option.bind_some, Bytes.ofUtf8_utf8, Option.bind_some,
      splitOnce_append first, Option.bind_some]
    exact guarded_eq_some.mpr ⟨ne, hkey⟩

/-- `credential` finds the key of a header text, where it has one. -/
theorem credential_iff (value key : Text) :
    credential value = some key ↔ Yields Reads value key := by
  simp only [credential, Option.bind_eq_bind, List.isEmpty_iff]
  constructor
  · intro h
    obtain ⟨⟨scheme, rest⟩, hsplit, found⟩ := Option.bind_eq_some_iff.mp h
    obtain ⟨rfl, first⟩ := of_splitOnce hsplit
    split at found
    · rename_i bearer
      obtain ⟨ne, hkey⟩ := guarded_eq_some.mp found
      exact ⟨scheme, rest, rfl, first, ne, .inl ⟨bearer, hkey⟩⟩
    · split at found
      · rename_i basic
        obtain ⟨ne, decoded⟩ := (basic_iff _ _).mp found
        exact ⟨scheme, rest, rfl, first, ne, .inr ⟨basic, decoded⟩⟩
      · cases found
  · rintro ⟨scheme, rest, rfl, first, ne, ⟨bearer, hkey⟩ | ⟨basic, found⟩⟩
    · rw [splitOnce_append first, Option.bind_some, if_pos bearer]
      exact guarded_eq_some.mpr ⟨ne, hkey⟩
    · rw [splitOnce_append first, Option.bind_some,
        if_neg fun bearer => bearer_not_basic bearer basic, if_pos basic]
      exact (basic_iff _ _).mpr ⟨ne, found⟩

/-! ## The decision -/

namespace AuthPolicy

def writeKey : AuthPolicy → Option ApiKey
  | .open_ => none
  | .publicPull write | .private_ _ write => some write

def readKey : AuthPolicy → Option ApiKey
  | .open_ | .publicPull _ => none
  | .private_ read _ => some read

section
variable {HeaderValue : Type} (toStr : HeaderValue → Option Text)

/-- Who is admitted. -/
def Admits (decodes : Text → Bytes → Prop) (policy : AuthPolicy) (method : Method)
    (header : Option HeaderValue) : Prop :=
  policy = .open_ ∨
    (header = none ∧ (∃ write, policy = .publicPull write) ∧ Access.of method = .read) ∨
    ∃ raw value key, header = some raw ∧ toStr raw = some value ∧ Yields decodes value key ∧
      (policy.writeKey = some ⟨key⟩ ∨ policy.readKey = some ⟨key⟩ ∧ Access.of method = .read)

end

theorem generate_ne (first second : List.Vector Byte 16) :
    (ApiKey.generate first second).text ≠ [] := by
  intro h
  have length : (ApiKey.generate first second).text.length = 64 := by
    simp [ApiKey.generate, List.length_flatMap]
  rw [h] at length
  cases length

theorem supplied_ne {label : String} {key : Option Text} {fresh : ApiKey}
    (h : Summ.nonempty label key = .ok ()) (ne : fresh.text ≠ []) :
    ((key.map ApiKey.mk).getD fresh).text ≠ [] := by
  cases key with
  | none => exact ne
  | some key =>
    rintro (rfl : key = [])
    cases h

/-- No key a constructor puts in a policy is empty. -/
theorem Built.key_ne {policy : AuthPolicy} (built : policy.Built) {key : ApiKey}
    (h : policy.writeKey = some key ∨ policy.readKey = some key) : key.text ≠ [] := by
  cases built with
  | open_ => simp [writeKey, readKey] at h
  | @forPublicPull write a b _ _ built =>
    rw [AuthPolicy.forPublicPull] at built
    cases hw : Summ.nonempty "write" write with
    | error e =>
      rw [hw] at built
      cases built
    | ok =>
      rw [hw] at built
      cases built
      simp only [writeKey, readKey, Option.some.injEq, reduceCtorEq, or_false] at h
      rw [← h]
      exact supplied_ne hw (generate_ne a b)
  | @forPrivate read write a b c d _ _ built =>
    rw [AuthPolicy.forPrivate] at built
    cases hr : Summ.nonempty "read" read with
    | error e =>
      rw [hr] at built
      cases built
    | ok =>
      cases hw : Summ.nonempty "write" write with
      | error e =>
        rw [hr, hw] at built
        cases built
      | ok =>
        rw [hr, hw] at built
        cases built
        simp only [writeKey, readKey, Option.some.injEq] at h
        rcases h with rfl | rfl
        · exact supplied_ne hw (generate_ne c d)
        · exact supplied_ne hr (generate_ne a b)

section
variable {HeaderValue : Type} (toStr : HeaderValue → Option Text)

/-- The keys of the guarded modes, as the decision has them. -/
theorem authorizeKeys_iff {read : Option ApiKey} {write : ApiKey}
    (hwrite : write.text ≠ []) (hread : ∀ key, read = some key → key.text ≠ []) (method : Method)
    (header : Option HeaderValue) : authorizeKeys toStr read write method header = .ok () ↔
      (header = none ∧ read = none ∧ Access.of method = .read) ∨
      ∃ raw value key, header = some raw ∧ toStr raw = some value ∧ Yields Reads value key ∧
        (write = ⟨key⟩ ∨ read = some ⟨key⟩ ∧ Access.of method = .read) := by
  have matched {key : ApiKey} (ne : key.text ≠ []) (presented : Text) :
      key.matches_ presented = true ↔ key = ⟨presented⟩ := by
    rw [ApiKey.matches_iff]
    cases key
    simp only [ApiKey.mk.injEq]
    exact ⟨fun h => h.2.symm, fun h => ⟨ne, h.symm⟩⟩
  cases header with
  | none =>
    simp only [authorizeKeys]
    cases Access.of method <;> cases read <;> simp
  | some raw =>
    have yields (key : Text) : (∃ value, toStr raw = some value ∧ Yields Reads value key) ↔
        (toStr raw).bind credential = some key := by
      simp only [← credential_iff, Option.bind_eq_some_iff]
    have right : (∃ raw' value key, some raw = some raw' ∧ toStr raw' = some value ∧
        Yields Reads value key ∧ (write = ⟨key⟩ ∨ read = some ⟨key⟩ ∧ Access.of method = .read)) ↔
        ∃ key, (toStr raw).bind credential = some key ∧
          (write = ⟨key⟩ ∨ read = some ⟨key⟩ ∧ Access.of method = .read) := by
      simp only [← yields]
      constructor
      · rintro ⟨_, value, key, ⟨⟩, text, credential, holds⟩
        exact ⟨key, ⟨value, text, credential⟩, holds⟩
      · rintro ⟨key, ⟨value, text, credential⟩, holds⟩
        exact ⟨raw, value, key, rfl, text, credential, holds⟩
    rw [right]
    simp only [authorizeKeys, reduceCtorEq, false_and, false_or]
    cases (toStr raw).bind credential with
    | none => simp
    | some presented =>
      simp only [Option.some.injEq, exists_eq_left', matched hwrite]
      by_cases writes : write = ⟨presented⟩
      · simp [writes]
      · cases read with
        | none => simp [writes]
        | some read =>
          simp only [matched (hread read rfl), Option.some.injEq, writes, if_false, false_or]
          by_cases reads : read = ⟨presented⟩
          · cases Access.of method <;> simp [reads]
          · simp [reads]

/-- The decision is the description, for base64 as the decoder has it. -/
theorem authorize_iff_admits {policy : AuthPolicy} (built : policy.Built) (method : Method)
    (header : Option HeaderValue) :
    policy.authorize toStr method header = .ok () ↔ policy.Admits toStr Reads method header := by
  cases policy with
  | open_ => simp [authorize, Admits]
  | publicPull write =>
    have ne : write.text ≠ [] := built.key_ne (.inl rfl)
    rw [authorize, authorizeKeys_iff toStr ne (by simp)]
    simp [Admits, writeKey, readKey]
  | private_ read write =>
    have hwrite : write.text ≠ [] := built.key_ne (.inl rfl)
    have hread : read.text ≠ [] := built.key_ne (.inr rfl)
    rw [authorize, authorizeKeys_iff toStr hwrite (by rintro _ ⟨⟩; exact hread)]
    simp [Admits, writeKey, readKey]

/-- Authorization is sound and complete. The read key admits no write unless it is
the write key, a key repeated or cut short is no key, and the decoder inverts the
standard encoding, padded or not. -/
theorem authorize_iff {policy : AuthPolicy} (built : policy.Built) :
    (∀ method (header : Option HeaderValue),
      policy.authorize toStr method header = .ok () ↔ policy.Admits toStr Reads method header) ∧
    (∀ method raw value key, policy.readKey = some key → Access.of method = .write →
      toStr raw = some value → Yields Reads value key.text →
      policy.authorize toStr method (some raw) = .ok () → policy.writeKey = some key) ∧
    (∀ (key : ApiKey) (n : Nat), n ≠ 1 →
      key.matches_ (List.replicate n key.text).flatten = false) ∧
    (∀ (key : ApiKey) (presented : Text), presented <:+: key.text → presented ≠ key.text →
      key.matches_ presented = false) ∧
    ∀ bytes, base64Decode (Base64.encode bytes) = some bytes ∧
      base64Decode (Base64.unpadded bytes) = some bytes := by
  refine ⟨authorize_iff_admits toStr built, ?_, fun key n h => key.not_matches_repeated h,
    fun key presented _ h => key.not_matches_part h, fun bytes =>
      ⟨(base64Decode_iff _ _).mpr (Base64.reads_encode bytes),
        (base64Decode_iff _ _).mpr (Base64.reads_unpadded bytes)⟩⟩
  intro method raw value key hread writes text yields admitted
  rcases (authorize_iff_admits toStr built method (some raw)).mp admitted with
    rfl | ⟨none_, -⟩ | ⟨_, value', key', ⟨⟩, text', yields', holds⟩
  · cases hread
  · cases none_
  · obtain rfl : value = value' := Option.some.inj (text.symm.trans text')
    have same : some key.text = some key' :=
      ((credential_iff _ _).mpr yields).symm.trans ((credential_iff _ _).mpr yields')
    obtain rfl := Option.some.inj same
    rcases holds with holds | ⟨-, reads⟩
    · exact holds
    · rw [writes] at reads
      cases reads

end

theorem authorize_iff_pull : (forPublicPull (some "key".toList) (.generate (.replicate 16 0)
      (.replicate 16 0))).map (·.1) = .ok (.publicPull ⟨"key".toList⟩) ∧
    ∀ method (header : Option Text), (publicPull ⟨"key".toList⟩).authorize some method header =
      .ok () ↔ (publicPull ⟨"key".toList⟩).Admits some Reads method header :=
  ⟨rfl, (authorize_iff some (@Built.forPublicPull (some "key".toList) (.replicate 16 0)
    (.replicate 16 0) _ _ rfl)).1⟩

/-- The texts of the standard encoding, padded or not. -/
def Standard (t : Text) (bytes : Bytes) : Prop :=
  t = Base64.encode bytes ∨ t = Base64.unpadded bytes

/-- A key the constructor took, sent with a last character whose spare bits are not
zero: no standard encoding, and admitted. -/
theorem nonstandard_admitted : ¬ ∀ policy : AuthPolicy, policy.Built →
    ∀ method (header : Option Text), policy.authorize some method header = .ok () ↔
      policy.Admits some Standard method header := by
  intro admits
  have built : (publicPull ⟨"key".toList⟩).Built := @Built.forPublicPull (some "key".toList)
    (.replicate 16 0) (.replicate 16 0) _ _ rfl
  have decoded : base64Decode "dXNlcjprZXl=".toList = some (Bytes.utf8 "user:key".toList) := by
    decide +kernel
  have admitted : (publicPull ⟨"key".toList⟩).authorize some .put
      (some "Basic dXNlcjprZXl=".toList) = .ok () := by
    refine (authorize_iff_admits some built .put _).mpr (.inr (.inr ⟨_, _, _, rfl, rfl, ?_, .inl rfl⟩))
    exact ⟨"Basic".toList, "dXNlcjprZXl=".toList, rfl, by decide, by decide, .inr ⟨by decide,
      "user".toList, "key".toList, (base64Decode_iff _ _).mp decoded, by decide, rfl⟩⟩
  have described := (admits _ built .put (some "Basic dXNlcjprZXl=".toList)).mp admitted
  rcases described with h | ⟨h, -⟩ | ⟨_, _, key, ⟨⟩, ⟨⟩, yields, -⟩
  · cases h
  · cases h
  obtain ⟨scheme, rest, split, first, -, credential⟩ := yields
  have parts : splitOnce ' ' "Basic dXNlcjprZXl=".toList = some (scheme, rest) := by
    rw [split]
    exact splitOnce_append first rest
  rw [show splitOnce ' ' "Basic dXNlcjprZXl=".toList =
    some ("Basic".toList, "dXNlcjprZXl=".toList) by decide] at parts
  cases parts
  rcases credential with ⟨bearer, -⟩ | ⟨-, user, password, standard, -⟩
  · exact absurd bearer (by decide)
  · have trimmed : Texts.trim "dXNlcjprZXl=".toList = "dXNlcjprZXl=".toList := by decide +kernel
    rw [trimmed] at standard
    have reads : Reads "dXNlcjprZXl=".toList (Bytes.utf8 (user ++ ':' :: password)) := by
      rcases standard with h | h
      · rw [h]
        exact Base64.reads_encode _
      · rw [h]
        exact Base64.reads_unpadded _
    have bytes := (base64Decode_iff _ _).mpr reads
    rw [decoded] at bytes
    rw [← Option.some.inj bytes] at standard
    exact absurd standard (by unfold Standard; decide +kernel)

end AuthPolicy

end Summ
