import Mathlib.Computability.RegularExpressions

/-!
# Regular expressions of characters and separators

What the expressions match that documented grammars are written in: a class, a
run of one, a bounded number of them, and items with separators between them.
-/

namespace Regular

open RegularExpression Computability

variable {α : Type*} {t : List α} {item sep : RegularExpression α}

/-- A class: one of these characters. -/
def oneOf (cs : List α) : RegularExpression α := (cs.map char).foldr (· + ·) 0

/-- These characters, in this order. -/
def literal (cs : List α) : RegularExpression α := (cs.map char).foldr (· * ·) 1

/-- Once or more. -/
def many (r : RegularExpression α) : RegularExpression α := r * star r

/-- An item, and then separators each with an item after it. -/
def separated (item sep : RegularExpression α) : RegularExpression α := item * star (sep * item)

theorem mem_oneOf {cs : List α} : t ∈ (oneOf cs).matches' ↔ ∃ c ∈ cs, t = [c] := by
  induction cs with
  | nil => exact iff_of_false (fun h => h) (by simp)
  | cons c cs ih =>
    change t ∈ (char c + oneOf cs).matches' ↔ _
    rw [matches'_add, Language.mem_add, ih, matches'_char]
    exact (List.exists_mem_cons_iff (fun d => t = [d]) c cs).symm

theorem mem_literal {cs : List α} : t ∈ (literal cs).matches' ↔ t = cs := by
  induction cs generalizing t with
  | nil => rfl
  | cons c cs ih =>
    change t ∈ (char c * literal cs).matches' ↔ _
    rw [matches'_mul, matches'_char, Language.mem_mul]
    constructor
    · rintro ⟨a, rfl, b, hb, rfl⟩
      rw [ih.mp hb]
      rfl
    · rintro rfl
      exact ⟨[c], rfl, cs, ih.mpr rfl, rfl⟩

theorem mem_mul {r u : RegularExpression α} :
    t ∈ (r * u).matches' ↔ ∃ a ∈ r.matches', ∃ b ∈ u.matches', a ++ b = t := by
  rw [matches'_mul, Language.mem_mul]

theorem mem_add {r u : RegularExpression α} :
    t ∈ (r + u).matches' ↔ t ∈ r.matches' ∨ t ∈ u.matches' := by
  rw [matches'_add, Language.mem_add]

/-- Any number of a class. -/
theorem mem_star_oneOf {cs : List α} : t ∈ (star (oneOf cs)).matches' ↔ ∀ c ∈ t, c ∈ cs := by
  rw [matches'_star, Language.mem_kstar]
  constructor
  · rintro ⟨L, rfl, all⟩ c hc
    obtain ⟨y, hy, hc⟩ := List.mem_flatten.mp hc
    obtain ⟨d, hd, rfl⟩ := mem_oneOf.mp (all y hy)
    rw [List.mem_singleton.mp hc]
    exact hd
  · intro all
    refine ⟨t.map fun c => [c], (List.flatMap_singleton' t).symm, fun y hy => ?_⟩
    obtain ⟨c, hc, rfl⟩ := List.mem_map.mp hy
    exact mem_oneOf.mpr ⟨c, all c hc, rfl⟩

theorem mem_many_oneOf {cs : List α} :
    t ∈ (many (oneOf cs)).matches' ↔ t ≠ [] ∧ ∀ c ∈ t, c ∈ cs := by
  rw [many, mem_mul]
  constructor
  · rintro ⟨a, ha, b, hb, rfl⟩
    obtain ⟨c, hc, rfl⟩ := mem_oneOf.mp ha
    exact ⟨List.cons_ne_nil c b, List.forall_mem_cons.mpr ⟨hc, mem_star_oneOf.mp hb⟩⟩
  · rintro ⟨left, all⟩
    cases t with
    | nil => exact absurd rfl left
    | cons c t =>
      obtain ⟨hc, ht⟩ := List.forall_mem_cons.mp all
      exact ⟨[c], mem_oneOf.mpr ⟨c, hc, rfl⟩, t, mem_star_oneOf.mpr ht, rfl⟩

/-- So many of a class. -/
theorem mem_pow_oneOf {cs : List α} {n : ℕ} :
    t ∈ ((oneOf cs) ^ n).matches' ↔ t.length = n ∧ ∀ c ∈ t, c ∈ cs := by
  rw [matches'_pow]
  induction n generalizing t with
  | zero =>
    rw [pow_zero, Language.mem_one, List.length_eq_zero_iff]
    exact ⟨fun h => ⟨h, by rw [h]; exact nofun⟩, fun h => h.1⟩
  | succ n ih =>
    rw [pow_succ', Language.mem_mul]
    constructor
    · rintro ⟨a, ha, b, hb, rfl⟩
      obtain ⟨c, hc, rfl⟩ := mem_oneOf.mp ha
      obtain ⟨length, all⟩ := ih.mp hb
      exact ⟨by rw [List.length_append, length, Nat.add_comm]; rfl,
        List.forall_mem_cons.mpr ⟨hc, all⟩⟩
    · rintro ⟨length, all⟩
      cases t with
      | nil => cases length
      | cons c t =>
        obtain ⟨hc, ht⟩ := List.forall_mem_cons.mp all
        exact ⟨[c], mem_oneOf.mpr ⟨c, hc, rfl⟩, t,
          ih.mpr ⟨Nat.succ.inj length, ht⟩, rfl⟩

/-- At most so many of a class. -/
theorem mem_pow_optional {cs : List α} {n : ℕ} :
    t ∈ ((1 + oneOf cs) ^ n).matches' ↔ t.length ≤ n ∧ ∀ c ∈ t, c ∈ cs := by
  rw [matches'_pow]
  induction n generalizing t with
  | zero =>
    rw [pow_zero, Language.mem_one, Nat.le_zero, List.length_eq_zero_iff]
    exact ⟨fun h => ⟨h, by rw [h]; exact nofun⟩, fun h => h.1⟩
  | succ n ih =>
    rw [pow_succ', Language.mem_mul]
    constructor
    · rintro ⟨a, ha, b, hb, rfl⟩
      obtain ⟨length, all⟩ := ih.mp hb
      rcases mem_add.mp ha with rfl | ha
      · exact ⟨Nat.le_succ_of_le length, all⟩
      · obtain ⟨c, hc, rfl⟩ := mem_oneOf.mp ha
        exact ⟨Nat.succ_le_succ length, List.forall_mem_cons.mpr ⟨hc, all⟩⟩
    · rintro ⟨length, all⟩
      cases t with
      | nil => exact ⟨[], mem_add.mpr (Or.inl rfl), [], ih.mpr ⟨Nat.zero_le n, all⟩, rfl⟩
      | cons c t =>
        obtain ⟨hc, ht⟩ := List.forall_mem_cons.mp all
        exact ⟨[c], mem_add.mpr (Or.inr (mem_oneOf.mpr ⟨c, hc, rfl⟩)), t,
          ih.mpr ⟨Nat.le_of_succ_le_succ length, ht⟩, rfl⟩

/-! ## Items and separators -/

theorem separated_one (h : t ∈ item.matches') : t ∈ (separated item sep).matches' := by
  rw [separated, mem_mul]
  refine ⟨t, h, [], ?_, List.append_nil t⟩
  rw [matches'_star]
  exact Language.nil_mem_kstar _

theorem separated_more {a b : List α} (ha : a ∈ item.matches') (hb : b ∈ sep.matches')
    (ht : t ∈ (separated item sep).matches') : a ++ (b ++ t) ∈ (separated item sep).matches' := by
  obtain ⟨first, hf, others, ho, rfl⟩ := mem_mul.mp ht
  rw [matches'_star] at ho
  obtain ⟨L, rfl, all⟩ := Language.mem_kstar.mp ho
  refine mem_mul.mpr ⟨a, ha, b ++ (first ++ L.flatten), ?_, rfl⟩
  rw [matches'_star]
  refine Language.mem_kstar.mpr ⟨(b ++ first) :: L, by simp, ?_⟩
  exact List.forall_mem_cons.mpr ⟨mem_mul.mpr ⟨b, hb, first, hf, rfl⟩, all⟩

/-- One item after the other. -/
theorem separated_induction {P : List α → Prop} (one : ∀ a ∈ item.matches', P a)
    (more : ∀ a ∈ item.matches', ∀ b ∈ sep.matches', ∀ t, t ∈ (separated item sep).matches' →
      P t → P (a ++ (b ++ t)))
    (h : t ∈ (separated item sep).matches') : P t := by
  obtain ⟨a, ha, others, ho, rfl⟩ := mem_mul.mp h
  rw [matches'_star] at ho
  obtain ⟨L, rfl, all⟩ := Language.mem_kstar.mp ho
  clear h ho
  induction L generalizing a with
  | nil =>
    rw [List.flatten_nil, List.append_nil]
    exact one a ha
  | cons y L ih =>
    obtain ⟨hy, rest⟩ := List.forall_mem_cons.mp all
    obtain ⟨b, hb, next, hn, rfl⟩ := mem_mul.mp hy
    rw [List.flatten_cons, List.append_assoc]
    refine more a ha b hb _ (mem_mul.mpr ⟨next, hn, L.flatten, ?_, rfl⟩) (ih next hn rest)
    rw [matches'_star]
    exact Language.mem_kstar.mpr ⟨L, rfl, rest⟩

end Regular
