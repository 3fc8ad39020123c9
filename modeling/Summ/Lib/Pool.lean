import Mathlib.Data.List.Basic

/-!
# Parties in flight

A pool is a list with one entry a party, so a party keeps its number for ever.
`of_set` and `of_add` say who an entry of a changed pool belongs to: the party
that moved or arrived, or one whose entry was there before.
-/

namespace Pool

variable {α : Type*} {pool : List α} {r r' : Nat} {a b x : α}

theorem get_set (h : pool[r]? = some a) (b : α) (r' : Nat) :
    (pool.set r b)[r']? = if r' = r then some b else pool[r']? := by
  obtain ⟨hlt, -⟩ := List.getElem?_eq_some_iff.mp h
  rw [List.getElem?_set]
  by_cases hr : r = r'
  · rw [if_pos hr, if_pos hr.symm, if_pos (hr ▸ hlt)]
  · rw [if_neg hr, if_neg (Ne.symm hr)]

theorem of_set (h : pool[r]? = some a) (hx : (pool.set r b)[r']? = some x) :
    r' = r ∧ x = b ∨ r' ≠ r ∧ pool[r']? = some x := by
  rw [get_set h] at hx
  split at hx
  · rename_i hr
    exact Or.inl ⟨hr, (Option.some.inj hx).symm⟩
  · rename_i hr
    exact Or.inr ⟨hr, hx⟩

theorem of_add (hx : (pool ++ [b])[r]? = some x) :
    r = pool.length ∧ x = b ∨ pool[r]? = some x := by
  rw [List.getElem?_append] at hx
  split at hx
  · exact Or.inr hx
  · rename_i hle
    obtain ⟨hlt, hget⟩ := List.getElem?_eq_some_iff.mp hx
    rw [List.length_singleton] at hlt
    have zero : r - pool.length = 0 := by omega
    refine Or.inl ⟨by omega, ?_⟩
    rw [← hget]
    simp only [zero, List.getElem_cons_zero]

theorem get_add (h : pool[r]? = some a) (b : α) : (pool ++ [b])[r]? = some a := by
  rw [List.getElem?_append_left (List.getElem?_eq_some_iff.mp h).1, h]

end Pool
