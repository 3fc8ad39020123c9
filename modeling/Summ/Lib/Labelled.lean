import Mathlib.Data.Option.Basic

/-!
# Labelled contents, and directories of them

`Labelled` is contents under addresses with labels that each point at an address
something is stored under. A `Directory` gives some names a value each. Both are
what a reader sees of a store that files them under keys of its own.
-/

/-- Contents under addresses, and labels. No label points at nothing. -/
@[ext] structure Labelled (δ κ τ : Type*) where
  contents : δ → Option κ
  labels : τ → Option δ
  points : ∀ t d, labels t = some d → (contents d).isSome = true

namespace Labelled

variable {δ κ τ : Type*}

def empty : Labelled δ κ τ where
  contents _ := none
  labels _ := none
  points _ _ h := by cases h

def holds (r : Labelled δ κ τ) (d : δ) : Bool := (r.contents d).isSome

/-- What a label names. -/
def named (r : Labelled δ κ τ) (t : τ) : Option κ := (r.labels t).bind r.contents

variable [DecidableEq δ] [DecidableEq τ]

/-- Store content under an address, and point labels at it. -/
def put (r : Labelled δ κ τ) (d : δ) (content : κ) (ts : List τ) : Labelled δ κ τ where
  contents e := if e = d then some content else r.contents e
  labels t := if t ∈ ts then some d else r.labels t
  points t e h := by
    split
    · rfl
    · rename_i other
      split at h
      · cases h
        exact absurd rfl other
      · exact r.points t e h

/-- Point a label at an address, where something is stored under it. -/
def label (r : Labelled δ κ τ) (t : τ) (d : δ) : Labelled δ κ τ where
  contents := r.contents
  labels u := if u = t ∧ r.holds d = true then some d else r.labels u
  points u e h := by
    split at h
    · rename_i pointed
      cases h
      exact pointed.2
    · exact r.points u e h

omit [DecidableEq δ] in
def unlabel (r : Labelled δ κ τ) (t : τ) : Labelled δ κ τ where
  contents := r.contents
  labels u := if u = t then none else r.labels u
  points u e h := by
    split at h
    · cases h
    · exact r.points u e h

omit [DecidableEq τ] in
/-- Remove what is stored under an address, and the labels that point at it. -/
def remove (r : Labelled δ κ τ) (d : δ) : Labelled δ κ τ where
  contents e := if e = d then none else r.contents e
  labels t := if r.labels t = some d then none else r.labels t
  points t e h := by
    split at h
    · cases h
    · rename_i other
      rw [if_neg]
      · exact r.points t e h
      · rintro rfl
        exact other h

end Labelled

/-- Some names, each with a value. -/
abbrev Directory (ν ρ : Type*) := ν → Option ρ

namespace Directory

variable {ν ρ : Type*} [DecidableEq ν]

def none : Directory ν ρ := fun _ => .none

/-- Enter a name, with a first value where it has none. -/
def enter (c : Directory ν ρ) (name : ν) (fresh : ρ) : Directory ν ρ :=
  fun n => if n = name then some ((c n).getD fresh) else c n

/-- Change the value of a name, where it has one. -/
def update (c : Directory ν ρ) (name : ν) (f : ρ → ρ) : Directory ν ρ :=
  fun n => if n = name then (c n).map f else c n

def drop (c : Directory ν ρ) (name : ν) : Directory ν ρ :=
  fun n => if n = name then .none else c n

end Directory
