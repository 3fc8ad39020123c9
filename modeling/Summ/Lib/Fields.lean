import Mathlib.Data.List.Infix

/-!
# Fields written one after another

A string is the encodings of its fields in a row, where the fields so far say
which kind comes next. A kind is delimited when its encodings tell where they
end. `encode_prefix_iff`: a string of delimited fields starts another exactly
when its fields start the other's. `encode_injective`: where only the last
field of a string may be undelimited, the string has one reading.
-/

namespace Fields

variable {F β κ : Type*} (enc : F → List β) (kind : F → κ) (next : List F → Option κ)

/-- An encoding of this field's kind that starts like this field's is this field's. -/
def Delimited (f : F) : Prop :=
  ∀ g u v, kind f = kind g → enc f ++ u = enc g ++ v → f = g ∧ u = v

/-- The fields may follow `pre`. -/
def Shaped : List F → List F → Prop
  | _, [] => True
  | pre, f :: fs => next pre = some (kind f) ∧ Shaped (pre ++ [f]) fs

variable {enc kind next}

theorem encode_prefix_iff {pre p fs : List F} (hp : Shaped kind next pre p)
    (hfs : Shaped kind next pre fs) (delimited : ∀ f ∈ p, Delimited enc kind f)
    (nonempty : ∀ f ∈ p, enc f ≠ []) : p.flatMap enc <+: fs.flatMap enc ↔ p <+: fs := by
  induction p generalizing pre fs with
  | nil => simp
  | cons f p ih =>
    obtain ⟨delim, delimited⟩ := List.forall_mem_cons.mp delimited
    obtain ⟨ne, nonempty⟩ := List.forall_mem_cons.mp nonempty
    cases fs with
    | nil => simp [ne]
    | cons g fs =>
      have same : kind f = kind g := Option.some.inj (hp.1.symm.trans hfs.1)
      rw [List.flatMap_cons, List.flatMap_cons, List.cons_prefix_cons]
      constructor
      · rintro ⟨rest, h⟩
        rw [List.append_assoc] at h
        obtain ⟨rfl, tail⟩ := delim g _ _ same h
        exact ⟨rfl, (ih hp.2 hfs.2 delimited nonempty).mp ⟨rest, tail⟩⟩
      · rintro ⟨rfl, h⟩
        obtain ⟨rest, h⟩ := (ih hp.2 hfs.2 delimited nonempty).mpr h
        exact ⟨rest, by rw [List.append_assoc, h]⟩

/-- Two complete strings that read alike have the same fields. -/
theorem encode_injective {pre a b : List F} (ha : Shaped kind next pre a)
    (hb : Shaped kind next pre b) (enda : next (pre ++ a) = none) (endb : next (pre ++ b) = none)
    (delima : ∀ f ∈ a.dropLast, Delimited enc kind f)
    (delimb : ∀ f ∈ b.dropLast, Delimited enc kind f)
    (inj : ∀ f g, kind f = kind g → enc f = enc g → f = g)
    (h : a.flatMap enc = b.flatMap enc) : a = b := by
  induction a generalizing pre b with
  | nil =>
    cases b with
    | nil => rfl
    | cons g b =>
      rw [List.append_nil, hb.1] at enda
      cases enda
  | cons f a ih =>
    cases b with
    | nil =>
      rw [List.append_nil, ha.1] at endb
      cases endb
    | cons g b =>
      have same : kind f = kind g := Option.some.inj (ha.1.symm.trans hb.1)
      rw [List.flatMap_cons, List.flatMap_cons] at h
      have head : f = g ∧ a.flatMap enc = b.flatMap enc := by
        cases a with
        | cons f' a => exact delima f (by simp) g _ _ same h
        | nil =>
          cases b with
          | cons g' b =>
            obtain ⟨hgf, htail⟩ := delimb g (by simp) f _ _ same.symm h.symm
            exact ⟨hgf.symm, htail.symm⟩
          | nil => exact ⟨inj f g same (by simpa using h), rfl⟩
      obtain ⟨rfl, htail⟩ := head
      have tail {c : List F} {x : F} (hx : x ∈ c.dropLast) : x ∈ (f :: c).dropLast := by
        cases c with
        | nil => cases hx
        | cons y c => exact List.mem_cons_of_mem _ hx
      rw [ih ha.2 hb.2 (by simpa using enda) (by simpa using endb)
        (fun x hx => delima x (tail hx)) (fun x hx => delimb x (tail hx)) htail]

/-- A complete string of delimited fields starts no other. -/
theorem eq_of_encode_prefix {pre p fs : List F} (hp : Shaped kind next pre p)
    (hfs : Shaped kind next pre fs) (endp : next (pre ++ p) = none)
    (delimited : ∀ f ∈ p, Delimited enc kind f) (nonempty : ∀ f ∈ p, enc f ≠ [])
    (h : p.flatMap enc <+: fs.flatMap enc) : p = fs := by
  obtain ⟨rest, rfl⟩ := (encode_prefix_iff hp hfs delimited nonempty).mp h
  have after {a b : List F} {c : List F} (hs : Shaped kind next a (b ++ c)) :
      Shaped kind next (a ++ b) c := by
    induction b generalizing a with
    | nil => simpa using hs
    | cons x b ih => simpa using ih hs.2
  cases rest with
  | nil => simp
  | cons g rest =>
    rw [(after hfs).1] at endp
    cases endp

end Fields
