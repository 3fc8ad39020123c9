import Summ.Core.Digest

/-!
# The HTTP library's header values

`HeaderLib` is what the server uses of them: `HeaderValue::from_str` and
`HeaderValue::to_str`, and that visible ASCII, and no other text, goes through both.
-/

namespace Summ

/-- A character `HeaderValue::to_str` gives back. -/
def isVisible (c : Char) : Bool := (32 ≤ c.toNat && c.toNat < 127) || c = '\t'

/-- The HTTP library's header values: the one of a text, where there is one, and the
text of one. A text goes through both exactly when it is visible ASCII. -/
structure HeaderLib where
  HeaderValue : Type
  ofText : Text → Option HeaderValue
  toStr : HeaderValue → Option Text
  reads : ∀ t, (ofText t).bind toStr = if t.all isVisible then some t else none

theorem HeaderLib.made (lib : HeaderLib) {t : Text} (visible : t.all isVisible = true) :
    ∃ value, lib.ofText t = some value ∧ lib.toStr value = some t := by
  have read := lib.reads t
  rw [if_pos visible] at read
  exact Option.bind_eq_some_iff.mp read

/-- Header values that hold visible text and no other. -/
def textHeaders : HeaderLib where
  HeaderValue := Text
  ofText t := if t.all isVisible then some t else none
  toStr := some
  reads t := by
    split
    · rfl
    · rfl

end Summ
