import Summ.Registry.Error

/-! References, tags in the grammar, and the digests that artifact tags name. -/

namespace Summ

/-- `validate_tag`. What passes is a tag. -/
def validateTag (tag : Text) : Except RegistryError Tag :=
  match tag with
  | [] => .error (.tagInvalid tag "empty")
  | first :: chars =>
    if !(isAsciiAlphanumeric first || first = '_') then
      .error (.tagInvalid tag "first character must be alphanumeric or '_'")
    else if MAX_TAG_LEN < (first :: chars).length then
      .error (.tagInvalid tag "longer than 128 characters")
    else if h : isTag (first :: chars) then .ok ⟨first :: chars, h⟩
    else .error (.tagInvalid tag "characters must be [a-zA-Z0-9._-]")

/-- A text in the grammar validates to itself, and nothing else validates. -/
theorem validateTag_eq_ok {text : Text} {t : Tag} : validateTag text = .ok t ↔ t.text = text := by
  unfold validateTag
  split
  · simp only [reduceCtorEq, false_iff]
    intro h
    have := t.valid
    rw [h] at this
    cases this
  · rename_i first chars
    split
    · rename_i hfirst
      simp only [reduceCtorEq, false_iff]
      intro h
      have := t.valid
      simp_all [isTag]
    · split
      · rename_i hlen
        simp only [reduceCtorEq, false_iff]
        intro h
        have := t.valid
        simp only [h, isTag, Bool.and_eq_true, decide_eq_true_eq] at this
        omega
      · split
        · simp only [Except.ok.injEq, Tag.ext_iff]
          exact eq_comm
        · rename_i hvalid
          simp only [reduceCtorEq, false_iff]
          intro h
          exact hvalid (h ▸ t.valid)

/-- A manifest reference: a tag or a digest. -/
inductive Reference
  | tag (tag : Tag)
  | digest (digest : Digest)
  deriving DecidableEq

namespace Reference

def asTag : Reference → Option Text
  | tag t => some t.text
  | digest _ => none

def asDigest : Reference → Option Digest
  | tag _ => none
  | digest d => some d

end Reference

/-- Suffixes cosign and friends use. -/
def ARTIFACT_SUFFIXES : List Text := ["sig".toList, "sbom".toList, "att".toList]

/-- The subject digest a legacy artifact tag names, if it is one. A tag is ASCII,
so the digest parser does not panic on its parts. -/
def subjectOfArtifactTag (tag : Text) : Option Digest := do
  let (head, suffix) ← rsplitOnce '.' tag
  if suffix ∉ ARTIFACT_SUFFIXES then none
  else
    let (algorithm, encoded) ← splitOnce '-' head
    match Digest.fromStr (algorithm ++ ':' :: encoded) with
    | some (.ok subject) => some subject
    | _ => none

end Summ
