import Summ.Registry.TagIndex
import Summ.Serial.Edits

/-!
# Tags, their reverse keys, manifests and bodies

In every store a run of calls reaches, a tag resolves to a manifest exactly when
the manifest has the tag's reverse key, what it resolves to is stored, and a
manifest's record and body come together.
-/

namespace Summ

namespace Store

/-- A manifest's record and body are stored together. -/
def BodiesStored (s : Store) : Prop :=
  ∀ repo d, s.has (.manifest repo d) = s.has (.manifestBody repo d)

structure TagKeysAgree (s : Store) : Prop where
  tags : s.TagsIndexed
  bodies : s.BodiesStored

theorem has_manifest {s : Store} {repo : RepoId} {d : Digest} :
    s.has (.manifest repo d) = (s.manifestRecord repo d).isSome := by
  unfold has manifestRecord
  cases h : s.get (.manifest repo d) with
  | none => rfl
  | some v =>
    have fits := fits_of_get h
    cases v <;> first | rfl | cases fits

theorem has_manifestBody {s : Store} {repo : RepoId} {d : Digest} :
    s.has (.manifestBody repo d) = (s.manifestBody repo d).isSome := by
  unfold has manifestBody
  cases h : s.get (.manifestBody repo d) with
  | none => rfl
  | some v =>
    have fits := fits_of_get h
    cases v <;> first | rfl | cases fits

theorem has_manifestTag_iff {s : Store} {repo : RepoId} {d : Digest} :
    s.existsPrefix (.tagsOfManifest repo d) = true ↔
      ∃ t, s.has (.manifestTag repo d t) = true := by
  rw [existsPrefix_iff]
  constructor
  · rintro ⟨k, v, hk, hv⟩
    cases k with
    | manifestTag r d' t =>
      obtain ⟨rfl, rfl⟩ : repo = r ∧ d = d' := by simpa [Scan.covers] using hk
      exact ⟨t, by simp [has, hv]⟩
    | _ => cases hk
  · rintro ⟨t, ht⟩
    obtain ⟨v, hv⟩ := Option.isSome_iff_exists.mp ht
    exact ⟨_, v, by simp [Scan.covers], hv⟩

variable {s : Store}

theorem tagsIndexed_finish (hs : s.TagsIndexed) (id : RepoId) :
    (s.apply (sweepFinishBatch id)).TagsIndexed where
  reverse repo t d := by
    have old := hs.reverse repo t d
    rw [tagDigest_eq, get_apply, has_apply, sweepFinishBatch_effect, sweepFinishBatch_effect]
    by_cases hid : repo = id
    · simp [Key.dropped, Key.repo, hid]
    · simpa [Key.dropped, Key.repo, hid, ← tagDigest_eq] using old
  stored repo t d h := by
    have old := hs.stored repo t d
    rw [← has_manifest, has_apply, sweepFinishBatch_effect]
    rw [tagDigest_eq, get_apply, sweepFinishBatch_effect] at h
    by_cases hid : repo = id
    · simp [Key.dropped, Key.repo, hid] at h
    · simp only [Key.dropped, Key.repo, Option.some.injEq, hid, decide_false, Bool.false_eq_true,
        if_false, Option.getD_none, ← tagDigest_eq] at h
      simpa [Key.dropped, Key.repo, hid, has_manifest] using old h

end Store

section
variable {oci : Oci} {options : RegistryOptions} {s t : Store} {c : Call}

theorem Edit.tagsIndexed (h : Edit oci options s c t) (hs : s.TagsIndexed) : t.TagsIndexed := by
  cases h with
  | push pushes checked interned tags =>
    exact Store.tagsIndexed_push (hs.of_same interned.sameContents.records)
  | setTag record => exact Store.tagsIndexed_setTag hs record
  | deleteTag points => exact Store.tagsIndexed_deleteTag hs points
  | deleteManifest stored => exact Store.tagsIndexed_manifestDelete hs
  | finishSweep finishes => exact Store.tagsIndexed_finish hs _
  | none same refs => exact hs.of_same same.records

theorem Edit.bodiesStored (h : Edit oci options s c t) (hs : s.BodiesStored) : t.BodiesStored := by
  intro repo d
  have old := hs repo d
  cases h with
  | @push put extraTags c id s₀ ts pushes checked interned tags =>
    rw [Store.has_apply, Store.has_apply, Store.pushBatch_manifest, Store.pushBatch_manifestBody,
      interned.sameContents.has rfl, interned.sameContents.has rfl, old]
    by_cases hkey : id = repo ∧ c.digest = d
    · rw [if_pos hkey, if_pos hkey]
      rfl
    · rw [if_neg hkey, if_neg hkey]
  | setTag record =>
    rwa [Store.has_apply_of_effect (setTagOps_other rfl),
      Store.has_apply_of_effect (setTagOps_other rfl)]
  | deleteTag points =>
    rwa [Store.has_apply_of_effect (deleteTagOps_other rfl),
      Store.has_apply_of_effect (deleteTagOps_other rfl)]
  | deleteManifest stored =>
    rw [Store.has_apply, Store.has_apply, Store.manifestDelete_manifest,
      Store.manifestDelete_manifestBody, old]
  | finishSweep finishes =>
    rw [Store.has_apply, Store.has_apply, sweepFinishBatch_effect, sweepFinishBatch_effect, old]
    rfl
  | none same refs => rwa [same.has rfl, same.has rfl]

end

/-- In every store that a run of calls reaches, whatever the interner's capacity
and for every repository, live or not: tags and reverse keys agree, a tag
resolves to a stored manifest, records and bodies come together, and the purge
finds a manifest untagged exactly when no tag resolves to it. -/
theorem tag_keys_agree (oci : Oci) (options : RegistryOptions) (entries : Nat) (calls : List Call)
    (sys : System)
    (run : Transition.exec (System.step oci) (.start options entries) calls = some sys)
    (repo : RepoId) (d : Digest) :
    (∀ t, sys.store.tagDigest repo t = some d ↔ sys.store.has (.manifestTag repo d t) = true) ∧
    (∀ t, sys.store.tagDigest repo t = some d → (sys.store.manifestRecord repo d).isSome = true) ∧
    ((sys.store.manifestRecord repo d).isSome = (sys.store.manifestBody repo d).isSome) ∧
    (sys.store.existsPrefix (.tagsOfManifest repo d) = false ↔
      ∀ t, sys.store.tagDigest repo t ≠ some d) := by
  have agree : sys.store.TagKeysAgree := by
    refine (System.run_invariant (I := fun sys => sys.store.TagKeysAgree) ?_ ?_ run).2.2
    · exact ⟨Store.tagsIndexed_empty, fun _ _ => rfl⟩
    · rintro sys c sys' coherent - ⟨tags, bodies⟩ hstep
      obtain ⟨accepted, hcall⟩ := System.call_of_step hstep
      have edit := (System.effect_of_call coherent hcall).effect.edit
      exact ⟨edit.tagsIndexed tags, edit.bodiesStored bodies⟩
  refine ⟨fun t => agree.tags.reverse repo t d, fun t => agree.tags.stored repo t d, ?_, ?_⟩
  · rw [← Store.has_manifest, ← Store.has_manifestBody]
    exact agree.bodies repo d
  · rw [Bool.eq_false_iff, Ne, Store.has_manifestTag_iff, not_exists]
    exact forall_congr' fun t => not_congr (agree.tags.reverse repo t d).symm

def latestTag : Tag where
  text := "latest".toList
  valid := by decide

/-- The empty index is pushed under a tag and by digest, and its repository is
dropped. -/
def pushedAndDropped : List Call :=
  [.operation (pushIndex emptyIndex (.tag latestTag) 1),
    .operation (pushIndex emptyIndex (.digest emptyIndex.digest) 2),
    .deleteRepository "app".toList (.fromSecs 3), .startSweep 0]

theorem tag_keys_agree_dropped : ∃ sys,
    Transition.exec (System.step indexOci) (.start {} 1) pushedAndDropped = some sys ∧
      (sys.store.existsPrefix (.tagsOfManifest 0 emptyIndex.digest) = false ↔
        ∀ t, sys.store.tagDigest 0 t ≠ some emptyIndex.digest) := by
  obtain ⟨sys, run⟩ : ∃ sys,
      Transition.exec (System.step indexOci) (.start {} 1) pushedAndDropped = some sys :=
    Option.isSome_iff_exists.mp (by decide +kernel)
  exact ⟨sys, run, (tag_keys_agree indexOci {} 1 pushedAndDropped sys run 0
    emptyIndex.digest).2.2.2⟩

end Summ
