import Summ.Registry.Operations

/-!
# Tags and their reverse edges

`TagsIndexed` says that a tag points at a manifest exactly when the manifest
has the tag's reverse edge, and that what a tag points at is stored. Every
operation keeps it.
-/

namespace Summ

namespace Store

structure TagsIndexed (s : Store) : Prop where
  reverse : ∀ repo t d, s.tagDigest repo t = some d ↔ s.has (.manifestTag repo d t) = true
  stored : ∀ repo t d, s.tagDigest repo t = some d → (s.manifestRecord repo d).isSome = true

theorem tagsIndexed_empty : (∅ : Store).TagsIndexed where
  reverse _ _ _ := by simp [tagDigest_eq, has]
  stored _ _ _ h := by simp [tagDigest_eq] at h

variable {s t : Store}

theorem SameRecords.has (same : s.SameRecords t) {k : Key} (hk : k.aboutManifests = true) :
    t.has k = s.has k := by rw [Store.has, Store.has, same k hk]

theorem SameRecords.manifestRecord (same : s.SameRecords t) (repo : RepoId) (d : Digest) :
    t.manifestRecord repo d = s.manifestRecord repo d := manifestRecord_congr (same _ rfl)

theorem SameRecords.tagDigest (same : s.SameRecords t) (repo : RepoId) (tag : Tag) :
    t.tagDigest repo tag = s.tagDigest repo tag := tagDigest_congr (same _ rfl)

theorem TagsIndexed.of_same (hs : s.TagsIndexed) (same : s.SameRecords t) : t.TagsIndexed where
  reverse repo tag d := by rw [same.tagDigest, same.has rfl, hs.reverse]
  stored repo tag d h := by
    rw [same.tagDigest] at h
    rw [same.manifestRecord]
    exact hs.stored repo tag d h

theorem tagsIndexed_setTag (hs : s.TagsIndexed) {repo : RepoId} {tag : Tag} {target : TagTarget}
    {now : Timestamp} (record : (s.manifestRecord repo target.digest).isSome = true) :
    (s.apply (setTagOps repo tag (s.tagDigest repo tag) target now)).TagsIndexed where
  reverse r u d := by
    have old := hs.reverse r u d
    rw [setTag_tagDigest, has_apply, setTagOps_manifestTag]
    by_cases hkey : repo = r ∧ tag = u
    · obtain ⟨rfl, rfl⟩ := hkey
      rw [if_pos ⟨rfl, rfl⟩, if_pos ⟨rfl, rfl⟩]
      by_cases hd : target.digest = d
      · simp [hd]
      · by_cases hprev : s.tagDigest repo tag = some d
        · simp [hd, hprev]
        · simp [hd, hprev, ← old]
    · rw [if_neg hkey, if_neg hkey, old]
      rfl
  stored r u d h := by
    rw [manifestRecord_congr (get_apply_of_effect (setTagOps_other rfl))]
    rw [setTag_tagDigest] at h
    split at h
    · rename_i hkey
      obtain ⟨rfl, rfl⟩ := hkey
      exact Option.some.inj h ▸ record
    · exact hs.stored r u d h

theorem tagsIndexed_deleteTag (hs : s.TagsIndexed) {repo : RepoId} {tag : Tag} {digest : Digest}
    {manifest : Option ManifestRecord} {now : Timestamp}
    (points : s.tagDigest repo tag = some digest) :
    (s.apply (deleteTagOps repo tag digest manifest now)).TagsIndexed where
  reverse r u d := by
    have old := hs.reverse r u d
    rw [deleteTag_tagDigest, has_apply, deleteTagOps_manifestTag]
    by_cases hkey : repo = r ∧ tag = u
    · obtain ⟨rfl, rfl⟩ := hkey
      by_cases hd : digest = d
      · simp [hd]
      · have hn : s.tagDigest repo tag ≠ some d := by simp [points, hd]
        simpa [hd, hn] using old
    · have hn : ¬ (repo = r ∧ digest = d ∧ tag = u) := fun h => hkey ⟨h.1, h.2.2⟩
      rw [if_neg hkey, if_neg hn, old]
      rfl
  stored r u d h := by
    rw [manifestRecord_congr (get_apply_of_effect (deleteTagOps_other rfl))]
    rw [deleteTag_tagDigest] at h
    split at h
    · cases h
    · exact hs.stored r u d h

theorem tagsIndexed_push (hs : s.TagsIndexed) {repo : RepoId} {c : CheckedPut} {ts : List Tag} :
    (s.apply (s.pushBatch repo c ts)).TagsIndexed where
  reverse r u d := by
    have old := hs.reverse r u d
    rw [push_tagDigest, has_apply, pushBatch_manifestTag]
    by_cases hkey : repo = r ∧ u ∈ ts
    · obtain ⟨rfl, hu⟩ := hkey
      rw [if_pos ⟨rfl, hu⟩, if_pos ⟨rfl, hu⟩]
      by_cases hd : c.digest = d
      · simp [hd]
      · by_cases hprev : s.tagDigest repo u = some d
        · simp [hd, hprev]
        · simp [hd, hprev, ← old]
    · rw [if_neg hkey, if_neg hkey, old]
      rfl
  stored r u d h := by
    rw [push_manifestRecord]
    rw [push_tagDigest] at h
    split
    · rfl
    · rename_i hne
      split at h
      · rename_i hkey
        exact absurd ⟨hkey.1, Option.some.inj h⟩ hne
      · exact hs.stored r u d h

theorem tagsIndexed_manifestDelete (hs : s.TagsIndexed) {repo : RepoId} {digest : Digest}
    {record : ManifestRecord} {now : Timestamp} :
    (s.apply (s.manifestDeleteBatch repo digest record now)).TagsIndexed where
  reverse r u d := by
    have old := hs.reverse r u d
    rw [manifestDelete_tagDigest, has_apply, manifestDelete_manifestTag]
    by_cases hkey : repo = r ∧ s.has (.manifestTag repo digest u) = true
    · obtain ⟨rfl, hu⟩ := hkey
      have points := (hs.reverse repo u digest).mpr hu
      by_cases hd : digest = d
      · subst hd
        simp [hu]
      · have hn : s.tagDigest repo u ≠ some d := by simp [points, hd]
        simpa [hd, hn, hu] using old
    · have hn : ¬ (repo = r ∧ digest = d ∧ s.has (.manifestTag repo digest u) = true) :=
        fun h => hkey ⟨h.1, h.2.2⟩
      rw [if_neg hkey, if_neg hn, old]
      rfl
  stored r u d h := by
    rw [manifestDelete_manifestRecord]
    rw [manifestDelete_tagDigest] at h
    split at h
    · cases h
    · rename_i hkey
      split
      · rename_i hd
        obtain ⟨rfl, rfl⟩ := hd
        exact absurd ⟨rfl, (hs.reverse repo u digest).mp h⟩ hkey
      · exact hs.stored r u d h

end Store

/-- Whatever an operation does, tags and their reverse edges stay in step. -/
theorem Outcome.tagsIndexed {s t : Store} {stores : Option (RepoId × CheckedPut)}
    {retags : Option (RepoId × List Tag × Option Digest)} (h : Outcome s stores retags t)
    (hs : s.TagsIndexed) : t.TagsIndexed := by
  cases h with
  | push same stored tagged => exact Store.tagsIndexed_push (hs.of_same same)
  | setTag record tagged => exact Store.tagsIndexed_setTag hs record
  | deleteTag points tagged => exact Store.tagsIndexed_deleteTag hs points
  | deleteManifest stored untagged => exact Store.tagsIndexed_manifestDelete hs
  | other same untagged => exact hs.of_same same

end Summ
