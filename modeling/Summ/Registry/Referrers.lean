import Summ.Registry.TagIndex

/-!
# The referrer index

An edge says that a manifest refers to a subject, and it may stand for several
reasons at once: the record's own subject, and each artifact tag at the
manifest. A tag write retracts the edge for its own reason alone. `Retagged` is
what every tag write has in common; the index stays complete along a run exactly
when no write takes a reason away while another one stands.
-/

namespace Summ

namespace Store

/-- The tags that point at a manifest. -/
def tagsAt (s : Store) (repo : RepoId) (d : Digest) : List Tag :=
  s.map.entries.filterMap fun
    | (.tag r t, .tag record) => if r = repo ∧ record.digest = d then some t else none
    | _ => none

/-- The record names the subject, or an artifact tag naming it points here. -/
def Refers (s : Store) (repo : RepoId) (d : Digest) (record : ManifestRecord) (subject : Digest) :
    Prop :=
  record.subject = some subject ∨
    ∃ t, s.tagDigest repo t = some d ∧ subjectOfArtifactTag t.text = some subject

def ReferrersComplete (s : Store) : Prop :=
  ∀ repo d record subject, s.manifestRecord repo d = some record →
    s.Refers repo d record subject → s.has (.referrer repo subject d) = true

/-- If `d` is stored, only the tags listed make it refer to the subject. -/
def RefersByTags (s : Store) (repo : RepoId) (ts : List Tag) (subject d : Digest) : Prop :=
  ∀ record ∈ s.manifestRecord repo d, record.subject ≠ some subject ∧
    ∀ u ∈ s.tagsAt repo d, subjectOfArtifactTag u.text = some subject → u ∈ ts

instance (s : Store) (repo : RepoId) (ts : List Tag) (subject d : Digest) :
    Decidable (s.RefersByTags repo ts subject d) :=
  inferInstanceAs (Decidable (∀ record ∈ s.manifestRecord repo d, _ ∧ ∀ u ∈ s.tagsAt repo d, _))

/-- Every edge that pointing the tags at `target`, or deleting them, retracts
stands for those tags alone. -/
def SoleReasons (s : Store) (repo : RepoId) (ts : List Tag) (target : Option Digest) : Prop :=
  ∀ t ∈ ts, ∀ subject ∈ subjectOfArtifactTag t.text, ∀ d ∈ s.tagDigest repo t, target ≠ some d →
    s.RefersByTags repo ts subject d

instance (s : Store) (repo : RepoId) (ts : List Tag) (target : Option Digest) :
    Decidable (s.SoleReasons repo ts target) :=
  inferInstanceAs (Decidable (∀ t ∈ ts, ∀ subject ∈ subjectOfArtifactTag t.text,
    ∀ d ∈ s.tagDigest repo t, target ≠ some d → s.RefersByTags repo ts subject d))

variable {s t : Store}

theorem mem_tagsAt {repo : RepoId} {d : Digest} {u : Tag} :
    u ∈ s.tagsAt repo d ↔ s.tagDigest repo u = some d := by
  rw [tagsAt, List.mem_filterMap, tagDigest, Option.map_eq_some_iff]
  constructor
  · rintro ⟨⟨k, v⟩, hmem, hu⟩
    split at hu
    · rename_i r u' record hkv
      cases hkv
      split at hu
      · rename_i h
        cases hu
        exact ⟨record, tagRecord_eq_some.mpr (OrderedMap.get_eq_some.mpr (h.1 ▸ hmem)), h.2⟩
      · cases hu
    · cases hu
  · rintro ⟨record, hrecord, rfl⟩
    exact ⟨_, OrderedMap.get_eq_some.mp (tagRecord_eq_some.mp hrecord), if_pos ⟨rfl, rfl⟩⟩

/-- A write that points the tags of one repository at `target`, or deletes them:
of the edges it retracts just those of the artifact tags it takes from another
manifest. -/
structure Retagged (s t : Store) (repo : RepoId) (ts : List Tag) (target : Option Digest) :
    Prop where
  tags : ∀ r u, t.tagDigest r u = if repo = r ∧ u ∈ ts then target else s.tagDigest r u
  others : ∀ r d, ¬ (repo = r ∧ target = some d) → t.manifestRecord r d = s.manifestRecord r d
  own : ∀ d record, target = some d → t.manifestRecord repo d = some record →
    s.manifestRecord repo d = some record ∨
      ∀ subject, record.subject = some subject → t.has (.referrer repo subject d) = true
  gains : ∀ d subject, target = some d →
    (∃ u ∈ ts, subjectOfArtifactTag u.text = some subject) ∨
      s.has (.referrer repo subject d) = true →
    t.has (.referrer repo subject d) = true
  retracts : ∀ r subject d, ¬ (repo = r ∧ target = some d) →
    (t.has (.referrer r subject d) = true ↔ s.has (.referrer r subject d) = true ∧
      ¬ (repo = r ∧ ∃ u ∈ ts, subjectOfArtifactTag u.text = some subject ∧
        s.tagDigest repo u = some d))

theorem retagged_setTag (repo : RepoId) (tag : Tag) (target : TagTarget) (now : Timestamp) :
    Retagged s (s.apply (setTagOps repo tag (s.tagDigest repo tag) target now)) repo [tag]
      (some target.digest) where
  tags r u := by
    rw [setTag_tagDigest]
    simp only [List.mem_singleton, eq_comm (a := tag)]
  others r d _ := manifestRecord_congr (get_apply_of_effect (setTagOps_other rfl))
  own d record _ h := by
    rw [manifestRecord_congr (get_apply_of_effect (setTagOps_other rfl))] at h
    exact Or.inl h
  gains d subject hd h := by
    rw [has_apply, setTagOps_referrer]
    by_cases hsub : subjectOfArtifactTag tag.text = some subject
    · simp [hsub, Option.some.inj hd]
    · simpa [hsub] using h
  retracts r subject d hd := by
    rw [has_apply, setTagOps_referrer]
    by_cases hkey : repo = r ∧ subjectOfArtifactTag tag.text = some subject
    · obtain ⟨rfl, hsub⟩ := hkey
      have hne : target.digest ≠ d := by simpa using hd
      by_cases hprev : s.tagDigest repo tag = some d <;> simp [hsub, hne, hprev]
    · simp only [List.mem_singleton, exists_eq_left]
      rw [if_neg hkey]
      simp only [Option.map_none, Option.getD_none, iff_self_and]
      exact fun _ h => hkey ⟨h.1, h.2.1⟩

theorem retagged_deleteTag {repo : RepoId} {tag : Tag} {digest : Digest}
    (points : s.tagDigest repo tag = some digest) (manifest : Option ManifestRecord)
    (now : Timestamp) :
    Retagged s (s.apply (deleteTagOps repo tag digest manifest now)) repo [tag] none where
  tags r u := by
    rw [deleteTag_tagDigest]
    simp only [List.mem_singleton, eq_comm (a := tag)]
  others r d _ := manifestRecord_congr (get_apply_of_effect (deleteTagOps_other rfl))
  own _ _ h := by cases h
  gains _ _ h := by cases h
  retracts r subject d _ := by
    rw [has_apply, deleteTagOps_referrer]
    simp only [List.mem_singleton, exists_eq_left, points, Option.some.injEq]
    by_cases hkey : repo = r ∧ digest = d ∧ subjectOfArtifactTag tag.text = some subject
    · simp [hkey]
    · rw [if_neg hkey]
      simp only [Option.map_none, Option.getD_none, iff_self_and]
      exact fun _ h => hkey ⟨h.1, h.2.2, h.2.1⟩

theorem retagged_push (repo : RepoId) (c : CheckedPut) (ts : List Tag) :
    Retagged s (s.apply (s.pushBatch repo c ts)) repo ts (some c.digest) where
  tags r u := push_tagDigest r u
  others r d hd := by rw [push_manifestRecord, if_neg (by simpa using hd)]
  own d record hd h := by
    obtain rfl := Option.some.inj hd
    rw [push_manifestRecord, if_pos ⟨rfl, rfl⟩] at h
    cases h
    refine Or.inr fun subject hsub => ?_
    rw [has_apply, pushBatch_referrer_self, if_pos ⟨rfl, Or.inl hsub⟩]
    rfl
  gains d subject hd h := by
    obtain rfl := Option.some.inj hd
    rw [has_apply, pushBatch_referrer_self]
    split
    · rfl
    · rename_i hn
      rcases h with h | h
      · exact absurd ⟨rfl, Or.inr h⟩ hn
      · exact h
  retracts r subject d hd := by
    by_cases hne : c.digest = d
    · have hr : repo ≠ r := fun hr => hd ⟨hr, congrArg some hne⟩
      subst hne
      rw [has_apply, pushBatch_referrer_self, if_neg fun h => hr h.1]
      simp [hr]
    · rw [has_apply, pushBatch_referrer_other hne]
      by_cases hkey : repo = r ∧ ∃ u ∈ ts, subjectOfArtifactTag u.text = some subject ∧
          s.tagDigest repo u = some d
      · rw [if_pos hkey]
        exact iff_of_false (by simp) fun h => h.2 hkey
      · rw [if_neg hkey]
        exact (and_iff_left hkey).symm

/-- A tag write keeps the index complete when every reason it takes was alone. -/
theorem Retagged.complete {repo : RepoId} {ts : List Tag} {target : Option Digest}
    (w : Retagged s t repo ts target) (tags : s.TagsIndexed) (complete : s.ReferrersComplete)
    (sole : s.SoleReasons repo ts target) : t.ReferrersComplete := by
  intro r d record subject hrecord refers
  by_cases hd : repo = r ∧ target = some d
  · obtain ⟨rfl, hd⟩ := hd
    have kept {old : ManifestRecord} (hold : s.manifestRecord repo d = some old)
        (h : s.Refers repo d old subject) : t.has (.referrer repo subject d) = true :=
      w.gains d subject hd (Or.inr (complete repo d old subject hold h))
    rcases refers with hsub | ⟨u, hu, hsub⟩
    · rcases w.own d record hd hrecord with hold | new
      · exact kept hold (Or.inl hsub)
      · exact new subject hsub
    · rw [w.tags] at hu
      split at hu
      · rename_i hin
        exact w.gains d subject hd (Or.inl ⟨u, hin.2, hsub⟩)
      · obtain ⟨old, hold⟩ := Option.isSome_iff_exists.mp (tags.stored repo u d hu)
        exact kept hold (Or.inr ⟨u, hu, hsub⟩)
  · rw [w.others r d hd] at hrecord
    -- a tag still at `d` is not one of those that were set or deleted
    have still {u : Tag} (hu : t.tagDigest r u = some d) :
        ¬ (repo = r ∧ u ∈ ts) ∧ s.tagDigest r u = some d := by
      rw [w.tags] at hu
      split at hu
      · rename_i hin
        exact absurd ⟨hin.1, hu⟩ hd
      · rename_i hout
        exact ⟨hout, hu⟩
    rw [w.retracts r subject d hd]
    refine ⟨complete r d record subject hrecord ?_, ?_⟩
    · rcases refers with hsub | ⟨u, hu, hsub⟩
      · exact Or.inl hsub
      · exact Or.inr ⟨u, (still hu).2, hsub⟩
    · rintro ⟨rfl, u, hu, hsub, hpoints⟩
      obtain ⟨notOwn, notTag⟩ := sole u hu subject hsub d hpoints (fun h => hd ⟨rfl, h⟩) record
        hrecord
      rcases refers with hown | ⟨v, hv, hv'⟩
      · exact notOwn hown
      · obtain ⟨hout, hv⟩ := still hv
        exact hout ⟨rfl, notTag v (mem_tagsAt.mpr hv) hv'⟩

/-- A tag write after which the index is complete took no reason that was one
of several. -/
theorem Retagged.sole {repo : RepoId} {ts : List Tag} {target : Option Digest}
    (w : Retagged s t repo ts target) (complete : t.ReferrersComplete) :
    s.SoleReasons repo ts target := by
  intro u hu subject hsub d hpoints hne record hrecord
  have other : ¬ (repo = repo ∧ target = some d) := fun h => hne h.2
  have gone : t.has (.referrer repo subject d) ≠ true := fun h =>
    ((w.retracts repo subject d other).mp h).2 ⟨rfl, u, hu, hsub, hpoints⟩
  have unreferred : ¬ t.Refers repo d record subject := fun h =>
    gone (complete repo d record subject ((w.others repo d other).trans hrecord) h)
  refine ⟨fun h => unreferred (Or.inl h), fun v hv hvsub => ?_⟩
  by_contra hout
  refine unreferred (Or.inr ⟨v, ?_, hvsub⟩)
  rw [w.tags, if_neg fun h => hout h.2]
  exact mem_tagsAt.mp hv

theorem soleReasons_congr {s' : Store} (same : s.SameRecords s') {repo : RepoId}
    {ts us : List Tag} (mem : ∀ u, u ∈ us ↔ u ∈ ts) (target : Option Digest) :
    s'.SoleReasons repo ts target ↔ s.SoleReasons repo us target := by
  simp only [SoleReasons, RefersByTags, mem_tagsAt, same.tagDigest, same.manifestRecord, mem]

theorem ReferrersComplete.of_same (complete : s.ReferrersComplete) (same : s.SameRecords t) :
    t.ReferrersComplete := by
  intro repo d record subject hrecord refers
  rw [same.manifestRecord] at hrecord
  simp only [Refers, same.tagDigest] at refers
  rw [same.has rfl]
  exact complete repo d record subject hrecord refers

theorem referrersComplete_manifestDelete (complete : s.ReferrersComplete) {repo : RepoId}
    {digest : Digest} {record : ManifestRecord} {now : Timestamp} :
    (s.apply (s.manifestDeleteBatch repo digest record now)).ReferrersComplete := by
  intro r d record' subject hrecord refers
  rw [manifestDelete_manifestRecord] at hrecord
  split at hrecord
  · cases hrecord
  · rename_i hne
    have edge := complete r d record' subject hrecord <| refers.imp_right fun ⟨u, hu, hsub⟩ => by
      rw [manifestDelete_tagDigest] at hu
      split at hu
      · cases hu
      · exact ⟨u, hu, hsub⟩
    rw [has_apply, manifestDelete_referrer hne]
    exact edge

end Store

section Run
variable {s t : Store} {stores : Option (RepoId × CheckedPut)}
  {retags : Option (RepoId × List Tag × Option Digest)}

theorem Outcome.referrersComplete (h : Outcome s stores retags t) (tags : s.TagsIndexed)
    (complete : s.ReferrersComplete)
    (sole : ∀ w ∈ retags, s.SoleReasons w.1 w.2.1 w.2.2) : t.ReferrersComplete := by
  cases h with
  | push same stored tagged =>
    obtain ⟨us, rfl, mem⟩ := tagged
    exact (Store.retagged_push _ _ _).complete (tags.of_same same) (complete.of_same same)
      ((Store.soleReasons_congr same mem _).mpr (sole _ rfl))
  | setTag record tagged =>
    exact (Store.retagged_setTag _ _ _ _).complete tags complete (sole _ tagged)
  | deleteTag points tagged =>
    exact (Store.retagged_deleteTag points _ _).complete tags complete (sole _ tagged)
  | deleteManifest stored untagged => exact Store.referrersComplete_manifestDelete complete
  | other same untagged => exact complete.of_same same

theorem Outcome.soleReasons (h : Outcome s stores retags t) (complete : t.ReferrersComplete) :
    ∀ w ∈ retags, s.SoleReasons w.1 w.2.1 w.2.2 := by
  cases h with
  | push same stored tagged =>
    obtain ⟨us, rfl, mem⟩ := tagged
    rintro w ⟨⟩
    exact (Store.soleReasons_congr same mem _).mp ((Store.retagged_push _ _ _).sole complete)
  | setTag record tagged =>
    rintro w hw
    cases tagged.symm.trans hw
    exact (Store.retagged_setTag _ _ _ _).sole complete
  | deleteTag points tagged =>
    rintro w hw
    cases tagged.symm.trans hw
    exact (Store.retagged_deleteTag points _ _).sole complete
  | deleteManifest stored untagged =>
    rintro w hw
    cases untagged.symm.trans hw
  | other same untagged =>
    rintro w hw
    cases untagged.symm.trans hw

/-- The operation retracts no edge that has another reason. -/
def Operation.SoleReasons (oci : Oci) (r : Registry) (op : Operation) : Prop :=
  ∀ w ∈ op.retags oci r, r.store.SoleReasons w.1 w.2.1 w.2.2

/-- The referrer index is complete after every operation of a run exactly when
no tag write of the run retracts an edge that has another reason. -/
theorem referrers_complete_iff (oci : Oci) (options : RegistryOptions) (ops : List Operation) :
    (∀ done r, done <+: ops →
        Transition.exec (Operation.step oci) (.withOptions options) done = some r →
        r.store.ReferrersComplete) ↔
      Transition.Meets (Operation.step oci) (Operation.SoleReasons oci) (.withOptions options)
        ops := by
  constructor
  · intro complete
    refine Transition.meets_of_prefixes (G := fun r => r.store.ReferrersComplete) ?_ ?_ complete
    · rintro r op r' - hstep complete
      cases hstep
      exact (Operation.run_outcome op).soleReasons complete
    · rw [Operation.exec_eq]
      rfl
  · intro meets done r hdone run
    have kept : r.store.TagsIndexed ∧ r.store.ReferrersComplete := by
      refine Transition.exec_invariant
        (I := fun r => r.store.TagsIndexed ∧ r.store.ReferrersComplete) ?_ ⟨?_, ?_⟩
        (Transition.meets_prefix hdone meets) run
      · rintro r op r' ⟨tags, complete⟩ sole hstep
        cases hstep
        have outcome : Outcome r.store (op.stores oci r) (op.retags oci r) (op.run oci r).store :=
          Operation.run_outcome op
        exact ⟨outcome.tagsIndexed tags, outcome.referrersComplete tags complete sole⟩
      · exact Store.tagsIndexed_empty
      · rintro repo d record subject h
        cases h
    exact kept.2

/-- The artifact tag of the empty index. -/
def signatureTag : Tag where
  text := "sha256-bc5857ac9458293d5111ab85c952172cd7f56bceb4e3014ddc4cafac8927b313.sig".toList
  valid := by decide +kernel

/-- Push the index whose subject is the empty index, under the empty index's
artifact tag, then delete the tag. The manifest stays with its subject, and its
edge is gone. -/
theorem referrers_incomplete_after_delete_tag :
    ¬ ∀ (oci : Oci) (options : RegistryOptions) (ops : List Operation) (r : Registry),
      Transition.exec (Operation.step oci) (.withOptions options) ops = some r →
        r.store.ReferrersComplete := by
  intro complete
  let ops : List Operation := [pushIndex referringIndex (.tag signatureTag) 1,
    .deleteTag "app".toList signatureTag (.fromSecs 2)]
  let r := ops.foldl (fun r op => op.run indexOci r) (.withOptions {})
  obtain ⟨record, gone⟩ : (r.store.manifestRecord 0 referringIndex.digest).map
        ManifestRecord.subject = some (some emptyIndex.digest) ∧
      r.store.has (.referrer 0 emptyIndex.digest referringIndex.digest) = false := by
    decide +kernel
  obtain ⟨stored, hstored, hsubject⟩ := Option.map_eq_some_iff.mp record
  have edge := complete indexOci {} ops r (Operation.exec_eq indexOci _ ops) 0 referringIndex.digest
    stored emptyIndex.digest hstored (Or.inl hsubject)
  rw [gone] at edge
  cases edge

end Run

end Summ
