import Summ.Serial.TagKeys

/-!
# The two histories

A change of a tag writes its event twice: under the tag, and under the digest.
Every batch does the same at both keys of an event (`Mirrored`), so the two
histories hold the same events in every store a run of calls reaches.
-/

namespace Summ

def Key.isEvent : Key → Bool
  | .tagHistory .. | .manifestTagHistory .. => true
  | _ => false

/-- The batch does at the digest's key of an event what it does at the tag's. -/
def WriteBatch.Mirrored (b : WriteBatch) : Prop :=
  ∀ (r : RepoId) (t : Tag) (at_ : Timestamp) (d : Digest),
    b.effect (.tagHistory r t at_ d) = b.effect (.manifestTagHistory r d at_ t)

namespace WriteBatch

variable {b c : WriteBatch}

theorem mirrored_append (hb : b.Mirrored) (hc : c.Mirrored) : Mirrored (b ++ c) := by
  intro r t at_ d
  rw [effect_append, effect_append, hb, hc]

theorem mirrored_flatMap {α : Type*} {f : α → WriteBatch} {xs : List α}
    (h : ∀ x ∈ xs, (f x).Mirrored) : Mirrored (xs.flatMap f) := by
  induction xs with
  | nil => exact fun _ _ _ _ => rfl
  | cons x xs ih =>
    rw [List.flatMap_cons]
    exact mirrored_append (h x List.mem_cons_self) (ih fun y hy => h y (List.mem_cons_of_mem _ hy))

/-- A batch that writes no event. -/
theorem mirrored_of_untouched (tags : ∀ r t at_ d, b.effect (.tagHistory r t at_ d) = none)
    (digests : ∀ r d at_ t, b.effect (.manifestTagHistory r d at_ t) = none) : b.Mirrored := by
  intro r t at_ d
  rw [tags, digests]

end WriteBatch

/-! ## The batches -/

section Tags
variable {repo : RepoId} {tag : Tag} {now : Timestamp}

/-- The event a tag write leaves under the tag. -/
theorem setTagOps_tagHistory {previous : Option Digest} {target : TagTarget} (r : RepoId) (t : Tag)
    (at_ : Timestamp) (d : Digest) :
    WriteBatch.effect (setTagOps repo tag previous target now) (.tagHistory r t at_ d) =
      if repo = r ∧ tag = t ∧ now = at_ ∧ target.digest = d then
        some (some (.event
          { event := .created, mediaType := target.mediaType, size := target.size }))
      else none := by
  simp [setTagOps, effect_forSubject, MetaOp.effect, MetaOp.set, retractOps_other]

theorem setTagOps_mirrored (previous : Option Digest) (target : TagTarget) :
    WriteBatch.Mirrored (setTagOps repo tag previous target now) := by
  intro r t at_ d
  rw [setTagOps_tagHistory]
  have same : (repo = r ∧ tag = t ∧ now = at_ ∧ target.digest = d) =
      (repo = r ∧ target.digest = d ∧ now = at_ ∧ tag = t) := by
    rw [eq_iff_iff]
    tauto
  simp [setTagOps, effect_forSubject, MetaOp.effect, MetaOp.set, retractOps_other, same]

theorem deleteTagOps_tagHistory {digest : Digest} {manifest : Option ManifestRecord} (r : RepoId)
    (t : Tag) (at_ : Timestamp) (d : Digest) :
    WriteBatch.effect (deleteTagOps repo tag digest manifest now) (.tagHistory r t at_ d) =
      if repo = r ∧ tag = t ∧ now = at_ ∧ digest = d then
        some (some (.event {
          event := .deleted
          mediaType := (manifest.map ManifestRecord.mediaType).getD DEFAULT_MEDIA_TYPE
          size := (manifest.map ManifestRecord.size).getD 0 }))
      else none := by
  simp [deleteTagOps, effect_forSubject, MetaOp.effect]

theorem deleteTagOps_mirrored (digest : Digest) (manifest : Option ManifestRecord) :
    WriteBatch.Mirrored (deleteTagOps repo tag digest manifest now) := by
  intro r t at_ d
  rw [deleteTagOps_tagHistory]
  have same : (repo = r ∧ tag = t ∧ now = at_ ∧ digest = d) =
      (repo = r ∧ digest = d ∧ now = at_ ∧ tag = t) := by
    rw [eq_iff_iff]
    tauto
  simp [deleteTagOps, effect_forSubject, MetaOp.effect, same]

end Tags

namespace Store

variable {s t : Store} {repo : RepoId}

theorem pushBatch_mirrored (c : CheckedPut) (ts : List Tag) :
    WriteBatch.Mirrored (s.pushBatch repo c ts) := by
  refine WriteBatch.mirrored_append ?_ ?_
  · have plain {k : Key} (hblobs : k.aboutBlobs = false)
        (hchild : ∀ r x p, k ≠ .childParent r x p)
        (hown : WriteBatch.effect (recordOps repo c) k = none) :
        WriteBatch.effect ((s.recorded repo c).flatMap
            (fun desc => s.blobOps repo c.digest desc c.put.now) ++
          c.parsed.children.map (fun child =>
            MetaOp.set (.childParent repo child.digest c.digest) rfl) ++ recordOps repo c) k =
          none := by
      have children := WriteBatch.effect_map_set
        (fun child : ChildRef => Key.childParent repo child.digest c.digest) (fun _ => rfl)
        c.parsed.children k
      rw [if_neg (by simp [Ne.symm (hchild _ _ _)])] at children
      rw [WriteBatch.effect_append, WriteBatch.effect_append, hown, children,
        WriteBatch.effect_flatMap_none fun _ _ => blobOps_other hblobs]
      rfl
    apply WriteBatch.mirrored_of_untouched
    · intro r t at_ d
      exact plain rfl (by simp) (by cases hs : c.parsed.subject <;> simp [recordOps, MetaOp.effect, hs])
    · intro r d at_ t
      exact plain rfl (by simp) (by cases hs : c.parsed.subject <;> simp [recordOps, MetaOp.effect, hs])
  · exact WriteBatch.mirrored_flatMap fun t _ => setTagOps_mirrored _ _

/-- At an event only the deletes of tags write. -/
theorem manifestDelete_history {digest : Digest} {record : ManifestRecord} {now : Timestamp}
    {k : Key} (hk : k.isEvent = true) :
    WriteBatch.effect (s.manifestDeleteBatch repo digest record now) k =
      WriteBatch.effect ((s.tagsOf repo digest).flatMap fun t =>
        deleteTagOps repo t digest (some record) now) k := by
  rw [manifestDeleteBatch, WriteBatch.effect_append]
  refine (congrArg (Option.or _) (WriteBatch.effect_eq_none.mpr fun op hop => ?_)).trans
    (Option.or_none ..)
  simp only [List.append_assoc, List.mem_append, List.mem_cons, List.not_mem_nil, or_false,
    List.mem_map, Option.mem_toList, Option.map_eq_some_iff] at hop
  rcases hop with (rfl | rfl) | ⟨blob, -, rfl⟩ | ⟨child, -, rfl⟩ | ⟨subject, -, rfl⟩ |
    ⟨key, hkey, rfl⟩
  on_goal 6 => obtain ⟨p, rfl⟩ := Scan.covers_parentsOf.mp ((mem_drain rfl (by simp)).mp hkey).1
  all_goals
    refine if_neg ?_
    rintro rfl
    cases hk

theorem manifestDeleteBatch_mirrored (digest : Digest) (record : ManifestRecord)
    (now : Timestamp) : WriteBatch.Mirrored (s.manifestDeleteBatch repo digest record now) := by
  intro r t at_ d
  rw [manifestDelete_history rfl, manifestDelete_history rfl]
  exact WriteBatch.mirrored_flatMap (fun t _ => deleteTagOps_mirrored _ _) r t at_ d

/-- The two histories hold the same events, with the same values. -/
def HistoriesAgree (s : Store) : Prop :=
  ∀ (r : RepoId) (t : Tag) (at_ : Timestamp) (d : Digest),
    s.get (.tagHistory r t at_ d) = s.get (.manifestTagHistory r d at_ t)

theorem HistoriesAgree.apply {b : WriteBatch} (h : s.HistoriesAgree) (mirrored : b.Mirrored) :
    (s.apply b).HistoriesAgree := by
  intro r t at_ d
  rw [get_apply, get_apply, mirrored, h]

theorem HistoriesAgree.of_same (h : s.HistoriesAgree) (same : s.SameContents t) :
    t.HistoriesAgree := by
  intro r u at_ d
  rw [same _ rfl, same _ rfl, h]

end Store

/-- The end of a sweep drops both histories of its repository. -/
theorem sweepFinishBatch_mirrored (id : RepoId) : (sweepFinishBatch id).Mirrored := by
  intro r t at_ d
  rw [sweepFinishBatch_effect, sweepFinishBatch_effect]
  rfl

theorem Edit.historiesAgree {oci : Oci} {options : RegistryOptions} {s t : Store} {c : Call}
    (h : Edit oci options s c t) (hs : s.HistoriesAgree) : t.HistoriesAgree := by
  cases h with
  | push pushes checked interned tags =>
    exact (hs.of_same interned.sameContents).apply (Store.pushBatch_mirrored _ _)
  | setTag record => exact hs.apply (setTagOps_mirrored _ _)
  | deleteTag points => exact hs.apply (deleteTagOps_mirrored _ _)
  | deleteManifest stored => exact hs.apply (Store.manifestDeleteBatch_mirrored _ _ _)
  | finishSweep finishes => exact hs.apply (sweepFinishBatch_mirrored _)
  | none same refs => exact hs.of_same same

/-- In every store that a run of calls reaches and for every repository, an event
stands under its tag exactly when it stands under its digest, with the same
value; and once a sweep has finished no event of its repository is left. -/
theorem histories_agree (oci : Oci) (options : RegistryOptions) (entries : Nat)
    (calls : List Call) (sys : System)
    (run : Transition.exec (System.step oci) (.start options entries) calls = some sys) :
    (∀ r t at_ d,
      sys.store.get (.tagHistory r t at_ d) = sys.store.get (.manifestTagHistory r d at_ t)) ∧
    ∀ i sweep sys', sys.sweeps[i]? = some sweep →
      System.step oci sys (.finishSweep i) = some sys' → ∀ t at_ d,
        sys'.store.get (.tagHistory sweep.repo t at_ d) = none ∧
        sys'.store.get (.manifestTagHistory sweep.repo d at_ t) = none := by
  have agree : sys.store.HistoriesAgree := by
    refine (System.run_invariant (I := fun sys => sys.store.HistoriesAgree) ?_ ?_ run).2.2
    · exact fun _ _ _ _ => rfl
    · rintro sys c sys' coherent - inv hstep
      obtain ⟨accepted, hcall⟩ := System.call_of_step hstep
      exact (System.effect_of_call coherent hcall).effect.edit.historiesAgree inv
  refine ⟨agree, ?_⟩
  intro i sweep sys' hsweep hstep t at_ d
  have dropped {k : Key} (hk : k.dropped sweep.repo = true) : sys'.store.get k = none := by
    simp only [System.step, System.call, hsweep, Option.bind_some] at hstep
    split at hstep
    · simp only [Option.map_some, Option.some.injEq] at hstep
      subst hstep
      change (sys.store.apply (sweepFinishBatch sweep.repo)).get k = none
      rw [Store.get_apply, sweepFinishBatch_effect, if_pos hk]
      rfl
    · cases hstep
  exact ⟨dropped (by simp [Key.dropped, Key.repo]), dropped (by simp [Key.dropped, Key.repo])⟩

theorem histories_agree_dropped : ∃ sys,
    Transition.exec (System.step indexOci) (.start {} 1) pushedAndDropped = some sys ∧
      ∀ r t at_ d,
        sys.store.get (.tagHistory r t at_ d) = sys.store.get (.manifestTagHistory r d at_ t) := by
  obtain ⟨sys, run⟩ : ∃ sys,
      Transition.exec (System.step indexOci) (.start {} 1) pushedAndDropped = some sys :=
    Option.isSome_iff_exists.mp (by decide +kernel)
  exact ⟨sys, run, (histories_agree indexOci {} 1 pushedAndDropped sys run).1⟩

end Summ
