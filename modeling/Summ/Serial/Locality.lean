import Summ.Serial.Coherence

/-!
# Where a call writes

`Effect.frame` says of each key of a repository what a call may do there: a call
writes under the id of its own name, counts write under the ids of their names,
and only sweeps and the membership stage of a purge take away elsewhere.
-/

namespace Summ

/-- The calls of a purge that retract memberships of any repository. -/
def Call.retracts : Call → Bool
  | operation (.sweepRepoBlobs ..) => true
  | _ => false

def Call.counts : Call → Bool
  | addPullCounts _ => true
  | _ => false

/-- What a call may leave at a key of the repository `j`. -/
inductive Frame (s : Store) (call : Call) (j : RepoId) (k : Key) (t : Store) : Prop
  | same (kept : t.get k = s.get k)
  | addressed {name : Text} (names : call.repo = some name) (live : t.repoByName name = some j)
  | counted {name : Text} (counts : call.counts = true) (live : s.repoByName name = some j)
  | swept (gone : s.repoById j = none) (removed : t.get k = none)
  | retracted (retracts : call.retracts = true) (removed : t.get k = none)

namespace Store

variable {s t : Store}

theorem Interned.kept_of_repo {name : Text} {id j : RepoId} (h : s.Interned name id t) {k : Key}
    (hk : k.repo = some j) : t.get k = s.get k := h.kept (by cases k <;> first | rfl | cases hk)

/-- A batch that only deletes leaves a key as it is or removes it. -/
theorem get_of_deletes {batch : WriteBatch} {k : Key}
    (deletes : ∀ v, WriteBatch.effect batch k ≠ some (some v)) :
    (s.apply batch).get k = s.get k ∨ (s.apply batch).get k = none := by
  rw [get_apply]
  cases he : WriteBatch.effect batch k with
  | none => exact Or.inl rfl
  | some r =>
    cases r with
    | none => exact Or.inr rfl
    | some v => exact absurd he (deletes v)

end Store

variable {oci : Oci} {options : RegistryOptions} {s t : Store} {c : Call} {accepted : Bool}

/-- A batch within the repository a call is addressed to. -/
theorem frame_within {s₀ : Store} {name : Text} {id j : RepoId} {k : Key} {batch : WriteBatch}
    (hk : k.repo = some j) (names : c.repo = some name) (live : s₀.repoByName name = some id)
    (kept : s₀.get k = s.get k) (within : batch.Within id) :
    Frame s c j k (s₀.apply batch) := by
  by_cases hj : j = id
  · subst hj
    refine .addressed names ?_
    rw [(Store.sameNames_within within).repoByName, live]
  · refine .same ((Store.get_apply_of_effect ?_).trans kept)
    exact WriteBatch.effect_of_within within (Key.not_mayTouch hk hj)

theorem Effect.frame (h : Effect oci options s c accepted t) {k : Key} {j : RepoId}
    (hk : k.repo = some j) : Frame s c j k t := by
  cases h with
  | putManifest checked interned held tags =>
    exact frame_within hk rfl interned.live (interned.kept_of_repo hk) (Store.pushBatch_within _ _)
  | setTag live record => exact frame_within hk rfl live rfl (setTagOps_within _ _)
  | deleteTag live points => exact frame_within hk rfl live rfl (deleteTagOps_within _ _)
  | deleteManifest live stored =>
    exact frame_within hk rfl live rfl (Store.manifestDeleteBatch_within _ _ _)
  | purgeManifest live stored =>
    exact frame_within hk rfl live rfl (Store.manifestDeleteBatch_within _ _ _)
  | sweepRepoBlobs =>
    rcases Store.get_of_deletes fun v => Store.retractBatch_deletes with kept | removed
    · exact .same kept
    · exact .retracted rfl removed
  | scanBlobs =>
    exact .same (Store.get_apply_of_effect (Store.markBatch_other (by rintro d rfl; cases hk)))
  | collectBlob unreferenced =>
    exact .same (Store.get_apply_of_effect (by cases k <;> first | rfl | cases hk))
  | retireRepo mapped empty =>
    exact .same (Store.get_apply_of_effect (by cases k <;> first | rfl | cases hk))
  | commitBlob interned =>
    exact frame_within hk rfl interned.live (interned.kept_of_repo hk)
      (Store.blobCommitBatch_within _ _ _)
  | deleteBlobReference live =>
    exact frame_within hk rfl live rfl (Store.blobReferenceDeleteBatch_within _)
  | mountBlob stored interned =>
    exact frame_within hk rfl interned.live (interned.kept_of_repo hk)
      (Store.blobCommitBatch_within _ _ _)
  | deleteRepository mapped =>
    exact .same (Store.get_apply_of_effect (by cases k <;> first | rfl | cases hk))
  | @addPullCounts deltas batch puts =>
    by_cases touched : ∃ op ∈ batch, op.effect k ≠ none
    · obtain ⟨op, hop, touched⟩ := touched
      obtain ⟨g, id, bucket, live, rfl⟩ := puts op hop
      have hkey : g.key id = k := by
        by_contra hne
        exact touched (if_neg hne)
      obtain rfl : id = j := by
        have own : (g.key id).repo = some id := by
          unfold CountGroup.key
          split <;> rfl
        rw [hkey, hk] at own
        exact (Option.some.inj own).symm
      exact .counted rfl live
    · refine .same (Store.get_apply_of_effect (WriteBatch.effect_eq_none.mpr fun op hop => ?_))
      by_contra hne
      exact touched ⟨op, hop, hne⟩
  | @sweepPage i id cursor dead =>
    by_cases hj : j = id
    · subst hj
      rcases Store.get_of_deletes fun v => Store.sweepRefsBatch_deletes with kept | removed
      · exact .same kept
      · exact .swept dead removed
    · refine .same (Store.get_apply_of_effect ?_)
      exact WriteBatch.effect_of_within (Store.sweepRefsBatch_within _) (Key.not_mayTouch hk hj)
  | @finishSweep i id dead =>
    by_cases hd : k.dropped id = true
    · have hj : j = id := by
        cases k <;> simp_all [Key.dropped, Key.repo]
      subst hj
      exact .swept dead (by rw [Store.get_apply, sweepFinishBatch_effect, if_pos hd]; rfl)
    · exact .same (Store.get_apply_of_effect (by rw [sweepFinishBatch_effect, if_neg hd]))
  | startSweep => exact .same rfl
  | restart => exact .same rfl
  | refused kept =>
    rcases kept with rfl | ⟨name, id, -, interned⟩
    · exact .same rfl
    · exact .same (interned.kept_of_repo hk)

end Summ
