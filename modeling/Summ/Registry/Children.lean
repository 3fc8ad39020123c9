import Summ.Registry.TagIndex

/-!
# The children of stored indexes

The purge reads the edge from a child to its index, not the record that lists
the child. `ChildrenIndexed` says what keeps the two together: where both ends
are stored, the edge is there. Deleting either end drains it, so the one write
that can break it is the push of a child that stored indexes list but have lost
their edges to.
-/

namespace Summ

def ManifestRecord.lists (record : ManifestRecord) (d : Digest) : Bool :=
  decide (d ∈ record.children.map ChildRef.digest)

namespace Store

/-- The stored manifests that list a digest. -/
def listedBy (s : Store) (repo : RepoId) (d : Digest) : List Digest :=
  s.map.entries.filterMap fun
    | (.manifest r p, .manifest record) => if r = repo ∧ record.lists d then some p else none
    | _ => none

/-- Every other stored manifest that lists the digest has its edge. -/
def ParentsLinked (s : Store) (repo : RepoId) (d : Digest) : Prop :=
  ∀ p ∈ s.listedBy repo d, p ≠ d → s.has (.childParent repo d p) = true

instance (s : Store) (repo : RepoId) (d : Digest) : Decidable (s.ParentsLinked repo d) :=
  inferInstanceAs (Decidable (∀ p ∈ s.listedBy repo d, _))

/-- A record is stored under its own digest, and where an index and what it
lists are both stored, so is the edge. -/
structure ChildrenIndexed (s : Store) : Prop where
  named : ∀ repo d record, s.manifestRecord repo d = some record → record.digest = d
  linked : ∀ repo p record d, s.manifestRecord repo p = some record → record.lists d = true →
    (s.manifestRecord repo d).isSome = true → s.has (.childParent repo d p) = true

variable {s t : Store}

theorem mem_listedBy {repo : RepoId} {d p : Digest} :
    p ∈ s.listedBy repo d ↔
      ∃ record, s.manifestRecord repo p = some record ∧ record.lists d = true := by
  rw [listedBy, List.mem_filterMap]
  constructor
  · rintro ⟨⟨k, v⟩, hmem, hp⟩
    split at hp
    · rename_i r p' record hkv
      cases hkv
      split at hp
      · rename_i h
        cases hp
        exact ⟨record, manifestRecord_eq_some.mpr (OrderedMap.get_eq_some.mpr (h.1 ▸ hmem)), h.2⟩
      · cases hp
    · cases hp
  · rintro ⟨record, hrecord, hlists⟩
    exact ⟨_, OrderedMap.get_eq_some.mp (manifestRecord_eq_some.mp hrecord),
      if_pos ⟨rfl, hlists⟩⟩

theorem childrenIndexed_empty : (∅ : Store).ChildrenIndexed where
  named _ _ _ h := by cases h
  linked _ _ _ _ h := by cases h

/-- A write that touches no manifest and no edge between manifests. -/
theorem ChildrenIndexed.of_get (hs : s.ChildrenIndexed)
    (manifests : ∀ r d, t.get (.manifest r d) = s.get (.manifest r d))
    (edges : ∀ r c p, t.get (.childParent r c p) = s.get (.childParent r c p)) :
    t.ChildrenIndexed where
  named r d record h := by
    rw [manifestRecord_congr (manifests r d)] at h
    exact hs.named r d record h
  linked r p record d hp hlists hd := by
    rw [manifestRecord_congr (manifests r _)] at hp hd
    rw [has, edges]
    exact hs.linked r p record d hp hlists hd

theorem childrenIndexed_push (hs : s.ChildrenIndexed) {repo : RepoId} {c : CheckedPut}
    (linked : s.ParentsLinked repo c.digest) {ts : List Tag} :
    (s.apply (s.pushBatch repo c ts)).ChildrenIndexed where
  named r d record h := by
    rw [push_manifestRecord] at h
    split at h
    · rename_i hkey
      cases h
      exact hkey.2
    · exact hs.named r d record h
  linked r p record d hp hlists hd := by
    rw [has_apply, pushBatch_childParent]
    rw [push_manifestRecord] at hp hd
    split at hp
    · rename_i hparent
      cases hp
      rw [if_pos ⟨hparent.1, hparent.2, of_decide_eq_true hlists⟩]
      rfl
    · rename_i hparent
      rw [if_neg fun h => hparent ⟨h.1, h.2.1⟩]
      split at hd
      · rename_i hchild
        obtain ⟨rfl, rfl⟩ := hchild
        exact linked p (mem_listedBy.mpr ⟨record, hp, hlists⟩) fun h => hparent ⟨rfl, h.symm⟩
      · exact hs.linked r p record d hp hlists hd

theorem childrenIndexed_manifestDelete (hs : s.ChildrenIndexed) {repo : RepoId} {digest : Digest}
    {record : ManifestRecord} {now : Timestamp} :
    (s.apply (s.manifestDeleteBatch repo digest record now)).ChildrenIndexed where
  named r d record' h := by
    rw [manifestDelete_manifestRecord] at h
    split at h
    · cases h
    · exact hs.named r d record' h
  linked r p record' d hp hlists hd := by
    rw [manifestDelete_manifestRecord] at hp hd
    split at hp
    · cases hp
    · rename_i hparent
      split at hd
      · cases hd
      · rename_i hchild
        rw [has_apply, manifestDelete_childParent hchild hparent]
        exact hs.linked r p record' d hp hlists hd

theorem parentsLinked_congr {s' : Store} (same : s.SameRecords s') (repo : RepoId) (d : Digest) :
    s'.ParentsLinked repo d ↔ s.ParentsLinked repo d := by
  simp only [ParentsLinked, mem_listedBy, same.manifestRecord, same.has (k := .childParent ..) rfl]

theorem covers_manifestsInRepo {repo : RepoId} {k : Key}
    (h : (Scan.manifestsInRepo repo).covers k = true) : ∃ d, k = .manifest repo d := by
  cases k <;> simp_all [Scan.covers]

/-- A stored child of a stored index is not purgeable. -/
theorem ChildrenIndexed.not_purgeable (hs : s.ChildrenIndexed) {repo : RepoId} {p d : Digest}
    {parent record : ManifestRecord} (hp : s.manifestRecord repo p = some parent)
    (hlists : parent.lists d = true) (hd : s.manifestRecord repo d = some record)
    (pushedBefore : Timestamp) : s.manifestIsPurgeable repo record pushedBefore = false := by
  have edge := hs.linked repo p parent d hp hlists (by rw [hd]; rfl)
  obtain ⟨v, hv⟩ := Option.isSome_iff_exists.mp edge
  have protected_ : s.existsPrefix (.parentsOf repo record.digest) = true := by
    rw [existsPrefix_iff, hs.named repo d record hd]
    exact ⟨.childParent repo d p, v, by simp [Scan.covers], hv⟩
  simp [manifestIsPurgeable, protected_]

end Store

section Run
variable {s t : Store} {stores : Option (RepoId × CheckedPut)}
  {retags : Option (RepoId × List Tag × Option Digest)}

theorem Outcome.childrenIndexed (h : Outcome s stores retags t) (hs : s.ChildrenIndexed)
    (linked : ∀ w ∈ stores, s.ParentsLinked w.1 w.2.digest) : t.ChildrenIndexed := by
  cases h with
  | push same stored tagged =>
    have hs₀ := hs.of_get (fun r d => same (.manifest r d) rfl)
      (fun r c p => same (.childParent r c p) rfl)
    exact Store.childrenIndexed_push hs₀
      ((Store.parentsLinked_congr same _ _).mpr (linked _ stored))
  | setTag record tagged =>
    exact hs.of_get (fun r d => Store.get_apply_of_effect (setTagOps_other rfl))
      (fun r c p => Store.get_apply_of_effect (setTagOps_other rfl))
  | deleteTag points tagged =>
    exact hs.of_get (fun r d => Store.get_apply_of_effect (deleteTagOps_other rfl))
      (fun r c p => Store.get_apply_of_effect (deleteTagOps_other rfl))
  | deleteManifest stored untagged => exact Store.childrenIndexed_manifestDelete hs
  | other same untagged =>
    exact hs.of_get (fun r d => same (.manifest r d) rfl)
      (fun r c p => same (.childParent r c p) rfl)

/-- A push stores no manifest that a stored index lists but has lost its edge to. -/
def Operation.ParentsLinked (oci : Oci) (r : Registry) (op : Operation) : Prop :=
  ∀ w ∈ op.stores oci r, r.store.ParentsLinked w.1 w.2.digest

instance (oci : Oci) (r : Registry) (op : Operation) : Decidable (op.ParentsLinked oci r) :=
  inferInstanceAs (Decidable (∀ w ∈ op.stores oci r, r.store.ParentsLinked w.1 w.2.digest))

/-- The purge neither reports nor removes what a stored manifest lists. -/
def Registry.SparesListed (r : Registry) : Prop :=
  ∀ repo p record d, r.store.manifestRecord repo p = some record → record.lists d = true →
    (∀ cursor limit pushedBefore,
      d ∉ (r.store.purgeableManifests repo cursor limit pushedBefore).digests) ∧
    ∀ name pushedBefore now, (r.requireRepo name).1 = .ok repo →
      (r.purgeManifest name d pushedBefore now).1.toOption = some none ∧
        (r.purgeManifest name d pushedBefore now).2.store = r.store

theorem Store.ChildrenIndexed.sparesListed {r : Registry} (hs : r.store.ChildrenIndexed) :
    r.SparesListed := by
  intro repo p parent d hp hlists
  constructor
  · intro cursor limit pushedBefore reported
    obtain ⟨⟨k, v⟩, hmem, hd⟩ := List.mem_filterMap.mp reported
    obtain ⟨covers, hget⟩ := Store.mem_scan hmem
    split at hd
    · rename_i record hkv
      cases hkv
      split at hd
      · rename_i purgeable
        obtain rfl := Option.some.inj hd
        obtain ⟨d', rfl⟩ := Store.covers_manifestsInRepo covers
        have stored := Store.manifestRecord_eq_some.mpr hget
        obtain rfl := hs.named repo d' record stored
        rw [hs.not_purgeable hp hlists stored pushedBefore] at purgeable
        cases purgeable
      · cases hd
    · cases hd
  · intro name pushedBefore now resolved
    have declines : r.store.planPurgeManifest name repo d pushedBefore now =
        .ok { outcome := none, batch := [] } := by
      unfold Store.planPurgeManifest
      split
      · rfl
      · rename_i record hd
        rw [if_neg (by simp [hs.not_purgeable hp hlists hd pushedBefore])]
    rw [Registry.purgeManifest, Registry.planIn_eq resolved, declines]
    exact ⟨rfl, r.requireRepo_store name⟩

/-- In a run in which every push of a manifest finds the edges of the stored
indexes that list it, the purge never reclaims a child of a stored index. -/
theorem purge_spares_children (oci : Oci) (options : RegistryOptions) (ops : List Operation)
    (linked : Transition.Meets (Operation.step oci) (Operation.ParentsLinked oci)
      (.withOptions options) ops)
    {done : List Operation} (hdone : done <+: ops) {r : Registry}
    (run : Transition.exec (Operation.step oci) (.withOptions options) done = some r) :
    r.SparesListed := by
  have indexed : r.store.ChildrenIndexed := by
    refine Transition.exec_invariant (I := fun r => r.store.ChildrenIndexed) ?_ ?_
      (Transition.meets_prefix hdone linked) run
    · rintro r op r' hs hlinked hstep
      cases hstep
      exact (Operation.run_outcome op).childrenIndexed hs hlinked
    · exact Store.childrenIndexed_empty
  exact indexed.sparesListed

/-- An index pushed after the manifest it lists. -/
theorem purge_spares_children_of_listing :
    let ops := [pushIndex emptyIndex (.digest emptyIndex.digest) 1,
      pushIndex listingIndex (.digest listingIndex.digest) 2]
    Transition.Meets (Operation.step indexOci) (Operation.ParentsLinked indexOci)
        (.withOptions {}) ops ∧
      (ops.foldl (fun r op => op.run indexOci r) (Registry.withOptions {})).SparesListed := by
  intro ops
  have linked : Transition.Meets (Operation.step indexOci) (Operation.ParentsLinked indexOci)
      (.withOptions {}) ops := by decide +kernel
  exact ⟨linked, purge_spares_children indexOci {} ops linked (List.prefix_refl ops)
    (Operation.exec_eq indexOci _ ops)⟩

/-- Delete the child of a stored index and push it again: the delete drained the
edge, the push of the child does not restore it, and the purge reports it. -/
theorem purge_takes_repushed_child :
    ¬ ∀ (oci : Oci) (options : RegistryOptions) (ops : List Operation) (r : Registry),
      Transition.exec (Operation.step oci) (.withOptions options) ops = some r →
        r.SparesListed := by
  intro spares
  let push := pushIndex emptyIndex (.digest emptyIndex.digest)
  let ops : List Operation := [push 1, pushIndex listingIndex (.digest listingIndex.digest) 2,
    .deleteManifest "app".toList emptyIndex.digest (.fromSecs 3), push 4]
  let r := ops.foldl (fun r op => op.run indexOci r) (Registry.withOptions {})
  obtain ⟨listed, reported⟩ : (r.store.manifestRecord 0 listingIndex.digest).map
        (fun record => record.lists emptyIndex.digest) = some true ∧
      emptyIndex.digest ∈
        (r.store.purgeableManifests 0 none 10 (.fromSecs 100)).digests := by
    decide +kernel
  obtain ⟨record, stored, lists⟩ := Option.map_eq_some_iff.mp listed
  exact (spares indexOci {} ops r (Operation.exec_eq indexOci _ ops) 0 listingIndex.digest record
    emptyIndex.digest stored lists).1 none 10 (.fromSecs 100) reported

end Run

end Summ
