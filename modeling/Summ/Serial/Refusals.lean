import Summ.Registry.Operations
import Summ.Serial.TagPushes

/-!
# What a refused push leaves

A push is planned before anything of it is written, and a refused plan is
dropped. The one write of planning is a new name's id: no key of the repository
can be encoded before it exists. So a refused push leaves the store as it was,
unless its name was new and it got as far as being given an id.
-/

namespace Summ

namespace RepoInterner

variable {c : RepoInterner} {s : Store} {name : Text}

/-- A lookup that finds nothing remembers nothing. -/
theorem lookup_missed (h : (c.lookup s name).1 = none) : (c.lookup s name).2 = c := by
  cases cached : c.byName.peek name with
  | some id =>
    rw [(lookup_of_cached cached).1] at h
    cases h
  | none =>
    have miss : c.byName.get name = (none, c.byName) := by
      unfold Lru.get
      rw [cached]
    unfold lookup at h ⊢
    simp only [miss] at h ⊢
    cases stored : s.repoByName name with
    | none => rfl
    | some id => simp [stored] at h

theorem intern_store :
    (c.intern s name).2.2 =
      if (c.lookup s name).1 = none ∧ s.nextId ≤ MAX_REPO_ID then
        s.apply (internBatch name s.nextId)
      else s := by
  have missed : (c.lookup s name).1 = none → (c.lookup s name).2 = c := lookup_missed
  unfold intern
  cases looked : c.lookup s name with
  | mk found c₁ =>
  rw [looked] at missed
  cases found with
  | some id => simp
  | none =>
    obtain rfl : c₁ = c := missed rfl
    by_cases full : MAX_REPO_ID < s.nextId
    · simp [looked, full, UInt32.not_le.mpr full]
    · simp [looked, full, UInt32.not_lt.mp full]

end RepoInterner

namespace Registry

/-- The server's `put_manifest`: planned once to learn the digest the body is
archived under, and planned again for the batch that is applied. -/
def servePut (r : Registry) (oci : Oci) (put : ManifestPut) (extraTags : List Text) :
    Except RegistryError PushOutcome × Registry :=
  match r.planManifestPutTagged oci put extraTags with
  | (.error e, r) => (.error e, r)
  | (.ok _, r) => r.putManifest oci put extraTags

/-- The body passes its own checks, and the name has no id and can be given one. -/
def NamesAnew (r : Registry) (oci : Oci) (put : ManifestPut) : Prop :=
  (checkPut oci r.options put).isOk = true ∧ (r.lookupRepo put.repo).1 = none ∧
    r.store.nextId ≤ MAX_REPO_ID

instance (r : Registry) (oci : Oci) (put : ManifestPut) : Decidable (r.NamesAnew oci put) :=
  inferInstanceAs (Decidable (_ ∧ _ ∧ _))

variable {r r' : Registry} {oci : Oci} {put : ManifestPut} {extraTags : List Text}
  {e : RegistryError}

theorem internRepo_store (name : Text) :
    (r.internRepo name).2.store =
      if (r.lookupRepo name).1 = none ∧ r.store.nextId ≤ MAX_REPO_ID then
        r.store.apply (RepoInterner.internBatch name r.store.nextId)
      else r.store :=
  RepoInterner.intern_store

/-- A name that has been given an id is not given another. -/
theorem internRepo_again {r₁ : Registry} {name : Text} {id : RepoId}
    (interned : r.internRepo name = (.ok id, r₁)) : (r₁.internRepo name).2.store = r₁.store := by
  have known : (r₁.lookupRepo name).1 = some id :=
    (RepoInterner.lookup_of_cached (internRepo_caches interned)).1
  rw [internRepo_store, known, if_neg fun h => Option.some_ne_none _ h.1]

theorem plan_refused (h : r.planManifestPutTagged oci put extraTags = (.error e, r')) :
    r' = if (checkPut oci r.options put).isOk = true then (r.internRepo put.repo).2 else r := by
  unfold planManifestPutTagged at h
  cases checked : checkPut oci r.options put with
  | error e' =>
    rw [checked] at h
    rw [if_neg (by simp [Except.isOk, Except.toBool])]
    exact (Prod.mk.inj h).2.symm
  | ok c =>
    rw [checked] at h
    have passed : (Except.ok c : Except RegistryError CheckedPut).isOk = true := rfl
    rw [if_pos passed]
    exact planInterned_error h

theorem refused_names : (if (checkPut oci r.options put).isOk = true then
      (r.internRepo put.repo).2 else r).store =
    if r.NamesAnew oci put then r.store.apply (RepoInterner.internBatch put.repo r.store.nextId)
    else r.store := by
  by_cases passed : (checkPut oci r.options put).isOk = true
  · rw [if_pos passed, internRepo_store]
    simp only [NamesAnew, passed, true_and]
  · rw [if_neg passed, if_neg fun named : r.NamesAnew oci put => passed named.1]

end Registry

section Refused
variable {r r' : Registry} {oci : Oci} {put : ManifestPut} {extraTags : List Text}
  {e : RegistryError}

theorem Registry.servePut_refused (refused : r.servePut oci put extraTags = (.error e, r')) :
    r'.store =
      if r.NamesAnew oci put then r.store.apply (RepoInterner.internBatch put.repo r.store.nextId)
      else r.store := by
  rw [← Registry.refused_names]
  unfold Registry.servePut at refused
  cases planned : r.planManifestPutTagged oci put extraTags with
  | mk plan r₁ =>
  rw [planned] at refused
  cases plan with
  | error e' =>
    obtain rfl : r₁ = r' := (Prod.mk.inj refused).2
    rw [Registry.plan_refused planned]
  | ok first =>
    -- The plan that is dropped named the repository; the next finds it named.
    have passed : ∃ c, checkPut oci r.options put = .ok c ∧
        r.planInterned put.repo (fun s repo => s.planPush r.options repo c extraTags) =
          (.ok first, r₁) := by
      unfold Registry.planManifestPutTagged at planned
      cases checked : checkPut oci r.options put with
      | error e' =>
        rw [checked] at planned
        cases planned
      | ok c =>
        rw [checked] at planned
        exact ⟨c, rfl, planned⟩
    obtain ⟨c, checked, named⟩ := passed
    obtain ⟨repo, interned, -⟩ := Registry.planInterned_ok named
    have options : r₁.options = r.options := by
      have kept : (r.internRepo put.repo).2.options = r.options := rfl
      rwa [interned] at kept
    have first : (if (checkPut oci r.options put).isOk = true then
        (r.internRepo put.repo).2 else r) = r₁ := by
      rw [checked, interned, if_pos (show (Except.ok c : Except _ _).isOk = true from rfl)]
    rw [first]
    dsimp only at refused
    unfold Registry.putManifest at refused
    cases replanned : r₁.planManifestPutTagged oci put extraTags with
    | mk plan r₂ =>
    rw [replanned] at refused
    cases plan with
    | ok p => cases refused
    | error e' =>
      rw [Registry.commit_error] at refused
      obtain rfl : r₂ = r' := (Prod.mk.inj refused).2
      rw [Registry.plan_refused replanned, options, checked,
        if_pos (show (Except.ok c : Except _ _).isOk = true from rfl)]
      exact Registry.internRepo_again interned

end Refused

/-- A refused push changes no key but a new name's: the name, its id and the
counter are written when the body passes its checks and the name has no id, and
else nothing is. -/
theorem refused_push (oci : Oci) (r r' : Registry) (put : ManifestPut) (extraTags : List Text)
    (e : RegistryError) (refused : r.servePut oci put extraTags = (.error e, r')) :
    (∀ k, (∀ n, k ≠ .repoByName n) → (∀ i, k ≠ .repoById i) →
      r'.store.get k = r.store.get k) ∧
    r'.store =
      if r.NamesAnew oci put then r.store.apply (RepoInterner.internBatch put.repo r.store.nextId)
      else r.store := by
  have left := Registry.servePut_refused refused
  refine ⟨?_, left⟩
  intro k names ids
  rw [left]
  split
  · apply Store.get_apply_of_effect
    simp [RepoInterner.internBatch, MetaOp.effect, Ne.symm (names _), Ne.symm (ids _)]
  · rfl

theorem refused_push_newName : ∃ e r', (Registry.withOptions {}).servePut imageOci imagePut [] =
      (.error e, r') ∧
    (∀ k, (∀ n, k ≠ .repoByName n) → (∀ i, k ≠ .repoById i) →
      r'.store.get k = (Registry.withOptions {}).store.get k) ∧
    r'.store =
      if (Registry.withOptions {}).NamesAnew imageOci imagePut then
        (Registry.withOptions {}).store.apply (RepoInterner.internBatch imagePut.repo
          (Registry.withOptions {}).store.nextId)
      else (Registry.withOptions {}).store := by
  have refused : ((Registry.withOptions {}).servePut imageOci imagePut []).1.isOk = false := by
    decide +kernel
  cases served : (Registry.withOptions {}).servePut imageOci imagePut [] with
  | mk answer r' =>
  rw [served] at refused
  cases answer with
  | ok outcome => cases refused
  | error e => exact ⟨e, r', rfl, refused_push imageOci _ r' imagePut [] e served⟩

/-- The config of the image is not there, and `app` has an id afterwards. -/
theorem refused_push_leaves_name : ¬∀ (oci : Oci) (r r' : Registry) (put : ManifestPut)
    (extraTags : List Text) (e : RegistryError),
    r.servePut oci put extraTags = (.error e, r') → r'.store = r.store := by
  intro unchanged
  have left : ((Registry.withOptions {}).servePut imageOci imagePut []).1.isOk = false ∧
      ((Registry.withOptions {}).servePut imageOci imagePut []).2.store.repoByName "app".toList =
        some 0 := by
    decide +kernel
  cases served : (Registry.withOptions {}).servePut imageOci imagePut [] with
  | mk answer r' =>
  rw [served] at left
  cases answer with
  | ok outcome => cases left.1
  | error e =>
    have same : r'.store = ∅ := unchanged imageOci _ r' imagePut [] e served
    have named := left.2
    rw [same] at named
    cases named

end Summ
