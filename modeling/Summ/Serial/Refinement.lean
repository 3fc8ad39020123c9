import Summ.Lib.Simulation
import Summ.Registry.Pages
import Summ.Serial.Answers
import Summ.Serial.Catalog
import Summ.Serial.Planned
import Summ.Serial.Reads
import Summ.Serial.TagPushes

/-!
# The registry refines its catalog

`System.serve` runs requests one at a time: the calls, and the reads of manifests
and listings between them. `Catalog.Allows` is the specification, in terms of the
catalog alone. `registry_refines`: whatever a run answers, the specification
allows, from the empty catalog to the catalog of the store it ends in.
-/

namespace Summ

/-- A manifest is recorded as the push that stored its body was checked. -/
def Store.Recorded (oci : Oci) (options : RegistryOptions) (s : Store) : Prop :=
  ∀ repo d record, s.manifestRecord repo d = some record → ∃ c : CheckedPut,
    checkPut oci options c.put = .ok c ∧ c.digest = d ∧ record = c.record repo ∧
      s.manifestBody repo d = some c.put.body

section
variable {oci : Oci} {options : RegistryOptions} {s t : Store} {c : Call}

theorem Store.manifestBody_congr {repo : RepoId} {d : Digest}
    (h : t.get (.manifestBody repo d) = s.get (.manifestBody repo d)) :
    t.manifestBody repo d = s.manifestBody repo d := by
  simp only [Store.manifestBody, h]

theorem Store.Recorded.of_kept (recorded : s.Recorded oci options)
    (kept : ∀ repo d, (t.manifestRecord repo d).isSome = true →
      t.get (.manifest repo d) = s.get (.manifest repo d) ∧
        t.get (.manifestBody repo d) = s.get (.manifestBody repo d)) : t.Recorded oci options := by
  intro repo d record h
  obtain ⟨sameRecord, sameBody⟩ := kept repo d (by rw [h]; rfl)
  rw [Store.manifestRecord_congr sameRecord] at h
  rw [Store.manifestBody_congr sameBody]
  exact recorded repo d record h

theorem Edit.recorded (h : Edit oci options s c t) (hs : s.Recorded oci options) :
    t.Recorded oci options := by
  cases h with
  | @push put extraTags c id s₀ ts pushes checked interned tags =>
    intro repo d record hrecord
    rw [Store.push_manifestRecord] at hrecord
    split at hrecord
    · rename_i own
      obtain ⟨rfl, rfl⟩ := own
      cases hrecord
      obtain ⟨rfl, -, -⟩ := checkPut_ok checked
      refine ⟨c, checked, rfl, rfl, ?_⟩
      unfold Store.manifestBody
      rw [Store.get_apply, Store.pushBatch_manifestBody, if_pos ⟨rfl, rfl⟩]
      rfl
    · rename_i other
      rw [Store.manifestRecord_congr (interned.sameContents _ rfl)] at hrecord
      have kept : (s₀.apply (s₀.pushBatch id c ts)).get (.manifestBody repo d) =
          s.get (.manifestBody repo d) := by
        rw [Store.get_apply, Store.pushBatch_manifestBody, if_neg other]
        exact interned.sameContents _ rfl
      rw [Store.manifestBody_congr kept]
      exact hs repo d record hrecord
  | setTag record =>
    exact hs.of_kept fun repo d _ => ⟨Store.get_apply_of_effect (setTagOps_other rfl),
      Store.get_apply_of_effect (setTagOps_other rfl)⟩
  | deleteTag points =>
    exact hs.of_kept fun repo d _ => ⟨Store.get_apply_of_effect (deleteTagOps_other rfl),
      Store.get_apply_of_effect (deleteTagOps_other rfl)⟩
  | @deleteManifest id digest record now stored =>
    refine hs.of_kept fun repo d still => ?_
    rw [Store.manifestDelete_manifestRecord] at still
    split at still
    · cases still
    · rename_i other
      constructor
      · exact Store.get_apply_of_effect (by rw [Store.manifestDelete_manifest, if_neg other])
      · exact Store.get_apply_of_effect (by rw [Store.manifestDelete_manifestBody, if_neg other])
  | @finishSweep i id finishes =>
    refine hs.of_kept fun repo d still => ?_
    have other : repo ≠ id := by
      rintro rfl
      rw [← Store.has_manifest, Store.has_apply, sweepFinishBatch_effect] at still
      simp [Key.dropped, Key.repo] at still
    constructor
    all_goals
      apply Store.get_apply_of_effect
      rw [sweepFinishBatch_effect]
      simp [Key.dropped, Key.repo, other]
  | none same refs => exact hs.of_kept fun repo d _ => ⟨same _ rfl, same _ rfl⟩

end

/-! ## Which calls are accepted -/

namespace Registry

section Plans
variable {r : Registry} {α : Type} {name : Text}
  {plan : Store → RepoId → Except RegistryError (Planned α)}

theorem planIn_isOk (cached : r.Cached) : (commit (r.planIn name plan)).1.isOk =
    (r.store.repoByName name).any fun id => (plan r.store id).isOk := by
  obtain ⟨found, store, -, -⟩ := requireRepo_spec cached name
  unfold planIn
  rcases hreq : r.requireRepo name with ⟨e | id, r'⟩ <;> rw [hreq] at found store <;>
    cases hname : r.store.repoByName name <;> rw [hname] at found <;> cases found
  · rfl
  · dsimp only at store ⊢
    rw [store, Option.any_some]
    cases plan r.store id <;> rfl

theorem planIn_refused (refused : (commit (r.planIn name plan)).1.isOk = false) :
    (commit (r.planIn name plan)).2.store = r.store := by
  rcases hplan : r.planIn name plan with ⟨e | p, r'⟩
  · exact planIn_error hplan
  · rw [hplan] at refused
    cases refused

theorem planInterned_refused (cached : r.Cached)
    (refused : (commit (r.planInterned name plan)).1.isOk = false) :
    (commit (r.planInterned name plan)).2.store = r.store ∨
      ∃ id, (r.internRepo name).1 = .ok id ∧
        (plan (r.internRepo name).2.store id).isOk = false ∧
        r.store.Interned name id (commit (r.planInterned name plan)).2.store := by
  obtain ⟨interned, failed, -, -⟩ := internRepo_spec cached name
  unfold planInterned at refused ⊢
  rcases hintern : r.internRepo name with ⟨e | id, r'⟩ <;>
    rw [hintern] at interned failed refused <;> dsimp only at refused interned failed ⊢
  · exact Or.inl (failed e rfl)
  · right
    refine ⟨id, rfl, ?_, ?_⟩
    · cases hplan : plan r'.store id with
      | error e => rfl
      | ok p =>
        rw [hplan] at refused
        cases refused
    · cases hplan : plan r'.store id with
      | error e => exact interned id rfl
      | ok p =>
        rw [hplan] at refused
        cases refused

end Plans

/-- A blob is refused when its repository's name is. -/
theorem commitBlob_refused {r : Registry} (cached : r.Cached) (name : Text) (digest : Digest)
    (size : Nat) (now : Timestamp) (refused : (r.commitBlob name digest size now).1.isOk = false) :
    (r.commitBlob name digest size now).2.store = r.store := by
  rcases planInterned_refused cached refused with same | ⟨id, -, failed, -⟩
  · exact same
  · cases failed

end Registry

theorem Store.planSetTag_isOk {oci : Oci} {options : RegistryOptions} {s : Store}
    (recorded : s.Recorded oci options) (name : Text) (repo : RepoId) (tag : Tag) (digest : Digest)
    (now : Timestamp) : (s.planSetTag oci name repo tag digest now).isOk =
      (s.manifestRecord repo digest).isSome := by
  unfold Store.planSetTag
  cases hrecord : s.manifestRecord repo digest with
  | none => rfl
  | some record =>
    obtain ⟨c, checked, rfl, rfl, body⟩ := recorded repo digest record hrecord
    obtain ⟨-, -, parsed⟩ := checkPut_ok checked
    have held : s.HoldsManifest repo c := ⟨hrecord, body⟩
    obtain ⟨target, made, -⟩ := Store.tagTarget_pushed tag now held parsed
    have valid : validateTag tag.text = .ok tag := validateTag_eq_ok.mpr rfl
    simp only [made, Store.stageSetTag, valid, bind, Except.bind, pure, Except.pure]
    rfl

/-- A purge that declines plans nothing. -/
theorem Store.planPurgeManifest_outcome {s : Store} {name : Text} {repo : RepoId} {digest : Digest}
    {pushedBefore now : Timestamp} {p : Planned (Option ManifestDeleted)}
    (h : s.planPurgeManifest name repo digest pushedBefore now = .ok p) :
    p.outcome = none ∧ p.batch = [] ∨ p.outcome.isSome = true := by
  unfold Store.planPurgeManifest at h
  split at h
  · cases h
    exact Or.inl ⟨rfl, rfl⟩
  · split at h
    · rename_i record hrecord purgeable
      rw [Store.planManifestDelete, hrecord] at h
      cases h
      exact Or.inr rfl
    · cases h
      exact Or.inl ⟨rfl, rfl⟩

theorem Store.planDeleteTag_isOk (s : Store) (name : Text) (repo : RepoId) (tag : Tag)
    (now : Timestamp) :
    (s.planDeleteTag name repo tag now).isOk = (s.tagRecord repo tag).isSome := by
  unfold Store.planDeleteTag
  cases s.tagRecord repo tag <;> rfl

theorem Store.planManifestDelete_isOk (s : Store) (name : Text) (repo : RepoId) (digest : Digest)
    (now : Timestamp) :
    (s.planManifestDelete name repo digest now).isOk = (s.manifestRecord repo digest).isSome := by
  unfold Store.planManifestDelete
  cases s.manifestRecord repo digest <;> rfl

/-- How a call is answered, and what it does to the catalog. -/
structure Catalog.Serves (oci : Oci) (options : RegistryOptions) (cat : Catalog) (c : Call)
    (accepted : Bool) (cat' : Catalog) : Prop where
  decided : ∀ b ∈ cat.decides oci options c, accepted = b
  permitted : accepted = true → cat.Permits c
  done : accepted = true → cat' = cat.after oci options c
  refused : accepted = false →
    cat' = cat ∨ ∃ name ∈ Catalog.entered oci options c, cat' = cat.enter name .empty

section
variable {s : Store} {agree : s.TagKeysAgree}

theorem Store.holds_repository (id : RepoId) (d : Digest) :
    (s.repository agree id).holds d = (s.manifestRecord id d).isSome := s.content_isSome agree id d

theorem Store.labels_repository (id : RepoId) (t : Tag) :
    ((s.repository agree id).labels t).isSome = (s.tagRecord id t).isSome := Option.isSome_map

/-- The purge takes a manifest no tag points at. -/
theorem Store.untagged_of_purgeable {id : RepoId} {d : Digest} {record : ManifestRecord}
    {pushedBefore : Timestamp} (filed : record.digest = d)
    (purgeable : s.manifestIsPurgeable id record pushedBefore = true) (t : Tag) :
    (s.repository agree id).labels t ≠ some d := by
  intro points
  rw [Store.manifestIsPurgeable, filed] at purgeable
  simp only [Bool.and_eq_true, Bool.not_eq_true'] at purgeable
  have tagged := Store.has_manifestTag_iff.mpr ⟨t, (agree.tags.reverse id t d).mp points⟩
  rw [purgeable.1.1.2] at tagged
  cases tagged

theorem Store.contents_of_empty {id : RepoId} {live : List RepoId}
    (empty : s.repoIsEmpty id live = true) (d : Digest) :
    (s.repository agree id).contents d = none := by
  cases stored : (s.repository agree id).contents d with
  | none => rfl
  | some content =>
    have record : s.has (.manifest id d) = true := by
      rw [Store.has_manifest, ← s.content_isSome agree]
      exact Option.isSome_of_eq_some stored
    obtain ⟨v, hv⟩ := Option.isSome_iff_exists.mp record
    rw [Store.repoIsEmpty] at empty
    simp only [Bool.and_eq_true, Bool.not_eq_true'] at empty
    have some_ := (Store.existsPrefix_iff (p := .manifestsInRepo id)).mpr
      ⟨_, v, by simp [Scan.covers], hv⟩
    rw [empty.1.1.1.1.1.1.1.2] at some_
    cases some_

end

namespace System

variable {oci : Oci} {sys sys' : System} {c : Call} {accepted : Bool}

/-- What the catalog decides of a call is how it is answered. -/
theorem decided_of_call (coherent : sys.Coherent) (agree : sys.store.TagKeysAgree)
    (recorded : sys.store.Recorded oci sys.registry.options)
    (h : sys.call oci c = some (accepted, sys')) :
    ∀ b ∈ (sys.store.catalog agree).decides oci sys.registry.options c, accepted = b := by
  have cached := coherent.cached
  intro b hb
  cases c with
  | operation op =>
    cases h
    cases op with
    | putManifest put extraTags =>
      simp only [Catalog.decides] at hb
      split at hb
      · cases hb
      · rename_i bad
        cases hb
        simp only [Operation.accepted, Registry.putManifest, Registry.planManifestPutTagged]
        cases hcheck : checkPut oci sys.registry.options put with
        | error e => rfl
        | ok c => simp [hcheck, Except.isOk, Except.toBool] at bad
    | setTag repo tag digest now =>
      cases hb
      simp only [Operation.accepted, Registry.setTag, Registry.planSetTag]
      cases htag : validateTag tag with
      | error e => rfl
      | ok t =>
        dsimp only
        rw [Registry.planIn_isOk cached, Store.catalog, Option.any_map]
        refine congrArg (fun f => Option.any f _) (funext fun id => ?_)
        exact (Store.planSetTag_isOk recorded ..).trans (Store.holds_repository id digest).symm
    | deleteTag repo tag now =>
      cases hb
      simp only [Operation.accepted, Registry.deleteTag, Registry.planDeleteTag]
      rw [Registry.planIn_isOk cached, Store.catalog, Option.any_map]
      refine congrArg (fun f => Option.any f _) (funext fun id => ?_)
      exact (Store.planDeleteTag_isOk ..).trans (Store.labels_repository id tag).symm
    | deleteManifest repo digest now =>
      cases hb
      simp only [Operation.accepted, Registry.deleteManifest, Registry.planManifestDelete]
      rw [Registry.planIn_isOk cached, Store.catalog, Option.any_map]
      refine congrArg (fun f => Option.any f _) (funext fun id => ?_)
      exact (Store.planManifestDelete_isOk ..).trans (Store.holds_repository id digest).symm
    | _ => cases hb
  | deleteRepository repo now =>
    cases h
    cases hb
    have answered : (sys.registry.deleteRepository repo now).1.isOk =
        (Registry.commit (sys.registry.planRepoTombstone repo now)).1.isOk := by
      unfold Registry.deleteRepository
      rcases Registry.commit (sys.registry.planRepoTombstone repo now) with ⟨e | x, r⟩ <;> rfl
    refine answered.trans ?_
    rw [Registry.planRepoTombstone, Registry.planIn_isOk cached, Store.catalog, Option.isSome_map,
      System.store]
    cases sys.registry.store.repoByName repo <;> rfl
  | _ => cases hb

/-- What a call that is accepted found in the catalog. -/
theorem permitted_of_call (coherent : sys.Coherent) (agree : sys.store.TagKeysAgree)
    (recorded : sys.store.Recorded oci sys.registry.options)
    (h : sys.call oci c = some (true, sys')) : (sys.store.catalog agree).Permits c := by
  have cached := coherent.cached
  have planned {α : Type} {name : Text}
      {plan : Store → RepoId → Except RegistryError (Planned α)} {x : α}
      (answer : (Registry.commit (sys.registry.planIn name plan)).1 = .ok x) :
      ∃ id p, sys.store.repoByName name = some id ∧ plan sys.store id = .ok p ∧ p.outcome = x := by
    rcases hplan : sys.registry.planIn name plan with ⟨e | p, r⟩ <;> rw [hplan] at answer
    · cases answer
    · obtain ⟨-, id, hreq, hok⟩ := Registry.planIn_ok hplan
      exact ⟨id, p, Registry.requireRepo_ok cached hreq, hok, Except.ok.inj answer⟩
  cases c with
  | operation op =>
    obtain ⟨accepted, -⟩ := Prod.mk.inj (Option.some.inj h)
    cases op with
    | purgeManifest repo digest pushedBefore now =>
      simp only [Operation.accepted] at accepted
      split at accepted
      · rename_i deleted answer
        obtain ⟨id, p, live, hok, outcome⟩ := planned answer
        unfold Store.planPurgeManifest at hok
        cases hrecord : sys.store.manifestRecord id digest with
        | none =>
          rw [hrecord] at hok
          cases hok
          rw [← outcome] at accepted
          cases accepted
        | some record =>
          rw [hrecord] at hok
          dsimp only at hok
          split at hok
          · rename_i purgeable
            obtain ⟨put, -, filed, rfl, -⟩ := recorded id digest record hrecord
            exact ⟨_, by rw [Store.catalog, live]; rfl,
              by rw [Store.holds_repository, hrecord]; rfl,
              fun t points => Store.untagged_of_purgeable filed purgeable t points⟩
          · cases hok
            rw [← outcome] at accepted
            cases accepted
      · cases accepted
    | retireRepo repo live internedBefore =>
      obtain ⟨found, store, -, -⟩ := Registry.lookupRepo_spec cached repo
      simp only [Operation.accepted, Registry.retireRepo] at accepted
      rcases hlookup : sys.registry.lookupRepo repo with ⟨id | id, r⟩ <;>
        rw [hlookup] at found store accepted
      · cases accepted
      · dsimp only at found store accepted
        split at accepted
        · cases accepted
        · rename_i passed
          rw [store, not_or, Bool.not_eq_false] at passed
          refine ⟨sys.store.repository agree id, ?_, Store.contents_of_empty passed.2⟩
          change (sys.registry.store.repoByName repo).map _ = _
          rw [← found]
          rfl
    | _ => trivial
  | deleteBlobReference repo digest =>
    have accepted : (Registry.commit (sys.registry.planIn repo fun s id =>
        s.planBlobReferenceDelete repo id digest)).1.isOk = true :=
      (Prod.mk.inj (Option.some.inj h)).1
    rw [Registry.planIn_isOk cached] at accepted
    change ((sys.registry.store.repoByName repo).map _).isSome = true
    rw [Option.isSome_map]
    cases live : sys.registry.store.repoByName repo with
    | none =>
      rw [live] at accepted
      cases accepted
    | some id => rfl
  | _ => trivial

/-- A refused call changes nothing, but that a push may have entered its name. -/
theorem refused_of_call (coherent : sys.Coherent) (h : sys.call oci c = some (false, sys')) :
    sys'.store = sys.store ∨ ∃ name ∈ Catalog.entered oci sys.registry.options c, ∃ id,
      sys.store.Interned name id sys'.store := by
  have cached := coherent.cached
  cases c with
  | operation op =>
    obtain ⟨refused, rfl⟩ := Prod.mk.inj (Option.some.inj h)
    cases op with
    | putManifest put extraTags =>
      simp only [Operation.accepted, Operation.run, Registry.putManifest,
        Registry.planManifestPutTagged, Catalog.entered, System.store] at refused ⊢
      cases hcheck : checkPut oci sys.registry.options put with
      | error e => exact Or.inl rfl
      | ok c =>
        simp only [hcheck] at refused ⊢
        rcases Registry.planInterned_refused cached refused with same | ⟨id, -, -, interned⟩
        · exact Or.inl same
        · exact Or.inr ⟨put.repo, rfl, id, interned⟩
    | setTag repo tag digest now =>
      left
      simp only [Operation.accepted, Operation.run, Registry.setTag, Registry.planSetTag,
        System.store] at refused ⊢
      cases htag : validateTag tag with
      | error e => rfl
      | ok t =>
        simp only [htag] at refused ⊢
        exact Registry.planIn_refused refused
    | deleteTag repo tag now => exact Or.inl (Registry.planIn_refused refused)
    | deleteManifest repo digest now => exact Or.inl (Registry.planIn_refused refused)
    | purgeManifest repo digest pushedBefore now =>
      left
      simp only [Operation.accepted, Operation.run, Registry.purgeManifest] at refused ⊢
      rcases hplan : sys.registry.planIn repo fun s id =>
          s.planPurgeManifest repo id digest pushedBefore now with ⟨e | p, r⟩ <;>
        rw [hplan] at refused
      · exact Registry.planIn_error hplan
      · obtain ⟨store, id, -, hok⟩ := Registry.planIn_ok hplan
        rcases Store.planPurgeManifest_outcome hok with ⟨-, batch⟩ | taken
        · change r.store.apply p.batch = sys.store
          rw [batch, Store.apply_nil, store]
          rfl
        · rw [Registry.commit] at refused
          dsimp only at refused
          rw [taken] at refused
          cases refused
    | sweepRepoBlobs cursor limit addedBefore => cases refused
    | scanBlobs cursor limit seenBefore now => cases refused
    | collectBlob digest seenBefore =>
      left
      simp only [Operation.accepted, Operation.run, Store.collectBlob, System.store] at refused ⊢
      split
      · split
        · rfl
        · split
          · rfl
          · simp_all
      · rfl
    | retireRepo repo live internedBefore =>
      left
      obtain ⟨-, store, -, -⟩ := Registry.lookupRepo_spec cached repo
      simp only [Operation.accepted, Operation.run, Registry.retireRepo] at refused ⊢
      rcases hlookup : sys.registry.lookupRepo repo with ⟨id | id, r⟩ <;>
        rw [hlookup] at store refused
      · exact store
      · dsimp only at store refused ⊢
        split at refused
        · rename_i kept
          rw [if_pos kept]
          exact store
        · cases refused
    | commitBlob repo digest size now => exact Or.inl (Registry.commitBlob_refused cached _ _ _ _ refused)
  | deleteBlobReference repo digest =>
    obtain ⟨refused, rfl⟩ := Prod.mk.inj (Option.some.inj h)
    exact Or.inl (Registry.planIn_refused refused)
  | mountBlob repo digest from_ now =>
    left
    obtain ⟨refused, rfl⟩ := Prod.mk.inj (Option.some.inj h)
    have source := mountEntitled_spec cached digest from_
    simp only [System.store] at refused ⊢
    rcases hsource : sys.registry.mountEntitled digest from_ with ⟨entitled, r⟩
    rw [hsource] at source refused
    obtain ⟨store, -, kept⟩ := source
    cases entitled with
    | false => exact store
    | true =>
      dsimp only at store kept refused ⊢
      cases hrecord : r.store.blobRecord digest with
      | none => exact store
      | some record =>
        have same := Registry.commitBlob_refused kept repo digest record.size now
        simp only [hrecord] at refused ⊢
        rcases hcommit : r.commitBlob repo digest record.size now with ⟨e | u, r'⟩ <;>
          rw [hcommit] at same refused
        · exact (same rfl).trans store
        · cases refused
  | deleteRepository repo now =>
    left
    obtain ⟨refused, rfl⟩ := Prod.mk.inj (Option.some.inj h)
    simp only [Registry.planRepoTombstone, System.store] at refused ⊢
    rcases hplan : sys.registry.planIn repo (fun _ id => .ok {
        outcome := { id, name := repo : RepoTombstoned }
        batch := Store.tombstoneBatch repo id now }) with ⟨e | p, r⟩ <;>
      rw [hplan] at refused
    · exact Registry.planIn_error hplan
    · cases refused
  | addPullCounts deltas => cases h
  | startSweep id =>
    rw [System.call] at h
    split at h <;> cases h
  | sweepPage i =>
    rw [System.call] at h
    obtain ⟨sweep, -, h⟩ := Option.bind_eq_some_iff.mp h
    split at h <;> cases h
  | finishSweep i =>
    rw [System.call] at h
    obtain ⟨sweep, -, h⟩ := Option.bind_eq_some_iff.mp h
    split at h <;> cases h
  | restart entries => cases h

end System

/-! ## Requests and their answers -/

inductive Question
  | call (c : Call)
  | headManifest (name : Text) (reference : Reference)
  | getManifestByTag (name tag : Text)
  | getManifestByDigest (name : Text) (digest : Digest)
  | listTags (name : Text) (startAfter : Option Text) (limit : Nat)
  | tagsOfManifest (name : Text) (digest : Digest) (startAfter : Option Text) (limit : Nat)
  | listManifests (name : Text) (startAfter : Option Digest) (limit : Nat)
  | untaggedManifests (name : Text) (startAfter : Option Digest) (limit : Nat)
  | listRepos (startAfter : Option Text) (limit : Nat)

inductive Answer
  | call (accepted : Bool)
  | head (result : Except RegistryError (Option ManifestHead))
  | manifest (result : Except RegistryError (Option StoredManifest))
  | tags (result : Except RegistryError TagList)
  | manifests (result : Except RegistryError ManifestList)
  | digests (result : Except RegistryError DigestList)
  | repos (list : RepoList)

/-- An answer read through the caches, which alone it may change. -/
def System.reads {α : Type} (sys : System) (answer : α → Answer) (result : α × Registry) :
    Option (Answer × System) := some (answer result.1, { sys with registry := result.2 })

def System.serve (oci : Oci) (sys : System) : Question → Option (Answer × System)
  | .call c => (sys.call oci c).map fun r => (.call r.1, r.2)
  | .headManifest name reference => sys.reads .head (sys.registry.headManifest name reference)
  | .getManifestByTag name tag => sys.reads .manifest (sys.registry.getManifestByTag name tag)
  | .getManifestByDigest name digest =>
    sys.reads .manifest (sys.registry.getManifestByDigest name digest)
  | .listTags name startAfter limit =>
    sys.reads .tags (sys.registry.listTags name startAfter limit)
  | .tagsOfManifest name digest startAfter limit =>
    sys.reads .tags (sys.registry.tagsOfManifest name digest startAfter limit)
  | .listManifests name startAfter limit =>
    sys.reads .manifests (sys.registry.listManifests name startAfter limit)
  | .untaggedManifests name startAfter limit =>
    sys.reads .digests (sys.registry.untaggedManifests name startAfter limit)
  | .listRepos startAfter limit => some (.repos (sys.store.listRepos startAfter limit), sys)

namespace Catalog

variable (cat : Catalog)

/-- What is read under a name, where it is known. -/
def under {α : Type} (name : Text) (read : Repository → α) : Except RegistryError α :=
  match cat name with
  | some r => .ok (read r)
  | none => .error (.nameUnknown name)

def resolve (r : Repository) : Reference → Option Digest
  | .digest d => some d
  | .tag t => r.labels t

/-- What a head request tells of the content under a digest. -/
def headOf (d : Digest) (content : Content) : ManifestHead where
  digest := d
  mediaType := content.mediaType
  size := content.body.length

def head (r : Repository) (reference : Reference) : Option ManifestHead :=
  (resolve r reference).bind fun d => (r.contents d).map (headOf d)

def stored (r : Repository) (d : Digest) : Option StoredManifest :=
  (r.contents d).map fun content =>
    { digest := d, mediaType := content.mediaType, body := content.body }

def byTag (r : Repository) (tag : Text) : Option StoredManifest :=
  ((validateTag tag).toOption.bind r.labels).bind (stored r)

/-- A listing of what is under a name serves its page, where the name is known. -/
def Lists {α : Type} (name : Text) (result : Except RegistryError α)
    (serves : Repository → α → Prop) : Prop :=
  match cat name with
  | some r => ∃ page, result = .ok page ∧ serves r page
  | none => result = .error (.nameUnknown name)

/-- Whether no tag points at the digest. -/
noncomputable def untagged (r : Repository) (d : Digest) : Bool :=
  open Classical in decide (∀ t, r.labels t ≠ some d)

theorem untagged_iff {r : Repository} {d : Digest} :
    untagged r d = true ↔ ∀ t, r.labels t ≠ some d := by
  classical
  exact decide_eq_true_iff

/-- What the specification allows. A page is specified when it may hold a row. -/
def Allows (oci : Oci) (options : RegistryOptions) (cat : Catalog) :
    Question → Answer → Catalog → Prop
  | .call c, .call accepted, cat' => cat.Serves oci options c accepted cat'
  | .headManifest name reference, .head result, cat' =>
    cat' = cat ∧ result = cat.under name fun r => head r reference
  | .getManifestByTag name tag, .manifest result, cat' =>
    cat' = cat ∧ result = cat.under name fun r => byTag r tag
  | .getManifestByDigest name digest, .manifest result, cat' =>
    cat' = cat ∧ result = cat.under name fun r => stored r digest
  | .listTags name startAfter limit, .tags result, cat' =>
    cat' = cat ∧ (0 < limit → cat.Lists name result fun r page =>
      page.Serves (fun t => (r.labels t).isSome = true) startAfter limit)
  | .tagsOfManifest name digest startAfter limit, .tags result, cat' =>
    cat' = cat ∧ (0 < limit → cat.Lists name result fun r page =>
      page.Serves (fun t => r.labels t = some digest) startAfter limit)
  | .listManifests name startAfter limit, .manifests result, cat' =>
    cat' = cat ∧ (0 < limit → cat.Lists name result fun r page =>
      page.Serves (fun h => (r.contents h.digest).map (headOf h.digest) = some h) startAfter limit)
  | .untaggedManifests name startAfter limit, .digests result, cat' =>
    cat' = cat ∧ (0 < limit → cat.Lists name result fun r page =>
      page.Serves (fun d => r.holds d = true) (untagged r) startAfter limit)
  | .listRepos startAfter limit, .repos list, cat' =>
    cat' = cat ∧ (0 < limit → list.Serves (fun name => (cat name).isSome = true) startAfter limit)
  | _, _, _ => False

end Catalog

/-! ## Reads agree with the catalog -/

namespace Store

variable {oci : Oci} {options : RegistryOptions} {s : Store} {agree : s.TagKeysAgree} {id : RepoId}

/-- What is stored of a manifest, and what the catalog tells of it. -/
theorem content_spec (recorded : s.Recorded oci options) (id : RepoId) (d : Digest) :
    s.manifestRecord id d = none ∧ s.content id d = none ∨
      ∃ record body, s.manifestRecord id d = some record ∧ s.manifestBody id d = some body ∧
        record.digest = d ∧ record.size = body.length ∧
        s.content id d = some { mediaType := record.mediaType, body } := by
  cases hrecord : s.manifestRecord id d with
  | none =>
    left
    rw [content, hrecord]
    exact ⟨rfl, rfl⟩
  | some record =>
    right
    obtain ⟨c, -, filed, rfl, body⟩ := recorded id d record hrecord
    refine ⟨_, c.put.body, rfl, body, filed, rfl, ?_⟩
    rw [content, hrecord, body]

theorem headManifest_eq (recorded : s.Recorded oci options) (reference : Reference) :
    s.headManifest id reference = Catalog.head (s.repository agree id) reference := by
  have resolved : s.resolve id reference = Catalog.resolve (s.repository agree id) reference := by
    cases reference <;> rfl
  rw [headManifest, resolved, Catalog.head]
  cases Catalog.resolve (s.repository agree id) reference with
  | none => rfl
  | some d =>
    change _ = (s.content id d).map (Catalog.headOf d)
    rcases content_spec recorded id d with
      ⟨record, content⟩ | ⟨record, body, hrecord, -, -, size, content⟩
    · simp [record, content]
    · simp [hrecord, content, Catalog.headOf, size]

theorem storedManifest_eq (recorded : s.Recorded oci options) (d : Digest) :
    s.storedManifest id d = .ok (Catalog.stored (s.repository agree id) d) := by
  change _ = Except.ok ((s.content id d).map _)
  rw [storedManifest]
  rcases content_spec recorded id d with
    ⟨record, content⟩ | ⟨record, body, hrecord, hbody, -, -, content⟩
  · simp [record, content]
  · simp [hrecord, hbody, content]

theorem manifestByTag_eq (recorded : s.Recorded oci options) (tag : Text) :
    s.manifestByTag id tag = .ok (Catalog.byTag (s.repository agree id) tag) := by
  rw [manifestByTag, tagRecordOf, Catalog.byTag]
  cases validateTag tag with
  | error e => rfl
  | ok t =>
    change _ = Except.ok (((s.tagRecord id t).map TagRecord.digest).bind _)
    cases htag : s.tagRecord id t with
    | none => simp [Except.toOption, htag]
    | some record =>
      simp only [Except.toOption, Option.bind_some, htag, Option.map_some]
      exact storedManifest_eq recorded _

theorem has_tag_isSome (t : Tag) : s.has (.tag id t) = (s.tagDigest id t).isSome := by
  rw [tagDigest, Option.isSome_map, has, tagRecord]
  cases h : s.get (.tag id t) with
  | none => rfl
  | some v =>
    have fits := fits_of_get h
    cases v <;> first | rfl | cases fits

section Pages
variable {limit : Nat} (pos : 0 < limit)
include pos

theorem tagPage_catalog (startAfter : Option Text) : (s.tagPage id startAfter limit).Serves
    (fun t => ((s.repository agree id).labels t).isSome = true) startAfter limit := by
  obtain ⟨rows, listed, page⟩ := s.tagPage_serves id pos startAfter
  refine ⟨rows, listed, page.congr (fun _ _ => Iff.rfl) fun t => ?_⟩
  rw [has_tag_isSome]
  rfl

theorem tagsOfPage_catalog (digest : Digest) (startAfter : Option Text) :
    (s.tagsOfPage id digest startAfter limit).Serves
      (fun t => (s.repository agree id).labels t = some digest) startAfter limit := by
  obtain ⟨rows, listed, page⟩ := s.tagsOfPage_serves id digest pos startAfter
  exact ⟨rows, listed, page.congr (fun _ _ => Iff.rfl) fun t => (agree.tags.reverse id t digest).symm⟩

theorem manifestPage_catalog (recorded : s.Recorded oci options) (startAfter : Option Digest) :
    (s.manifestPage id startAfter limit).Serves
      (fun h => ((s.repository agree id).contents h.digest).map (Catalog.headOf h.digest) = some h)
      startAfter limit := by
  have filed (d : Digest) (record : ManifestRecord) (h : s.manifestRecord id d = some record) :
      record.digest = d := by
    obtain ⟨c, -, digest, rfl, -⟩ := recorded id d record h
    exact digest
  refine (s.manifestPage_serves id filed pos startAfter).congr (fun _ _ => Iff.rfl) fun head => ?_
  change _ ↔ (s.content id head.digest).map _ = _
  rcases content_spec recorded id head.digest with
    ⟨none_, content⟩ | ⟨record, body, hrecord, -, digest, size, content⟩
  · simp [none_, content]
  · simp only [hrecord, content, Option.map_some, Option.some.injEq, exists_eq_left']
    rw [ManifestHead.of, Catalog.headOf, digest, size]

theorem untaggedPage_catalog (startAfter : Option Digest) :
    (s.untaggedPage id startAfter limit).Serves
      (fun d => (s.repository agree id).holds d = true) (Catalog.untagged (s.repository agree id))
      startAfter limit := by
  obtain ⟨rows, listed, page⟩ := s.untaggedPage_serves id pos startAfter
  refine ⟨rows, listed.trans (List.filter_congr fun d _ => ?_),
    page.congr (fun _ _ => Iff.rfl) fun d => ?_⟩
  · rw [Bool.eq_iff_iff, Bool.not_eq_true', Bool.eq_false_iff, Ne, has_manifestTag_iff, not_exists,
      Catalog.untagged_iff]
    exact forall_congr' fun t => not_congr (agree.tags.reverse id t d).symm
  · rw [has_manifest, holds_repository]

theorem listRepos_catalog (startAfter : Option Text) : (s.listRepos startAfter limit).Serves
    (fun name => (s.catalog agree name).isSome = true) startAfter limit := by
  refine (s.listRepos_serves pos startAfter).congr (fun _ _ => Iff.rfl) fun name => ?_
  rw [catalog, Option.isSome_map, has, repoByName]
  cases h : s.get (.repoByName name) with
  | none => rfl
  | some v =>
    have fits := fits_of_get h
    cases v <;> first | exact Iff.rfl | cases fits

end Pages

end Store

namespace System

variable {oci : Oci} {options : RegistryOptions} {sys sys' : System} {cat : Catalog}

/-- The catalog is that of the store, which is sound. -/
structure Refines (oci : Oci) (options : RegistryOptions) (sys : System) (cat : Catalog) : Prop where
  coherent : sys.Coherent
  configured : sys.registry.options = options
  recorded : sys.store.Recorded oci options
  read : ∃ agree, cat = sys.store.catalog agree

theorem refines_start (oci : Oci) (options : RegistryOptions) (entries : Nat) :
    Refines oci options (.start options entries) .none where
  coherent := coherent_start options entries
  configured := rfl
  recorded _ _ _ h := by cases h
  read := ⟨⟨Store.tagsIndexed_empty, fun _ _ => rfl⟩, by funext name; rfl⟩

/-- A read leaves the caches right, and all else as it was. -/
theorem Refines.reads (refines : Refines oci options sys cat) {α : Type} {name : Text}
    {read : Store → RepoId → Except RegistryError α} :
    Refines oci options { sys with registry := (sys.registry.readIn name read).2 } cat := by
  obtain ⟨coherent, opts, recorded, agree, rfl⟩ := refines
  obtain ⟨-, store, kept, cached⟩ := Registry.requireRepo_spec coherent.cached name
  rw [Registry.readIn_snd]
  have same : (sys.withRegistry (sys.registry.requireRepo name).2).store = sys.store := store
  refine ⟨coherent_withRegistry coherent store cached, kept.trans opts, ?_, ?_⟩
  · change Store.Recorded oci options (sys.withRegistry (sys.registry.requireRepo name).2).store
    rw [same]
    exact recorded
  · change ∃ agree', sys.store.catalog agree =
      (sys.withRegistry (sys.registry.requireRepo name).2).store.catalog agree'
    rw [same]
    exact ⟨agree, rfl⟩

/-- What a read under a name answers. -/
theorem readIn_under (coherent : sys.Coherent) {agree : sys.store.TagKeysAgree} {α : Type}
    {name : Text} {read : Store → RepoId → Except RegistryError α} {told : Repository → α}
    (same : ∀ id, read sys.store id = .ok (told (sys.store.repository agree id))) :
    (sys.registry.readIn name read).1 = (sys.store.catalog agree).under name told := by
  have names : sys.store.repoByName name = sys.registry.store.repoByName name := rfl
  rw [Registry.readIn_fst coherent.cached, Catalog.under, Store.catalog, names]
  cases sys.registry.store.repoByName name with
  | none => rfl
  | some id => exact same id

/-- What a listing under a name answers. -/
theorem readIn_lists (coherent : sys.Coherent) {agree : sys.store.TagKeysAgree} {α : Type}
    {name : Text} {page : Store → RepoId → α} {serves : Repository → α → Prop}
    (cut : ∀ id, serves (sys.store.repository agree id) (page sys.store id)) :
    (sys.store.catalog agree).Lists name
      (sys.registry.readIn name fun s id => .ok (page s id)).1 serves := by
  have names : sys.store.repoByName name = sys.registry.store.repoByName name := rfl
  rw [Registry.readIn_fst coherent.cached, Catalog.Lists, Store.catalog, names]
  cases sys.registry.store.repoByName name with
  | none => rfl
  | some id => exact ⟨_, rfl, cut id⟩

theorem refines_call (refines : Refines oci options sys cat) {c : Call} {accepted : Bool}
    (h : sys.call oci c = some (accepted, sys')) :
    ∃ cat', cat.Serves oci options c accepted cat' ∧ Refines oci options sys' cat' := by
  obtain ⟨coherent, rfl, recorded, agree, rfl⟩ := refines
  have served := effect_of_call coherent h
  have edit : Edit oci sys.registry.options sys.store c sys'.store := served.effect.edit
  have agree' : sys'.store.TagKeysAgree := ⟨edit.tagsIndexed agree.tags, edit.bodiesStored agree.bodies⟩
  refine ⟨sys'.store.catalog agree', ⟨?_, ?_, ?_, ?_⟩, ?_⟩
  · exact decided_of_call coherent agree recorded h
  · rintro rfl
    exact permitted_of_call coherent agree recorded h
  · rintro rfl
    exact catalog_after served.effect coherent.named
  · rintro rfl
    have kept {t : Store} (same : t = sys.store) {a : t.TagKeysAgree} :
        t.catalog a = sys.store.catalog agree := by
      subst same
      rfl
    rcases refused_of_call coherent h with same | ⟨name, entered, id, interned⟩
    · exact Or.inl (kept same)
    · exact Or.inr ⟨name, entered, Store.catalog_interned coherent.named interned⟩
  · exact ⟨coherent_of_call coherent h, served.options, edit.recorded recorded, agree', rfl⟩

theorem refines_serve (refines : Refines oci options sys cat) {q : Question} {answer : Answer}
    (h : sys.serve oci q = some (answer, sys')) :
    ∃ cat', cat.Allows oci options q answer cat' ∧ Refines oci options sys' cat' := by
  have after := refines
  obtain ⟨coherent, opts, recorded, agree, rfl⟩ := refines
  cases q with
  | call c =>
    obtain ⟨⟨accepted, t⟩, hcall, made⟩ := Option.map_eq_some_iff.mp h
    cases made
    exact refines_call after hcall
  | headManifest name reference =>
    cases h
    exact ⟨_, ⟨rfl, readIn_under coherent fun id =>
      congrArg _ (Store.headManifest_eq recorded reference)⟩, after.reads⟩
  | getManifestByTag name tag =>
    cases h
    exact ⟨_, ⟨rfl, readIn_under coherent fun id => Store.manifestByTag_eq recorded tag⟩,
      after.reads⟩
  | getManifestByDigest name digest =>
    cases h
    exact ⟨_, ⟨rfl, readIn_under coherent fun id => Store.storedManifest_eq recorded digest⟩,
      after.reads⟩
  | listTags name startAfter limit =>
    cases h
    exact ⟨_, ⟨rfl, fun pos => readIn_lists coherent fun id =>
      Store.tagPage_catalog pos startAfter⟩, after.reads⟩
  | tagsOfManifest name digest startAfter limit =>
    cases h
    exact ⟨_, ⟨rfl, fun pos => readIn_lists coherent fun id =>
      Store.tagsOfPage_catalog pos digest startAfter⟩, after.reads⟩
  | listManifests name startAfter limit =>
    cases h
    exact ⟨_, ⟨rfl, fun pos => readIn_lists coherent fun id =>
      Store.manifestPage_catalog pos recorded startAfter⟩, after.reads⟩
  | untaggedManifests name startAfter limit =>
    cases h
    exact ⟨_, ⟨rfl, fun pos => readIn_lists coherent fun id =>
      Store.untaggedPage_catalog pos startAfter⟩, after.reads⟩
  | listRepos startAfter limit =>
    cases h
    exact ⟨_, ⟨rfl, fun pos => Store.listRepos_catalog pos startAfter⟩, after⟩

end System

/-- Whatever a run of requests is answered, the catalog's specification allows: the
run leads it from nothing to the catalog of the store. -/
theorem registry_refines (oci : Oci) (options : RegistryOptions) (entries : Nat)
    (requests : List Question) (answers : List Answer) (sys : System)
    (run : Simulation.run (System.serve oci) (.start options entries) requests =
      some (answers, sys)) :
    ∃ agree : sys.store.TagKeysAgree,
      Simulation.Allowed (Catalog.Allows oci options) .none requests answers
        (sys.store.catalog agree) := by
  have simulates (s : System) (cat : Catalog) (q : Question) (a : Answer) (t : System)
      (refines : System.Refines oci options s cat) (h : s.serve oci q = some (a, t)) :
      ∃ cat', cat.Allows oci options q a cat' ∧ System.Refines oci options t cat' :=
    System.refines_serve refines h
  obtain ⟨cat, allowed, refines⟩ := Simulation.allowed_of_run simulates
    (System.refines_start oci options entries) run
  obtain ⟨agree, rfl⟩ := refines.read
  exact ⟨agree, allowed⟩

/-- A push by tag, read back by the tag and in a listing, and the repository dropped
and pushed to again. -/
def readBack : List Question :=
  [.call (.operation (pushIndex emptyIndex (.tag latestTag) 1)),
    .getManifestByTag "app".toList "latest".toList, .listTags "app".toList none 10,
    .call (.deleteRepository "app".toList (.fromSecs 2)), .headManifest "app".toList (.tag latestTag),
    .call (.operation (pushIndex emptyIndex (.digest emptyIndex.digest) 3)),
    .untaggedManifests "app".toList none 10]

theorem registry_refines_readBack : ∃ answers sys,
    Simulation.run (System.serve indexOci) (.start {} 1) readBack = some (answers, sys) ∧
      ∃ agree : sys.store.TagKeysAgree, Simulation.Allowed (Catalog.Allows indexOci {}) .none
        readBack answers (sys.store.catalog agree) := by
  obtain ⟨⟨answers, sys⟩, run⟩ : ∃ r,
      Simulation.run (System.serve indexOci) (.start {} 1) readBack = some r :=
    Option.isSome_iff_exists.mp (by decide +kernel)
  exact ⟨answers, sys, run, registry_refines indexOci {} 1 readBack answers sys run⟩

end Summ
