import Summ.Serial.Clocked
import Summ.Serial.Isolation
import Summ.Serial.Justified

/-!
# Deletes are exact

What a delete of a manifest, or of a blob's references, takes away and what it
writes, key by key, in every store that a run of calls reaches: `deletes_exact`.
-/

namespace Summ

namespace Store

/-- The keys that are a manifest's own: its record and its body, its tags and
their reverse keys, its blob references, the child edges it is an end of, and the
referrer edges it makes through its subject or an artifact tag. -/
def Own (s : Store) (repo : RepoId) (digest : Digest) : Key → Prop
  | .manifest r d | .manifestBody r d | .manifestTag r d _ | .blobRef _ r d =>
    repo = r ∧ digest = d
  | .tag r t => repo = r ∧ s.tagDigest r t = some digest
  | .childParent r c p => repo = r ∧ (digest = c ∨ digest = p)
  | .referrer r subject d => repo = r ∧ digest = d ∧
    ((s.manifestRecord repo digest).bind ManifestRecord.subject = some subject ∨
      ∃ t, s.tagDigest repo t = some digest ∧ subjectOfArtifactTag t.text = some subject)
  | _ => False

/-- From `s` to `t` a manifest is deleted and nothing else. -/
structure ManifestDeleteExact (s t : Store) (repo : RepoId) (digest : Digest)
    (record : ManifestRecord) (now : Timestamp) (removedTags : List Tag) : Prop where
  removed : ∀ k, s.Own repo digest k → t.get k = none
  written : ∀ u ∈ removedTags, ∀ k,
    k = .tagHistory repo u now digest ∨ k = .manifestTagHistory repo digest now u →
      t.get k = some (.event (.deletion (some record)))
  kept : ∀ k, ¬s.Own repo digest k →
    (∀ u ∈ removedTags, k ≠ .tagHistory repo u now digest ∧
      k ≠ .manifestTagHistory repo digest now u) → t.get k = s.get k
  once : removedTags.Nodup
  tags : ∀ u, u ∈ removedTags ↔ s.tagDigest repo u = some digest

/-- From `s` to `t` the references of a blob and its membership are deleted and
nothing else. -/
structure BlobDeleteExact (s t : Store) (repo : RepoId) (digest : Digest) : Prop where
  removed : ∀ k, (∃ m, k = .blobRef digest repo m) ∨ k = .repoBlob repo digest ∨
    k = .blobMark digest → t.get k = none
  kept : ∀ k, ¬((∃ m, k = .blobRef digest repo m) ∨ k = .repoBlob repo digest ∨
    k = .blobMark digest) → t.get k = s.get k

variable {s : Store} {repo : RepoId} {digest : Digest} {record : ManifestRecord} {now : Timestamp}

theorem get_of_not_has {k : Key} (h : s.has k = false) : s.get k = none :=
  Option.not_isSome_iff_eq_none.mp (by rw [← has, h]; decide)

/-! ## Manifests -/

theorem tagsOf_nodup : (s.tagsOf repo digest).Nodup := by
  rw [tagsOf, drain_eq rfl (by simp), List.filterMap_map, List.Nodup, List.pairwise_filterMap]
  refine (List.Pairwise.and_mem.mp (s.under_sorted _ none)).imp ?_
  rintro ⟨k, v⟩ ⟨k', v'⟩ ⟨he, he', lt⟩ t ht t' ht' rfl
  obtain ⟨covers, -⟩ := mem_under.mp he
  obtain ⟨covers', -⟩ := mem_under.mp he'
  cases k with
  | manifestTag r d u =>
    cases k' with
    | manifestTag r' d' u' =>
      obtain ⟨rfl, rfl⟩ : repo = r ∧ digest = d := by simpa [Scan.covers] using covers
      obtain ⟨rfl, rfl⟩ : repo = r' ∧ digest = d' := by simpa [Scan.covers] using covers'
      cases ht
      cases ht'
      exact lt_irrefl _ lt
    | _ => cases covers'
  | _ => cases covers

/-- Away from its own keys the batch writes the events of its tags only. -/
theorem manifestDelete_own_only (tags : s.TagsIndexed)
    (stored : s.manifestRecord repo digest = some record) {k : Key}
    (foreign : ¬s.Own repo digest k) (event : k.isEvent = false) :
    WriteBatch.effect (s.manifestDeleteBatch repo digest record now) k = none := by
  rw [WriteBatch.effect_eq_none]
  intro op hop
  have other (k' : Key) (own : s.Own repo digest k') : k' ≠ k := fun h => foreign (h ▸ own)
  rcases mem_manifestDeleteBatch hop with ⟨k', rfl, -, hk⟩ | ⟨subject, hs, rfl⟩ | ⟨t, ht, hop⟩
  · refine if_neg (other k' ?_)
    rcases hk with rfl | rfl | ⟨blob, -, rfl⟩ | ⟨child, -, rfl⟩ | ⟨covers, -⟩
    · exact ⟨rfl, rfl⟩
    · exact ⟨rfl, rfl⟩
    · exact ⟨rfl, rfl⟩
    · exact ⟨rfl, Or.inr rfl⟩
    · obtain ⟨p, rfl⟩ := Scan.covers_parentsOf.mp covers
      exact ⟨rfl, Or.inl rfl⟩
  · refine if_neg (other (.referrer repo subject digest) ⟨rfl, rfl, Or.inl ?_⟩)
    rw [stored]
    exact hs
  · have points : s.tagDigest repo t = some digest := (tags.reverse repo t digest).mpr ht
    simp only [deleteTagOps, List.mem_append, List.mem_cons, List.not_mem_nil, or_false,
      forSubject, Option.mem_toList, Option.map_eq_some_iff] at hop
    rcases hop with ((rfl | rfl) | ⟨subject, hsub, rfl⟩) | rfl | rfl
    · exact if_neg (other (.tag repo t) ⟨rfl, points⟩)
    · exact if_neg (other (.manifestTag repo digest t) ⟨rfl, rfl⟩)
    · exact if_neg (other (.referrer repo subject digest) ⟨rfl, rfl, Or.inr ⟨t, points, hsub⟩⟩)
    · refine if_neg ?_
      rintro rfl
      cases event
    · refine if_neg ?_
      rintro rfl
      cases event

/-- The two keys of an event hold the deletion of a removed tag, or what they held. -/
theorem manifestDelete_event (r : RepoId) (u : Tag) (at_ : Timestamp) (d : Digest) :
    WriteBatch.effect (s.manifestDeleteBatch repo digest record now)
        (.manifestTagHistory r d at_ u) =
      if (repo = r ∧ now = at_ ∧ digest = d) ∧ s.has (.manifestTag repo digest u) = true then
        some (some (.event (.deletion (some record))))
      else none := by
  rw [← manifestDeleteBatch_mirrored digest record now r u at_ d, manifestDelete_tagHistory]

theorem manifestDelete_exact (hs : s.Justified) (tags : s.TagsIndexed)
    (stored : s.manifestRecord repo digest = some record) :
    s.ManifestDeleteExact (s.apply (s.manifestDeleteBatch repo digest record now)) repo digest
      record now (s.tagsOf repo digest) where
  removed k own := by
    have gone : (s.apply (s.manifestDeleteBatch repo digest record now)).NoEdgesOf repo digest :=
      noEdgesOf_manifestDelete hs tags stored
    cases k with
    | manifest r d =>
      obtain ⟨rfl, rfl⟩ := own
      rw [get_apply, manifestDelete_manifest, if_pos ⟨rfl, rfl⟩]
      rfl
    | manifestBody r d =>
      obtain ⟨rfl, rfl⟩ := own
      rw [get_apply, manifestDelete_manifestBody, if_pos ⟨rfl, rfl⟩]
      rfl
    | manifestTag r d t =>
      obtain ⟨rfl, rfl⟩ := own
      rw [get_apply, manifestDelete_manifestTag]
      by_cases held : s.has (.manifestTag repo digest t) = true
      · rw [if_pos ⟨rfl, rfl, held⟩]
        rfl
      · rw [if_neg fun h => held h.2.2]
        exact Option.not_isSome_iff_eq_none.mp held
    | tag r t =>
      obtain ⟨rfl, points⟩ := own
      rw [get_apply, manifestDelete_tag, if_pos ⟨rfl, (tags.reverse repo t digest).mp points⟩]
      rfl
    | blobRef b r d =>
      obtain ⟨rfl, rfl⟩ := own
      exact get_of_not_has (gone.blobs b)
    | childParent r c p =>
      obtain ⟨rfl, rfl | rfl⟩ := own
      · exact get_of_not_has (gone.parents p)
      · exact get_of_not_has (gone.children c)
    | referrer r subject d =>
      obtain ⟨rfl, rfl, -⟩ := own
      exact get_of_not_has (gone.referrers subject)
    | _ => exact own.elim
  written u hu k hk := by
    have held := mem_tagsOf.mp hu
    rcases hk with rfl | rfl
    · rw [get_apply, manifestDelete_tagHistory, if_pos ⟨⟨rfl, rfl, rfl⟩, held⟩]
      rfl
    · rw [get_apply, manifestDelete_event, if_pos ⟨⟨rfl, rfl, rfl⟩, held⟩]
      rfl
  kept k foreign quiet := by
    apply get_apply_of_effect
    by_cases event : k.isEvent = true
    · cases k with
      | tagHistory r u at_ d =>
        rw [manifestDelete_tagHistory, if_neg]
        rintro ⟨⟨rfl, rfl, rfl⟩, held⟩
        exact (quiet u (mem_tagsOf.mpr held)).1 rfl
      | manifestTagHistory r d at_ u =>
        rw [manifestDelete_event, if_neg]
        rintro ⟨⟨rfl, rfl, rfl⟩, held⟩
        exact (quiet u (mem_tagsOf.mpr held)).2 rfl
      | _ => cases event
    · exact manifestDelete_own_only tags stored foreign (by simpa using event)
  once := tagsOf_nodup
  tags u := mem_tagsOf.trans (tags.reverse repo u digest).symm

/-! ## Blobs -/

theorem blobReferenceDelete_exact :
    s.BlobDeleteExact (s.apply (s.blobReferenceDeleteBatch repo digest)) repo digest where
  removed k hk := by
    rw [get_apply, blobReferenceDeleteBatch_effect]
    split
    · rfl
    · rename_i spared
      refine get_of_not_has (Bool.eq_false_iff.mpr fun held => spared ?_)
      rcases hk with ⟨m, rfl⟩ | rfl | rfl
      · exact Or.inr (Or.inl ((mem_drain rfl (by simp)).mpr ⟨by simp [Scan.covers], held⟩))
      · exact Or.inr (Or.inr ⟨existsPrefix_repoBlob.trans held, rfl⟩)
      · exact Or.inl rfl
  kept k hk := by
    apply get_apply_of_effect
    rw [blobReferenceDeleteBatch_effect, if_neg]
    rintro (rfl | drained | ⟨-, rfl⟩)
    · exact hk (Or.inr (Or.inr rfl))
    · obtain ⟨m, rfl⟩ := Scan.covers_blobRefsInRepo.mp ((mem_drain rfl (by simp)).mp drained).1
      exact hk (Or.inl ⟨m, rfl⟩)
    · exact hk (Or.inr (Or.inl rfl))

end Store

/-! ## The requests -/

namespace Registry

variable {r r' : Registry} {name : Text} {digest : Digest} {now : Timestamp}

/-- No reference of the repository, by digest or by tag, leads to the manifest. -/
structure Unresolved (r : Registry) (name : Text) (digest : Digest) : Prop where
  heads : ∀ reference head, (r.headManifest name reference).1 = .ok (some head) →
    head.digest ≠ digest
  byDigest : (r.getManifestByDigest name digest).1 = .ok none
  byTag : ∀ tag manifest, (r.getManifestByTag name tag).1 = .ok (some manifest) →
    manifest.digest ≠ digest
  tags : ∀ repo u, r.store.repoByName name = some repo → r.store.tagDigest repo u ≠ some digest

theorem storedManifest_digest {s : Store} {repo : RepoId} {d : Digest} {manifest : StoredManifest}
    (h : s.storedManifest repo d = .ok (some manifest)) :
    manifest.digest = d ∧ (s.manifestRecord repo d).isSome = true := by
  unfold Store.storedManifest at h
  split at h
  · cases h
  · rename_i record stored
    split at h
    · cases h
    · cases h
      exact ⟨rfl, Option.isSome_of_eq_some stored⟩

/-- Where neither a record of the manifest nor a tag that points at it is left. -/
theorem unresolved_of_gone (cached : r.Cached) {repo : RepoId}
    (live : r.store.repoByName name = some repo) (gone : r.store.manifestRecord repo digest = none)
    (untagged : ∀ u, r.store.tagDigest repo u ≠ some digest) : r.Unresolved name digest where
  heads reference head h := by
    rintro rfl
    rw [headManifest, readIn_fst cached, live] at h
    obtain ⟨d, resolved, h⟩ := Option.bind_eq_some_iff.mp (Except.ok.inj h)
    obtain ⟨record, stored, h⟩ := Option.bind_eq_some_iff.mp h
    cases h
    rw [gone] at stored
    cases stored
  byDigest := by
    rw [getManifestByDigest, readIn_fst cached, live]
    dsimp only
    rw [Store.storedManifest, gone]
  byTag tag manifest h := by
    rintro rfl
    rw [getManifestByTag, readIn_fst cached, live] at h
    dsimp only at h
    unfold Store.manifestByTag at h
    split at h
    · cases h
    · obtain ⟨same, stored⟩ := storedManifest_digest h
      rw [← same, gone] at stored
      cases stored
  tags repo' u live' := by
    rw [live] at live'
    cases live'
    exact untagged u

/-- A request that plans in a repository and succeeds has applied its plan. -/
theorem of_commit_planIn (cached : r.Cached) {α : Type} {a : α}
    {plan : Store → RepoId → Except RegistryError (Planned α)}
    (h : commit (r.planIn name plan) = (.ok a, r')) : ∃ repo p,
      r.store.repoByName name = some repo ∧ plan r.store repo = .ok p ∧ p.outcome = a ∧
      r'.store = r.store.apply p.batch ∧ r'.interner = (r.requireRepo name).2.interner := by
  have store := r.requireRepo_store name
  have snd : (r.planIn name plan).2 = (r.requireRepo name).2 := planIn_snd
  rcases planned : r.planIn name plan with ⟨e | p, r₁⟩
  · rw [planned] at h
    cases h
  · obtain rfl : r₁ = (r.requireRepo name).2 := by rw [← snd, planned]
    obtain ⟨-, repo, found, ok⟩ := planIn_ok planned
    rw [planned] at h
    obtain ⟨outcome, rfl⟩ := Prod.mk.inj h
    refine ⟨repo, p, requireRepo_ok cached found, ok, Except.ok.inj outcome, ?_, rfl⟩
    rw [← store]

/-- The caches after a request that plans in a repository and changes no name. -/
theorem cached_planned (cached : r.Cached) (interner : r'.interner = (r.requireRepo name).2.interner)
    (names : r.store.SameNames r'.store) : r'.Cached := by
  obtain ⟨-, store, -, kept⟩ := requireRepo_spec cached name
  intro n id peeked
  rw [interner] at peeked
  rw [names.repoByName, ← store]
  exact kept n id peeked

theorem deleteManifest_ok (cached : r.Cached) {deleted : ManifestDeleted}
    (h : r.deleteManifest name digest now = (.ok deleted, r')) : ∃ repo record,
      r.store.repoByName name = some repo ∧ r.store.manifestRecord repo digest = some record ∧
      r'.store = r.store.apply (r.store.manifestDeleteBatch repo digest record now) ∧
      deleted.removedTags = r.store.tagsOf repo digest ∧ r'.Cached ∧
      r'.store.repoByName name = some repo := by
  obtain ⟨repo, p, live, planned, outcome, store, interner⟩ := of_commit_planIn cached h
  unfold Store.planManifestDelete at planned
  split at planned
  · cases planned
  · rename_i record stored
    cases planned
    have names : r.store.SameNames r'.store := by
      rw [store]
      exact Store.sameNames_within (Store.manifestDeleteBatch_within _ _ _)
    refine ⟨repo, record, live, stored, store, ?_, cached_planned cached interner names, ?_⟩
    · rw [← outcome]
    · rw [names.repoByName, live]

theorem deleteBlobReference_ok (cached : r.Cached) {deleted : BlobRefDeleted}
    (h : r.deleteBlobReference name digest = (.ok deleted, r')) : ∃ repo,
      r.store.repoByName name = some repo ∧
      r'.store = r.store.apply (r.store.blobReferenceDeleteBatch repo digest) ∧ r'.Cached ∧
      r'.store.repoByName name = some repo := by
  obtain ⟨repo, p, live, planned, -, store, interner⟩ := of_commit_planIn cached h
  rw [Store.planBlobReferenceDelete_ok planned] at store
  have names : r.store.SameNames r'.store := by
    rw [store]
    exact Store.sameNames_within (Store.blobReferenceDeleteBatch_within _)
  refine ⟨repo, live, store, cached_planned cached interner names, ?_⟩
  rw [names.repoByName, live]

end Registry

open Registry

/-- As long as no two bodies that are pushed share a digest, in every store that a
run of calls reaches: a delete of a manifest that succeeds leaves no reference to it
in the repository, takes away its own keys, writes the two deletions of each of its
tags, and changes nothing else; a delete of a blob's references that succeeds leaves
the blob unserved and changes nothing but them, the membership and the mark. -/
theorem deletes_exact (oci : Oci) (options : RegistryOptions) (entries : Nat)
    (calls : List Call) (sys : System) (free : oci.CollisionFree (calls.filterMap Call.put))
    (run : Transition.exec (System.step oci) (.start options entries) calls = some sys) :
    (∀ name digest now deleted r',
      sys.registry.deleteManifest name digest now = (.ok deleted, r') →
      r'.Unresolved name digest ∧ ∃ repo record, sys.store.repoByName name = some repo ∧
        sys.store.manifestRecord repo digest = some record ∧
        sys.store.ManifestDeleteExact r'.store repo digest record now deleted.removedTags) ∧
    ∀ name digest deleted r', sys.registry.deleteBlobReference name digest = (.ok deleted, r') →
      (r'.blobIsServable name digest).1 = false ∧ ∃ repo, sys.store.repoByName name = some repo ∧
        sys.store.BlobDeleteExact r'.store repo digest := by
  obtain ⟨coherent, kept⟩ := System.edgesKept_run free run
  refine ⟨fun name digest now deleted r' h => ?_, fun name digest deleted r' h => ?_⟩
  · obtain ⟨repo, record, live, stored, store, removed, cached, live'⟩ :=
      deleteManifest_ok coherent.cached h
    have exact_ : sys.store.ManifestDeleteExact r'.store repo digest record now
        deleted.removedTags := by
      rw [store, removed]
      exact Store.manifestDelete_exact kept.justified kept.tags stored
    refine ⟨unresolved_of_gone cached live' ?_ fun u points => ?_, repo, record, live, stored, exact_⟩
    · rw [store, Store.manifestDelete_manifestRecord, if_pos ⟨rfl, rfl⟩]
    · rw [store, Store.manifestDelete_tagDigest] at points
      split at points
      · cases points
      · rename_i untagged
        exact untagged ⟨rfl, (kept.tags.reverse repo u digest).mp points⟩
  · obtain ⟨repo, live, store, cached, live'⟩ := deleteBlobReference_ok coherent.cached h
    have exact_ : sys.store.BlobDeleteExact r'.store repo digest := by
      rw [store]
      exact Store.blobReferenceDelete_exact
    refine ⟨?_, repo, live, exact_⟩
    by_contra served
    obtain ⟨id, named, k, serves, held⟩ :=
      (Registry.blobIsServable_iff cached name digest).mp (by simpa using served)
    obtain rfl : repo = id := Option.some.inj (live'.symm.trans named)
    have gone : r'.store.get k = none := by
      apply exact_.removed
      rcases serves with rfl | ⟨m, rfl⟩
      · exact Or.inr (Or.inl rfl)
      · exact Or.inl ⟨m, rfl⟩
    rw [Store.has, gone] at held
    cases held

/-- The image, pushed under a tag. -/
def taggedImage : List Call :=
  [.operation (.commitBlob "app".toList emptyConfig 2 (.fromSecs 1)),
    .operation (.putManifest imagePut ["v1".toList, "v2".toList])]

theorem deletes_exact_taggedImage : ∃ sys r' deleted,
    Transition.exec (System.step imageOci) (.start {} 1) taggedImage = some sys ∧
      sys.registry.deleteManifest "app".toList emptyImage.digest (.fromSecs 2) = (.ok deleted, r') ∧
      deleted.removedTags.length = 2 ∧ r'.Unresolved "app".toList emptyImage.digest := by
  have facts : (Transition.exec (System.step imageOci) (.start {} 1) taggedImage).map (fun sys =>
      ((sys.registry.deleteManifest "app".toList emptyImage.digest (.fromSecs 2)).1.toOption.map
        fun deleted => deleted.removedTags.length)) = some (some 2) := by decide +kernel
  have free : imageOci.CollisionFree (taggedImage.filterMap Call.put) := by decide +kernel
  obtain ⟨sys, run, h⟩ := Option.map_eq_some_iff.mp facts
  rcases asked : sys.registry.deleteManifest "app".toList emptyImage.digest (.fromSecs 2)
    with ⟨e | deleted, r'⟩
  · rw [asked] at h
    cases h
  · rw [asked] at h
    exact ⟨sys, r', deleted, run, asked, Option.some.inj h,
      ((deletes_exact imageOci {} 1 taggedImage sys free run).1 _ _ _ deleted r' asked).1⟩

end Summ
