import Summ.Registry.Bodies
import Summ.Registry.Children
import Summ.Registry.Referrers
import Summ.Serial.Locality
import Summ.Serial.TagKeys

/-!
# Edges and the manifests they stand for

Blob references, edges to an index and edges to a subject are written from a
parsed push and removed from a stored record. `Justified` says that each stands
for something a stored manifest has; `Sweep.Ahead` says which references the
pages of a sweep have yet to reach, so that none is left when its records go.
-/

namespace Summ

/-- The push a call makes. -/
def Call.put : Call → Option ManifestPut
  | operation (.putManifest put _) => some put
  | _ => none

namespace Store

/-- Every record is that of one of the pushes. -/
def Pushed (oci : Oci) (options : RegistryOptions) (puts : List ManifestPut) (s : Store) : Prop :=
  ∀ r d record, s.manifestRecord r d = some record →
    ∃ put ∈ puts, ∃ c, checkPut oci options put = .ok c ∧ c.digest = d ∧ record = c.record r

def BlobsJustified (s : Store) : Prop :=
  ∀ b r m, s.has (.blobRef b r m) = true →
    ∃ record, s.manifestRecord r m = some record ∧ b ∈ record.layers

def ChildrenJustified (s : Store) : Prop :=
  ∀ r c p, s.has (.childParent r c p) = true →
    ∃ record, s.manifestRecord r p = some record ∧ record.lists c = true

def ReferrersJustified (s : Store) : Prop :=
  ∀ r subject d, s.has (.referrer r subject d) = true →
    ∃ record, s.manifestRecord r d = some record ∧ s.Refers r d record subject

/-- Every edge comes from a stored manifest. -/
structure Justified (s : Store) : Prop where
  blobs : s.BlobsJustified
  children : s.ChildrenJustified
  referrers : s.ReferrersJustified

variable {s t : Store}

theorem SameContents.manifestRecord (same : s.SameContents t) (r : RepoId) (d : Digest) :
    t.manifestRecord r d = s.manifestRecord r d := manifestRecord_congr (same _ rfl)

/-! ## Records that are pushed again -/

/-- A push of a digest that is stored lists what the stored record lists. -/
theorem Pushed.record_again {oci : Oci} {options : RegistryOptions} {puts : List ManifestPut}
    (pushed : s.Pushed oci options puts) (free : oci.CollisionFree puts) {put : ManifestPut}
    {c : CheckedPut} (listed : put ∈ puts) (checked : checkPut oci options put = .ok c)
    {r : RepoId} {record : ManifestRecord} (stored : s.manifestRecord r c.digest = some record) :
    (c.record r).layers = record.layers ∧ (c.record r).children = record.children ∧
      (c.record r).subject = record.subject := by
  obtain ⟨put', listed', c', checked', same, rfl⟩ := pushed r c.digest record stored
  have refs := checkPut_again free listed' listed checked' checked same.symm
  simp only [CheckedPut.record]
  rw [refs]
  exact ⟨rfl, rfl, rfl⟩

/-! ## Tag writes -/

/-- A tag write keeps the edges to subjects justified when what it writes at its
own target is. -/
theorem Retagged.justified {repo : RepoId} {ts : List Tag} {target : Option Digest}
    (w : Retagged s t repo ts target) (hs : s.ReferrersJustified)
    (kept : ∀ d record, target = some d → s.manifestRecord repo d = some record →
      ∃ record', t.manifestRecord repo d = some record' ∧ record'.subject = record.subject)
    (own : ∀ d subject, target = some d → t.has (.referrer repo subject d) = true →
      s.has (.referrer repo subject d) = true ∨ ∃ record', t.manifestRecord repo d = some record' ∧
        (record'.subject = some subject ∨
          ∃ u ∈ ts, subjectOfArtifactTag u.text = some subject)) :
    t.ReferrersJustified := by
  intro r subject d h
  by_cases hd : repo = r ∧ target = some d
  · obtain ⟨rfl, hd⟩ := hd
    rcases own d subject hd h with old | ⟨record', stored', hsub | ⟨u, hu, hsub⟩⟩
    · obtain ⟨record, stored, refers⟩ := hs repo subject d old
      obtain ⟨record', stored', same⟩ := kept d record hd stored
      refine ⟨record', stored', ?_⟩
      rcases refers with hsub | ⟨u, hu, hsub⟩
      · exact Or.inl (same.trans hsub)
      · refine Or.inr ⟨u, ?_, hsub⟩
        rw [w.tags]
        split
        · exact hd
        · exact hu
    · exact ⟨record', stored', Or.inl hsub⟩
    · refine ⟨record', stored', Or.inr ⟨u, ?_, hsub⟩⟩
      rw [w.tags, if_pos ⟨rfl, hu⟩, hd]
  · obtain ⟨old, notRetracted⟩ := (w.retracts r subject d hd).mp h
    obtain ⟨record, stored, refers⟩ := hs r subject d old
    refine ⟨record, (w.others r d hd).trans stored, ?_⟩
    rcases refers with hsub | ⟨u, hu, hsub⟩
    · exact Or.inl hsub
    · refine Or.inr ⟨u, ?_, hsub⟩
      rw [w.tags, if_neg]
      · exact hu
      · rintro ⟨rfl, hin⟩
        exact notRetracted ⟨rfl, u, hin, hsub, hu⟩

theorem referrersJustified_setTag (hs : s.ReferrersJustified) {repo : RepoId} {tag : Tag}
    {target : TagTarget} {now : Timestamp}
    (record : (s.manifestRecord repo target.digest).isSome = true) :
    (s.apply (setTagOps repo tag (s.tagDigest repo tag) target now)).ReferrersJustified := by
  have same (r : RepoId) (d : Digest) :
      (s.apply (setTagOps repo tag (s.tagDigest repo tag) target now)).manifestRecord r d =
        s.manifestRecord r d := manifestRecord_congr (get_apply_of_effect (setTagOps_other rfl))
  refine (retagged_setTag repo tag target now).justified hs ?_ ?_
  · intro d record' _ stored
    exact ⟨record', (same repo d).trans stored, rfl⟩
  · intro d subject hd h
    obtain rfl := Option.some.inj hd
    obtain ⟨record', stored⟩ := Option.isSome_iff_exists.mp record
    rw [has_apply, setTagOps_referrer] at h
    split at h
    · rename_i hkey
      refine Or.inr ⟨record', (same repo _).trans stored, Or.inr ⟨tag, ?_, hkey.2⟩⟩
      exact List.mem_singleton_self tag
    · exact Or.inl h

theorem referrersJustified_deleteTag (hs : s.ReferrersJustified) {repo : RepoId} {tag : Tag}
    {digest : Digest} {manifest : Option ManifestRecord} {now : Timestamp}
    (points : s.tagDigest repo tag = some digest) :
    (s.apply (deleteTagOps repo tag digest manifest now)).ReferrersJustified := by
  refine (retagged_deleteTag points manifest now).justified hs ?_ ?_
  · intro d record hd
    cases hd
  · intro d subject hd
    cases hd

/-! ## Pushes -/

section Push
variable {repo : RepoId} {c : CheckedPut} {ts : List Tag}

theorem blobsJustified_push (hs : s.BlobsJustified)
    (again : ∀ record, s.manifestRecord repo c.digest = some record →
      (c.record repo).layers = record.layers) :
    (s.apply (s.pushBatch repo c ts)).BlobsJustified := by
  intro b r m h
  rw [push_manifestRecord]
  rw [has_apply, pushBatch_blobRef] at h
  by_cases hkey : repo = r ∧ c.digest = m
  · obtain ⟨rfl, rfl⟩ := hkey
    refine ⟨c.record repo, if_pos ⟨rfl, rfl⟩, ?_⟩
    split at h
    · rename_i written
      obtain ⟨-, -, desc, hdesc, rfl⟩ := written
      exact List.mem_map.mpr ⟨desc, (List.mem_filter.mp hdesc).1, rfl⟩
    · obtain ⟨record, stored, hb⟩ := hs b repo c.digest h
      rw [again record stored]
      exact hb
  · rw [if_neg fun h => hkey ⟨h.1, h.2.1⟩] at h
    rw [if_neg hkey]
    exact hs b r m h

theorem childrenJustified_push (hs : s.ChildrenJustified)
    (again : ∀ record, s.manifestRecord repo c.digest = some record →
      (c.record repo).children = record.children) :
    (s.apply (s.pushBatch repo c ts)).ChildrenJustified := by
  intro r child p h
  rw [push_manifestRecord]
  rw [has_apply, pushBatch_childParent] at h
  by_cases hkey : repo = r ∧ c.digest = p
  · obtain ⟨rfl, rfl⟩ := hkey
    refine ⟨c.record repo, if_pos ⟨rfl, rfl⟩, ?_⟩
    split at h
    · rename_i written
      exact decide_eq_true written.2.2
    · obtain ⟨record, stored, hc⟩ := hs repo child c.digest h
      rw [ManifestRecord.lists, again record stored]
      exact hc
  · rw [if_neg fun h => hkey ⟨h.1, h.2.1⟩] at h
    rw [if_neg hkey]
    exact hs r child p h

theorem referrersJustified_push (hs : s.ReferrersJustified)
    (again : ∀ record, s.manifestRecord repo c.digest = some record →
      (c.record repo).subject = record.subject) :
    (s.apply (s.pushBatch repo c ts)).ReferrersJustified := by
  have stored : (s.apply (s.pushBatch repo c ts)).manifestRecord repo c.digest =
      some (c.record repo) := by rw [push_manifestRecord, if_pos ⟨rfl, rfl⟩]
  refine (retagged_push repo c ts).justified hs ?_ ?_
  · intro d record hd old
    obtain rfl := Option.some.inj hd
    exact ⟨c.record repo, stored, again record old⟩
  · intro d subject hd h
    obtain rfl := Option.some.inj hd
    rw [has_apply, pushBatch_referrer_self] at h
    split at h
    · rename_i written
      exact Or.inr ⟨c.record repo, stored, written.2⟩
    · exact Or.inl h

end Push

/-! ## Deletions of manifests -/

section ManifestDelete
variable {repo : RepoId} {digest : Digest} {record : ManifestRecord} {now : Timestamp}

/-- A key that one of the deletes of the batch names is gone after it. -/
theorem manifestDelete_gone {k : Key} (plain : k.aboutTags = false)
    (named : MetaOp.delete k ∈ s.manifestDeleteBatch repo digest record now) :
    (s.apply (s.manifestDeleteBatch repo digest record now)).has k = false := by
  by_contra h
  obtain ⟨-, untouched⟩ := manifestDelete_has plain (by simpa using h)
  have := WriteBatch.effect_eq_none.mp untouched _ named
  simp [MetaOp.effect] at this

/-- What is left at an edge of a subject: a manifest's delete only takes it away. -/
theorem manifestDelete_referrer_has {r : RepoId} {subject d : Digest}
    (h : (s.apply (s.manifestDeleteBatch repo digest record now)).has (.referrer r subject d) = true) :
    s.has (.referrer r subject d) = true ∧
      ∀ op ∈ s.manifestDeleteBatch repo digest record now, op.effect (.referrer r subject d) = none := by
  have deletes : ∀ op ∈ s.manifestDeleteBatch repo digest record now,
      op.effect (.referrer r subject d) ≠ none → op.effect (.referrer r subject d) = some none := by
    intro op hop touched
    rcases mem_manifestDeleteBatch hop with ⟨k, rfl, plain, -⟩ | ⟨subject', -, rfl⟩ | ⟨t, -, hop⟩
    · cases k <;> first | exact absurd rfl touched | cases plain
    · simp only [MetaOp.effect] at touched ⊢
      split at touched
      · rename_i hk
        rw [if_pos hk]
      · exact absurd rfl touched
    · simp only [deleteTagOps, List.mem_append, List.mem_cons, List.not_mem_nil, or_false,
        forSubject, Option.mem_toList, Option.map_eq_some_iff] at hop
      rcases hop with ((rfl | rfl) | ⟨subject', -, rfl⟩) | rfl | rfl <;> simp_all [MetaOp.effect]
  rw [has_apply, WriteBatch.effect_of_deletes deletes] at h
  split at h
  · cases h
  · rename_i untouched
    refine ⟨h, fun op hop => ?_⟩
    by_contra touched
    exact untouched ⟨op, hop, deletes op hop touched⟩

/-- After the delete of a manifest none of its edges is left: no reference of
its blobs, no edge from its children or to its parents, none to its subjects. -/
structure NoEdgesOf (s : Store) (repo : RepoId) (m : Digest) : Prop where
  blobs : ∀ b, s.has (.blobRef b repo m) = false
  children : ∀ c, s.has (.childParent repo c m) = false
  parents : ∀ p, s.has (.childParent repo m p) = false
  referrers : ∀ subject, s.has (.referrer repo subject m) = false

theorem noEdgesOf_manifestDelete (hs : s.Justified) (tags : s.TagsIndexed)
    (stored : s.manifestRecord repo digest = some record) :
    (s.apply (s.manifestDeleteBatch repo digest record now)).NoEdgesOf repo digest where
  blobs b := by
    by_contra h
    obtain ⟨old, -⟩ := manifestDelete_has rfl (by simpa using h)
    obtain ⟨record', stored', hb⟩ := hs.blobs b repo digest old
    obtain rfl := Option.some.inj (stored.symm.trans stored')
    exact h (manifestDelete_gone rfl (by simp [manifestDeleteBatch, hb]))
  children c := by
    by_contra h
    obtain ⟨old, -⟩ := manifestDelete_has rfl (by simpa using h)
    obtain ⟨record', stored', hc⟩ := hs.children repo c digest old
    obtain rfl := Option.some.inj (stored.symm.trans stored')
    obtain ⟨child, hchild, rfl⟩ := List.mem_map.mp (of_decide_eq_true hc)
    refine h (manifestDelete_gone rfl ?_)
    simp only [manifestDeleteBatch, List.mem_append, List.mem_map]
    exact Or.inl (Or.inl (Or.inl (Or.inr ⟨child, hchild, rfl⟩)))
  parents p := by
    by_contra h
    obtain ⟨old, -⟩ := manifestDelete_has rfl (by simpa using h)
    have drained : Key.childParent repo digest p ∈ s.drain (.parentsOf repo digest) :=
      (mem_drain rfl (by simp)).mpr ⟨by simp [Scan.covers], old⟩
    refine h (manifestDelete_gone rfl ?_)
    simp only [manifestDeleteBatch, List.mem_append, List.mem_map]
    exact Or.inl (Or.inr ⟨_, drained, rfl⟩)
  referrers subject := by
    by_contra h
    obtain ⟨old, untouched⟩ := manifestDelete_referrer_has (by simpa using h)
    obtain ⟨record', stored', refers⟩ := hs.referrers repo subject digest old
    obtain rfl := Option.some.inj (stored.symm.trans stored')
    rcases refers with hsub | ⟨u, hu, hsub⟩
    · have := untouched (.delete (.referrer repo subject digest))
        (by simp [manifestDeleteBatch, hsub])
      simp [MetaOp.effect] at this
    · have member : MetaOp.delete (.referrer repo subject digest) ∈
          s.manifestDeleteBatch repo digest record now := by
        refine List.mem_append_right _ (List.mem_flatMap.mpr ⟨u, ?_, ?_⟩)
        · exact mem_tagsOf.mpr ((tags.reverse repo u digest).mp hu)
        · simp [deleteTagOps, forSubject, hsub]
      have := untouched _ member
      simp [MetaOp.effect] at this

theorem justified_manifestDelete (hs : s.Justified) (tags : s.TagsIndexed)
    (stored : s.manifestRecord repo digest = some record) :
    (s.apply (s.manifestDeleteBatch repo digest record now)).Justified := by
  have gone : (s.apply (s.manifestDeleteBatch repo digest record now)).NoEdgesOf repo digest :=
    noEdgesOf_manifestDelete hs tags stored
  constructor
  · intro b r m h
    obtain ⟨old, -⟩ := manifestDelete_has rfl h
    rw [manifestDelete_manifestRecord]
    by_cases hkey : repo = r ∧ digest = m
    · obtain ⟨rfl, rfl⟩ := hkey
      rw [gone.blobs] at h
      cases h
    · rw [if_neg hkey]
      exact hs.blobs b r m old
  · intro r c p h
    obtain ⟨old, -⟩ := manifestDelete_has rfl h
    rw [manifestDelete_manifestRecord]
    by_cases hkey : repo = r ∧ digest = p
    · obtain ⟨rfl, rfl⟩ := hkey
      rw [gone.children] at h
      cases h
    · rw [if_neg hkey]
      exact hs.children r c p old
  · intro r subject d h
    obtain ⟨old, -⟩ := manifestDelete_referrer_has h
    rw [manifestDelete_manifestRecord]
    by_cases hkey : repo = r ∧ digest = d
    · obtain ⟨rfl, rfl⟩ := hkey
      rw [gone.referrers] at h
      cases h
    · rw [if_neg hkey]
      obtain ⟨record', stored', refers⟩ := hs.referrers r subject d old
      refine ⟨record', stored', refers.imp_right ?_⟩
      rintro ⟨u, hu, hsub⟩
      refine ⟨u, ?_, hsub⟩
      rw [manifestDelete_tagDigest, if_neg]
      · exact hu
      · rintro ⟨rfl, hg⟩
        have := (tags.reverse repo u digest).mpr hg
        exact hkey ⟨rfl, Option.some.inj (this.symm.trans hu)⟩

end ManifestDelete

end Store

end Summ
