import Summ.Lib.Grace
import Summ.Purge.Uploads
import Summ.Registry.Memberships
import Summ.Serial.Planned

/-!
# What is written of a blob, and its mark

`Store.thing` is a blob as its grace period sees it: kept by its memberships, named
by its references. Every batch of the registry that writes of a blob clears its mark
(`Clears`); the steps of a purge pass retract, mark and collect. Each keeps
`Grace.Safe`.
-/

namespace Summ

/-- The batch writes a reference to the blob in that repository. -/
def WriteBatch.Names (batch : WriteBatch) (d : Digest) (r : RepoId) : Prop :=
  ∃ m v, batch.effect (.blobRef d r m) = some (some v)

/-- What writes of a blob clears its mark, and only that does. -/
structure WriteBatch.Clears (batch : WriteBatch) : Prop where
  blob : ∀ d v, batch.effect (.blob d) = some v →
    v.isSome = true ∧ batch.effect (.blobMark d) = some none
  member : ∀ r d v, batch.effect (.repoBlob r d) = some v → batch.effect (.blobMark d) = some none
  refers : ∀ d r, batch.Names d r → batch.effect (.blobMark d) = some none
  mark : ∀ d v, batch.effect (.blobMark d) = some v →
    v = none ∧ ((∃ b, batch.effect (.blob d) = some (some b)) ∨ ∃ r, batch.Names d r)

/-- A batch that deletes references, and writes nothing else of a blob. -/
theorem WriteBatch.clears_of_deletes {batch : WriteBatch}
    (h : ∀ k v, k.aboutBlobs = true → batch.effect k = some v →
      v = none ∧ ∃ d r m, k = .blobRef d r m) : batch.Clears where
  blob d v hv := by
    obtain ⟨-, _, _, _, hk⟩ := h _ v rfl hv
    cases hk
  member r d v hv := by
    obtain ⟨-, _, _, _, hk⟩ := h _ v rfl hv
    cases hk
  refers d r hn := by
    obtain ⟨m, v, hv⟩ := hn
    obtain ⟨absent, -⟩ := h _ _ rfl hv
    cases absent
  mark d v hv := by
    obtain ⟨-, _, _, _, hk⟩ := h _ v rfl hv
    cases hk

namespace Store

variable {s t : Store} {d : Digest}

/-- A blob as its grace period sees it. -/
def thing (s : Store) (d : Digest) : Grace.Thing RepoId where
  held := s.has (.blob d) = true
  mark := (s.blobMark d).map BlobMark.seenAt
  kept r := (s.repoBlobRecord r d).map RepoBlobRecord.addedAt
  named r := ∃ m, s.has (.blobRef d r m) = true

theorem thing_mark (h : t.get (.blobMark d) = s.get (.blobMark d)) :
    (t.thing d).mark = (s.thing d).mark := by
  simp only [thing, blobMark, h]

theorem thing_kept {r : RepoId} (h : t.get (.repoBlob r d) = s.get (.repoBlob r d)) :
    (t.thing d).kept r = (s.thing d).kept r := by
  simp only [thing, repoBlobRecord, h]

theorem thing_held (h : t.get (.blob d) = s.get (.blob d)) :
    (t.thing d).held ↔ (s.thing d).held := by
  simp only [thing, has, h]

/-- It is read at the keys about blobs. -/
theorem thing_congr (same : ∀ k : Key, k.aboutBlobs = true → t.get k = s.get k) :
    t.thing d = s.thing d := by
  have named : (t.thing d).named = (s.thing d).named := by
    funext r
    simp only [thing, has]
    congr 1
    funext m
    rw [same _ rfl]
  have held : (t.thing d).held = (s.thing d).held := propext (thing_held (same _ rfl))
  have kept : (t.thing d).kept = (s.thing d).kept := funext fun r => thing_kept (same _ rfl)
  have mark : (t.thing d).mark = (s.thing d).mark := thing_mark (same _ rfl)
  generalize t.thing d = x at *
  generalize s.thing d = y at *
  cases x
  cases y
  simp_all

theorem thing_unmarked (h : t.get (.blobMark d) = none) : (t.thing d).mark = none := by
  simp only [thing, blobMark, h, Option.map_none]

theorem kept_eq_some {r : RepoId} {a : Nat} :
    (s.thing d).kept r = some a ↔
      ∃ record, s.get (.repoBlob r d) = some (.repoBlob record) ∧ record.addedAt = a := by
  simp only [thing, Option.map_eq_some_iff, repoBlobRecord_eq_some]

theorem mark_eq_some {a : Nat} :
    (s.thing d).mark = some a ↔ ∃ mark, s.blobMark d = some mark ∧ mark.seenAt = a := by
  simp only [thing, Option.map_eq_some_iff]

/-- No reference of the blob stands, in a repository or in any. -/
theorem named_iff {r : RepoId} :
    (s.thing d).named r ↔ s.existsPrefix (.blobRefsInRepo d r) = true := by
  rw [existsPrefix_iff]
  constructor
  · rintro ⟨m, stored⟩
    obtain ⟨v, hv⟩ := Option.isSome_iff_exists.mp stored
    exact ⟨_, v, Scan.covers_blobRefsInRepo.mpr ⟨m, rfl⟩, hv⟩
  · rintro ⟨k, v, hk, hv⟩
    obtain ⟨m, rfl⟩ := Scan.covers_blobRefsInRepo.mp hk
    exact ⟨m, Option.isSome_of_eq_some hv⟩

theorem not_named_of_unreferenced (h : s.existsPrefix (.blobRefs d) = false) (r : RepoId) :
    ¬(s.thing d).named r := by
  rintro ⟨m, stored⟩
  obtain ⟨v, hv⟩ := Option.isSome_iff_exists.mp stored
  have : s.existsPrefix (.blobRefs d) = true :=
    existsPrefix_iff.mpr ⟨_, v, by simp [Scan.covers], hv⟩
  simp [h] at this

end Store

open Grace Store

variable {s : Store} {d : Digest} {k : Terms} {clock : Nat} {plans : RepoId → Nat → Prop}
  {passes : Nat → (RepoId → Prop) → Prop}

/-! ## The batches of the requests -/

/-- A batch that clears marks keeps a blob safe, when what it names was planned in
time. -/
theorem WriteBatch.Clears.safe {batch : WriteBatch} (clears : batch.Clears)
    (safe : Safe k clock (s.thing d) plans passes)
    (inTime : ∀ r, batch.Names d r → ∃ p, plans r p ∧ clock < p + k.gap) :
    Safe k clock ((s.apply batch).thing d) plans passes := by
  cases marked : batch.effect (.blobMark d) with
  | none =>
    have blob : batch.effect (.blob d) = none := by
      cases h : batch.effect (.blob d) with
      | none => rfl
      | some v => simp [(clears.blob d v h).2] at marked
    have member (r : RepoId) : batch.effect (.repoBlob r d) = none := by
      cases h : batch.effect (.repoBlob r d) with
      | none => rfl
      | some v => simp [clears.member r d v h] at marked
    refine safe.unnamed (thing_held (get_apply_of_effect blob)) (thing_mark (get_apply_of_effect marked))
      (fun r => thing_kept (get_apply_of_effect (member r))) ?_
    rintro r ⟨m, stored⟩
    refine ⟨m, ?_⟩
    rw [has_apply] at stored
    cases h : batch.effect (.blobRef d r m) with
    | none => simpa [h] using stored
    | some v =>
      cases v with
      | none => simp [h] at stored
      | some v => simp [clears.refers d r ⟨m, v, h⟩] at marked
  | some v =>
    obtain ⟨rfl, writes⟩ := clears.mark d v marked
    refine safe.unmarked ?_ (thing_unmarked ?_)
    · change (s.apply batch).has (.blob d) = true
      rw [has_apply]
      cases h : batch.effect (.blob d) with
      | some v => exact (clears.blob d v h).1
      | none =>
        cases writes with
        | inl put =>
          obtain ⟨b, hb⟩ := put
          rw [h] at hb
          cases hb
        | inr names =>
          obtain ⟨r, hr⟩ := names
          obtain ⟨p, planned, ends⟩ := inTime r hr
          exact safe.planned r p planned ends
    · rw [get_apply, marked, Option.getD_some]

namespace Store

section Push
variable {repo : RepoId} {c : CheckedPut} {ts : List Tag}

theorem blobOps_held {manifest : Digest} {desc : BlobDesc} {now : Timestamp}
    (held : s.holdsBlob repo desc.digest = true) :
    WriteBatch.effect (s.blobOps repo manifest desc now) (.blob d) = none := by
  have known : (s.blobRecord desc.digest).isNone = false := by
    simp only [holdsBlob, Bool.and_eq_true] at held
    rw [Option.isNone_eq_false_iff]
    exact held.1
  simp only [blobOps, known, Bool.false_eq_true, if_false]
  split <;> simp [MetaOp.effect, MetaOp.set]

theorem blobOps_mark {manifest : Digest} {desc : BlobDesc} {now : Timestamp} :
    WriteBatch.effect (s.blobOps repo manifest desc now) (.blobMark d) =
      if desc.digest = d then some none else none := by
  unfold blobOps
  simp only [WriteBatch.effect_append]
  split <;> split <;> simp [MetaOp.effect, MetaOp.set]

theorem blobOps_member {manifest : Digest} {desc : BlobDesc} {now : Timestamp} {r : RepoId}
    {v : Option Value}
    (h : WriteBatch.effect (s.blobOps repo manifest desc now) (.repoBlob r d) = some v) :
    desc.digest = d := by
  by_contra other
  unfold blobOps at h
  simp only [WriteBatch.effect_append] at h
  split at h <;> split at h <;> simp [MetaOp.effect, MetaOp.set, other] at h

theorem pushBatch_mark :
    WriteBatch.effect (s.pushBatch repo c ts) (.blobMark d) =
      if ∃ desc ∈ s.recorded repo c, desc.digest = d then some none else none := by
  rw [pushBatch_blobs rfl]
  split
  · rename_i h
    obtain ⟨desc, hdesc, rfl⟩ := h
    rw [WriteBatch.effect_flatMap_const]
    · exact ⟨desc, hdesc, by rw [blobOps_mark, if_pos rfl]⟩
    · intro other _
      rw [blobOps_mark]
      split
      · exact Or.inr rfl
      · exact Or.inl rfl
  · rename_i h
    refine WriteBatch.effect_flatMap_none fun desc hdesc => ?_
    rw [blobOps_mark, if_neg fun same => h ⟨desc, hdesc, same⟩]

theorem pushBatch_refers {r : RepoId} :
    (s.pushBatch repo c ts).Names d r ↔ repo = r ∧ ∃ desc ∈ s.recorded repo c, desc.digest = d := by
  unfold WriteBatch.Names
  simp only [pushBatch_blobRef]
  constructor
  · rintro ⟨m, v, hv⟩
    split at hv
    · rename_i h
      exact ⟨h.1, h.2.2⟩
    · cases hv
  · rintro ⟨rfl, recorded⟩
    exact ⟨c.digest, .edge, if_pos ⟨rfl, rfl, recorded⟩⟩

/-- A push names the blobs its repository holds, and clears their marks. -/
theorem clears_pushBatch (held : ∀ desc ∈ s.recorded repo c, s.holdsBlob repo desc.digest = true) :
    WriteBatch.Clears (s.pushBatch repo c ts) where
  blob d v h := by
    rw [pushBatch_blobs rfl, WriteBatch.effect_flatMap_none fun desc hdesc =>
      blobOps_held (held desc hdesc)] at h
    cases h
  member r d v h := by
    rw [pushBatch_mark, if_pos]
    by_contra none_
    rw [pushBatch_blobs rfl, WriteBatch.effect_flatMap_none] at h
    · cases h
    · intro desc hdesc
      cases he : WriteBatch.effect (s.blobOps repo c.digest desc c.put.now) (.repoBlob r d) with
      | none => rfl
      | some v => exact absurd ⟨desc, hdesc, blobOps_member he⟩ none_
  refers d r h := by rw [pushBatch_mark, if_pos (pushBatch_refers.mp h).2]
  mark d v h := by
    rw [pushBatch_mark] at h
    split at h
    · rename_i recorded
      cases h
      exact ⟨rfl, Or.inr ⟨repo, pushBatch_refers.mpr ⟨rfl, recorded⟩⟩⟩
    · cases h

end Push

theorem clears_blobCommit {repo : RepoId} {digest : Digest} {size : Nat} {now : Timestamp} :
    WriteBatch.Clears (s.blobCommitBatch repo digest size now) where
  blob d v h := by
    unfold blobCommitBatch at h ⊢
    by_cases hd : digest = d <;> split at h <;> simp_all [MetaOp.effect]
    all_goals rw [← h, Option.isSome_some]
  member r d v h := by
    unfold blobCommitBatch at h ⊢
    by_cases hd : digest = d <;> split at h <;> simp_all [MetaOp.effect]
  refers d r h := by
    obtain ⟨m, v, hv⟩ := h
    unfold blobCommitBatch at hv
    split at hv <;> simp [MetaOp.effect] at hv
  mark d v h := by
    unfold blobCommitBatch at h ⊢
    by_cases hd : digest = d <;> split at h <;> simp_all [MetaOp.effect]

theorem clears_manifestDelete {repo : RepoId} {digest : Digest} {record : ManifestRecord}
    {now : Timestamp} : WriteBatch.Clears (s.manifestDeleteBatch repo digest record now) := by
  refine WriteBatch.clears_of_deletes fun k v about h => ?_
  have plain : k.aboutTags = false := by cases k <;> first | rfl | cases about
  obtain ⟨gone, own⟩ := manifestDelete_plain plain h
  refine ⟨gone, ?_⟩
  rcases own with rfl | rfl | ⟨blob, -, rfl⟩ | ⟨child, -, rfl⟩ | ⟨covered, -⟩
  · cases about
  · cases about
  · exact ⟨_, _, _, rfl⟩
  · cases about
  · obtain ⟨parent, rfl⟩ := Scan.covers_parentsOf.mp covered
    cases about

theorem clears_of_untouched {batch : WriteBatch}
    (h : ∀ k : Key, k.aboutTags = false → batch.effect k = none) : batch.Clears := by
  refine WriteBatch.clears_of_deletes fun k v about he => ?_
  have plain : k.aboutTags = false := by cases k <;> first | rfl | cases about
  rw [h k plain] at he
  cases he

/-! ## The steps of a pass -/

/-- The memberships there are. -/
def members (s : Store) : List (RepoId × Digest × RepoBlobRecord) :=
  (s.under .repoBlobs none).filterMap fun
    | (.repoBlob repo digest, .repoBlob record) => some (repo, digest, record)
    | _ => none

theorem mem_members {r : RepoId} {record : RepoBlobRecord} :
    (r, d, record) ∈ s.members ↔ s.get (.repoBlob r d) = some (.repoBlob record) := by
  rw [members, List.mem_filterMap]
  constructor
  · rintro ⟨⟨key, v⟩, mem, made⟩
    obtain ⟨-, -, stored⟩ := mem_under.mp mem
    split at made
    · cases made
      simp_all
    · cases made
  · intro stored
    exact ⟨(.repoBlob r d, .repoBlob record),
      mem_under.mpr ⟨rfl, fun c hc => (by cases hc), stored⟩, rfl⟩

theorem retractBatch_mark {stale : List (RepoId × Digest)} {r : RepoId} (h : (r, d) ∈ stale) :
    WriteBatch.effect (retractBatch stale) (.blobMark d) = some none := by
  refine (WriteBatch.effect_flatMap_const fun other _ => ?_).mpr ⟨(r, d), h, by simp [MetaOp.effect]⟩
  by_cases hd : other.2 = d <;> simp [MetaOp.effect, hd]

theorem retractBatch_gone {stale : List (RepoId × Digest)} {r : RepoId} (h : (r, d) ∈ stale) :
    WriteBatch.effect (retractBatch stale) (.repoBlob r d) = some none := by
  refine (WriteBatch.effect_flatMap_const fun other _ => ?_).mpr ⟨(r, d), h, by simp [MetaOp.effect]⟩
  by_cases hd : other.1 = r ∧ other.2 = d <;> simp [MetaOp.effect, hd]

theorem retractBatch_other {stale : List (RepoId × Digest)} {key : Key}
    (blob : ∀ r d, (r, d) ∈ stale → key ≠ .blobMark d) (member : ∀ r d, key ≠ .repoBlob r d) :
    WriteBatch.effect (retractBatch stale) key = none := by
  refine WriteBatch.effect_flatMap_none fun other mem => ?_
  have mark := (blob other.1 other.2 mem).symm
  have kept := (member other.1 other.2).symm
  simp [MetaOp.effect, mark, kept]

section Sweep
variable {cursor : Option Key} {limit : Nat} {addedBefore : Timestamp}

theorem sweep_named {r : RepoId} :
    ((s.sweepRepoBlobs cursor limit addedBefore false).2.thing d).named r ↔ (s.thing d).named r := by
  simp only [sweepRepoBlobs, thing, has]
  constructor
  · rintro ⟨m, h⟩
    exact ⟨m, by rwa [if_neg (by decide), get_apply_of_effect
      (retractBatch_other (fun _ _ _ => by simp) fun _ _ => by simp)] at h⟩
  · rintro ⟨m, h⟩
    exact ⟨m, by rwa [if_neg (by decide), get_apply_of_effect
      (retractBatch_other (fun _ _ _ => by simp) fun _ _ => by simp)]⟩

/-- A sweep step clears the mark of what it retracts. -/
theorem safe_sweepRepoBlobs (safe : Safe k clock (s.thing d) plans passes) :
    Safe k clock ((s.sweepRepoBlobs cursor limit addedBefore false).2.thing d) plans passes := by
  have named (r : RepoId) :
      ((s.sweepRepoBlobs cursor limit addedBefore false).2.thing d).named r → (s.thing d).named r :=
    sweep_named.mp
  simp only [sweepRepoBlobs, Bool.false_eq_true, if_false] at named ⊢
  generalize hstale : s.staleMemberships addedBefore (s.scan .repoBlobs cursor limit).entries = stale
    at named ⊢
  have blob : WriteBatch.effect (retractBatch stale) (.blob d) = none :=
    retractBatch_other (fun _ _ _ => by simp) fun _ _ => by simp
  by_cases retracted : ∃ r, (r, d) ∈ stale
  · obtain ⟨r, hr⟩ := retracted
    obtain ⟨record, mem, -⟩ := mem_staleMemberships (hstale ▸ hr)
    have there := safe.kept r record.addedAt (kept_eq_some.mpr ⟨record, (mem_scan mem).2, rfl⟩)
    refine safe.unmarked ((thing_held (get_apply_of_effect blob)).mpr there) (thing_unmarked ?_)
    rw [get_apply, retractBatch_mark hr, Option.getD_some]
  · have kept (r : RepoId) : (r, d) ∉ stale := fun hr => retracted ⟨r, hr⟩
    refine safe.unnamed (thing_held (get_apply_of_effect blob)) (thing_mark (get_apply_of_effect ?_))
      (fun r => thing_kept (get_apply_of_effect (retractBatch_membership (kept r)))) named
    exact retractBatch_other (fun r d' mem same => kept r (by cases same; exact mem)) fun _ _ => by simp

/-- What is left on a page that has been swept is young, or referenced. -/
theorem kept_of_swept {r : RepoId} {a : Nat}
    (page : .repoBlob r d ∈ (s.scan .repoBlobs cursor limit).entries.map Prod.fst)
    (h : ((s.sweepRepoBlobs cursor limit addedBefore false).2.thing d).kept r = some a) :
    addedBefore.secs < a ∨
      ((s.sweepRepoBlobs cursor limit addedBefore false).2.thing d).named r := by
  rw [sweep_named, named_iff]
  obtain ⟨record, stored, rfl⟩ := kept_eq_some.mp h
  simp only [sweepRepoBlobs, Bool.false_eq_true, if_false] at stored
  obtain ⟨⟨key, v⟩, mem, rfl⟩ := List.mem_map.mp page
  have kept : (r, d) ∉ s.staleMemberships addedBefore (s.scan .repoBlobs cursor limit).entries := by
    intro stale
    rw [get_apply, retractBatch_gone stale] at stored
    cases stored
  rw [get_apply_of_effect (retractBatch_membership kept)] at stored
  obtain rfl : v = .repoBlob record := Option.some.inj ((mem_scan mem).2.symm.trans stored)
  by_contra old
  obtain ⟨old, unreferenced⟩ := not_or.mp old
  exact kept (List.mem_filterMap.mpr ⟨_, mem, by simp [old, unreferenced]⟩)

end Sweep

section Scan
variable {cursor : Option Key} {limit : Nat} {seenBefore now : Timestamp}

theorem mem_blobVerdicts {entries : List (Key × Value)} {record : BlobRecord} {v : BlobVerdict} :
    (d, record, v) ∈ s.blobVerdicts seenBefore entries ↔
      (.blob d, .blob record) ∈ entries ∧ v = s.blobVerdict seenBefore d := by
  rw [blobVerdicts, List.mem_filterMap]
  constructor
  · rintro ⟨⟨key, value⟩, mem, made⟩
    split at made
    · cases made
      simp_all
    · cases made
  · rintro ⟨mem, rfl⟩
    exact ⟨_, mem, rfl⟩

/-- What a scan step writes at a mark. -/
theorem markBatch_mark {verdicts : List (Digest × BlobRecord × BlobVerdict)} {v : Option Value}
    (h : WriteBatch.effect (markBatch now verdicts) (.blobMark d) = some v) :
    (∃ record, (d, record, .referenced true) ∈ verdicts ∧ v = none) ∨
      ∃ record, (d, record, .unmarked) ∈ verdicts ∧ v = some (.mark { seenAt := now.secs }) := by
  obtain ⟨op, mem, wrote⟩ := WriteBatch.exists_of_effect h
  obtain ⟨⟨digest, record, verdict⟩, hv, hop⟩ := List.mem_flatMap.mp mem
  split at hop
  · rename_i same
    cases same
    obtain rfl := List.mem_singleton.mp hop
    simp only [MetaOp.effect, Key.blobMark.injEq] at wrote
    split at wrote
    · rename_i hd
      cases hd
      cases wrote
      exact Or.inl ⟨_, hv, rfl⟩
    · cases wrote
  · rename_i same
    cases same
    obtain rfl := List.mem_singleton.mp hop
    simp only [MetaOp.effect, Key.blobMark.injEq] at wrote
    split at wrote
    · rename_i hd
      cases hd
      cases wrote
      exact Or.inr ⟨_, hv, rfl⟩
    · cases wrote
  · cases hop

/-- A scan step clears the marks of what is referenced, and marks, in time, what is
not and is kept only since before its pass. -/
theorem safe_scanBlobs (safe : Safe k clock (s.thing d) plans passes)
    (inTime : clock ≤ now.secs + k.delay)
    (older : ∀ record, (d, record, .unmarked) ∈
        s.blobVerdicts seenBefore (s.scan .blobs cursor limit).entries →
      ∀ r a, (s.thing d).kept r = some a → a ≤ now.secs) :
    Safe k clock ((s.scanBlobs cursor limit seenBefore now false).2.thing d) plans passes := by
  simp only [scanBlobs, Bool.false_eq_true, if_false]
  generalize hv : s.blobVerdicts seenBefore (s.scan .blobs cursor limit).entries = verdicts at older ⊢
  have same {key : Key} (h : ∀ d, key ≠ .blobMark d) :
      (s.apply (markBatch now verdicts)).get key = s.get key :=
    get_apply_of_effect (markBatch_other h)
  have held : ((s.apply (markBatch now verdicts)).thing d).held ↔ (s.thing d).held :=
    thing_held (same fun _ => by simp)
  have kept (r : RepoId) : ((s.apply (markBatch now verdicts)).thing d).kept r = (s.thing d).kept r :=
    thing_kept (same fun _ => by simp)
  have named (r : RepoId) (h : ((s.apply (markBatch now verdicts)).thing d).named r) :
      (s.thing d).named r := by
    obtain ⟨m, stored⟩ := h
    exact ⟨m, by rwa [has, same fun _ => by simp] at stored⟩
  cases marked : WriteBatch.effect (markBatch now verdicts) (.blobMark d) with
  | none => exact safe.unnamed held (thing_mark (get_apply_of_effect marked)) kept named
  | some v =>
    cases markBatch_mark marked with
    | inl cleared =>
      obtain ⟨record, mem, rfl⟩ := cleared
      have stored := (mem_scan (mem_blobVerdicts.mp (hv ▸ mem)).1).2
      refine safe.unmarked (held.mpr (Option.isSome_of_eq_some stored)) (thing_unmarked ?_)
      rw [get_apply, marked, Option.getD_some]
    | inr put =>
      obtain ⟨record, mem, rfl⟩ := put
      have verdict := (mem_blobVerdicts.mp (hv ▸ mem)).2
      have unreferenced : s.existsPrefix (.blobRefs d) = false := by
        by_contra referenced
        rw [blobVerdict, if_pos (by simpa using referenced)] at verdict
        cases verdict
      refine safe.marked inTime (not_named_of_unreferenced unreferenced) (older record mem) held ?_
        kept named
      rw [mark_eq_some]
      refine ⟨{ seenAt := now.secs }, ?_, rfl⟩
      rw [blobMark_eq_some, get_apply, marked, Option.getD_some]

end Scan

/-- A pass that has swept every membership collects what was marked a grace period
before it started. -/
theorem safe_collectBlob (safe : Safe k clock (s.thing d) plans passes) {T : Nat}
    {seen : RepoId → Prop} (pass : passes T seen) (all : ∀ r, seen r) {seenBefore : Timestamp}
    (cutoff : seenBefore.secs + k.grace = T) (digest : Digest) :
    Safe k clock ((s.collectBlob digest seenBefore).2.thing d) plans passes := by
  unfold collectBlob
  split
  · rename_i record mark _ stored
    split
    · exact safe
    · rename_i old
      split
      · exact safe
      · rename_i unreferenced
        have same {key : Key} (blob : key ≠ .blob digest) (mark : key ≠ .blobMark digest) :
            (s.apply [.delete (.blob digest), .delete (.blobMark digest)]).get key = s.get key :=
          get_apply_of_effect (by simp [MetaOp.effect, blob.symm, mark.symm])
        have kept (r : RepoId) :
            ((s.apply [.delete (.blob digest), .delete (.blobMark digest)]).thing d).kept r =
              (s.thing d).kept r := thing_kept (same (by simp) (by simp))
        have named (r : RepoId)
            (h : ((s.apply [.delete (.blob digest), .delete (.blobMark digest)]).thing d).named r) :
            (s.thing d).named r := by
          obtain ⟨m, stored⟩ := h
          exact ⟨m, by rwa [has, same (by simp) (by simp)] at stored⟩
        by_cases hd : digest = d
        · subst hd
          refine safe.taken (S := mark.seenAt) pass all (mark_eq_some.mpr ⟨mark, stored, rfl⟩)
            (by omega) (thing_unmarked ?_) kept named
          rw [get_apply]
          simp [MetaOp.effect]
        · refine safe.unnamed (thing_held (same ?_ (by simp))) (thing_mark (same (by simp) ?_)) kept
            named
          · rintro h
            cases h
            exact hd rfl
          · rintro h
            cases h
            exact hd rfl
  · exact safe

end Store

end Summ
