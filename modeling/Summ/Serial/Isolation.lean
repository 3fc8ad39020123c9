import Summ.Serial.Answers

/-!
# Repositories are isolated

Calls about one name change no key of another name's repository (`Effect.frame`).
Of the registry-wide records of blobs they change none that is there; a commit
puts one back that a purge took while the other repository was still a member.
-/

namespace Summ

/-- A call addressed to the name, a step of a sweep, or a restart. -/
def Call.concerns (name : Text) : Call → Bool
  | startSweep _ | sweepPage _ | finishSweep _ | restart _ => true
  | c => decide (c.repo = some name)

section
variable {oci : Oci} {options : RegistryOptions} {s t : Store} {c : Call} {accepted : Bool}
  {x y : Text}

theorem Call.repo_of_concerns (h : c.concerns x = true) : c.repo = some x ∨ c.repo = none := by
  cases c with
  | startSweep _ | sweepPage _ | finishSweep _ | restart _ => exact Or.inr rfl
  | operation _ | deleteBlobReference _ _ | mountBlob _ _ _ _ | deleteRepository _ _
  | addPullCounts _ => exact Or.inl (of_decide_eq_true h)

/-- Only a call that is addressed to a name maps it or unmaps it. -/
theorem Effect.other_name (h : Effect oci options s c accepted t) (other : c.repo ≠ some y) :
    t.repoByName y = s.repoByName y := by
  rcases h.names with names | ⟨name, id, u, named, interned, names⟩ | ⟨name, id, named, mapped, un, -⟩
  · exact names.repoByName y
  · rw [names.repoByName]
    cases interned with
    | known stored => rfl
    | new absent room next =>
      rw [Store.internBatch_repoByName, if_neg]
      rintro rfl
      exact other named
  · rw [un.repoByName, if_neg]
    rintro rfl
    exact other named

/-- A call about another name leaves a live repository's keys as they are. -/
theorem Effect.sameIn (h : Effect oci options s c accepted t) (named : s.Named) (named' : t.Named)
    (different : x ≠ y) (concerns : c.concerns x = true) {id : RepoId}
    (live : s.repoByName y = some id) : s.SameIn t id := by
  have other : c.repo ≠ some y := by
    rcases Call.repo_of_concerns concerns with h | h <;> rw [h] <;> simp [different]
  intro k hk
  cases h.frame hk with
  | same kept => exact kept
  | @addressed name to_ live' =>
    have mapped := (h.other_name other).trans live
    have same : name = y := by
      have := ((named'.inverse name id).mp live').symm.trans ((named'.inverse y id).mp mapped)
      exact Option.some.inj this
    exact absurd (same ▸ to_) other
  | counted counts _ =>
    cases c with
    | addPullCounts deltas => exact absurd concerns (by simp [Call.concerns, Call.repo])
    | _ => cases counts
  | swept gone _ => cases gone.symm.trans ((named.inverse y id).mp live)
  | retracted retracts _ =>
    cases c with
    | operation op =>
      cases op with
      | sweepRepoBlobs cursor limit addedBefore =>
        exact absurd concerns (by simp [Call.concerns, Call.repo, Operation.repo])
      | _ => cases retracts
    | _ => cases retracts

/-! ## Records of blobs -/

/-- The record of a blob that a push lists stays as it is. -/
theorem Store.pushBatch_blob {id : RepoId} {checked : CheckedPut} {ts : List Tag}
    (held : ∀ desc ∈ checked.parsed.blobs,
      desc.foreign = true ∨ s.holdsBlob id desc.digest = true) (d : Digest) :
    WriteBatch.effect (s.pushBatch id checked ts) (.blob d) = none := by
  rw [pushBatch_blobs rfl]
  apply WriteBatch.effect_flatMap_none
  intro desc hdesc
  obtain ⟨listed, recorded⟩ := List.mem_filter.mp hdesc
  have holds : s.holdsBlob id desc.digest = true := by
    rcases held desc listed with foreign | holds
    · simpa [foreign] using recorded
    · exact holds
  obtain ⟨record, stored⟩ := Option.isSome_iff_exists.mp (Bool.and_eq_true_iff.mp holds).1
  simp only [blobOps, stored, Option.isNone_some, Bool.false_eq_true, if_false, List.nil_append]
  rw [WriteBatch.effect_eq_none]
  intro op hop
  rcases List.mem_append.mp hop with hop | hop
  · split at hop
    · cases hop
    · rw [List.mem_singleton.mp hop]
      rfl
  · simp only [List.mem_cons, List.not_mem_nil, or_false] at hop
    rcases hop with rfl | rfl <;> rfl

theorem Store.manifestDelete_blob {repo : RepoId} {digest : Digest} {record : ManifestRecord}
    {now : Timestamp} (d : Digest) :
    WriteBatch.effect (s.manifestDeleteBatch repo digest record now) (.blob d) = none := by
  cases he : WriteBatch.effect (s.manifestDeleteBatch repo digest record now) (.blob d) with
  | none => rfl
  | some v =>
    obtain ⟨-, hk⟩ := manifestDelete_plain rfl he
    simp [Scan.covers] at hk

/-- What a call does to the record of a blob: collect it, or commit it. -/
theorem Effect.blob (h : Effect oci options s c accepted t)
    (validates : options.validateReferences = true) (d : Digest) :
    t.get (.blob d) = s.get (.blob d) ∨
      (∃ seen, c = .operation (.collectBlob d seen) ∧ t.get (.blob d) = none) ∨
      ∃ repo size now, c = .operation (.commitBlob repo d size now) ∧
        t.get (.blob d) = some (.blob { size }) := by
  have same {batch : WriteBatch} (untouched : WriteBatch.effect batch (.blob d) = none) :
      (s.apply batch).get (.blob d) = s.get (.blob d) := Store.get_apply_of_effect untouched
  have committed (u : Store) (id : RepoId) (digest : Digest) (size : Nat) (now : Timestamp) :
      (u.apply (u.blobCommitBatch id digest size now)).get (.blob d) =
        if digest = d then some (.blob { size }) else u.get (.blob d) := by
    rw [Store.get_apply, Store.blobCommitBatch_blob]
    split <;> rfl
  cases h with
  | putManifest checked interned held tags =>
    refine Or.inl ((Store.get_apply_of_effect (Store.pushBatch_blob (held validates) d)).trans ?_)
    exact interned.kept rfl
  | setTag live record => exact Or.inl (same (setTagOps_other rfl))
  | deleteTag live points => exact Or.inl (same (deleteTagOps_other rfl))
  | deleteManifest live stored => exact Or.inl (same (Store.manifestDelete_blob d))
  | purgeManifest live stored => exact Or.inl (same (Store.manifestDelete_blob d))
  | sweepRepoBlobs =>
    refine Or.inl (same (WriteBatch.effect_flatMap_none ?_))
    rintro ⟨repo, digest⟩ -
    rfl
  | scanBlobs => exact Or.inl (same (Store.markBatch_other (by simp)))
  | @collectBlob digest seen unreferenced =>
    by_cases hd : digest = d
    · refine Or.inr (Or.inl ⟨seen, by rw [hd], ?_⟩)
      simp [Store.get_apply, MetaOp.effect, hd]
    · exact Or.inl (same (by simp [MetaOp.effect, hd]))
  | retireRepo mapped empty => exact Or.inl (same rfl)
  | @commitBlob repo digest size now id s₀ interned =>
    by_cases hd : digest = d
    · exact Or.inr (Or.inr ⟨repo, size, now, by rw [hd], by rw [committed, if_pos hd]⟩)
    · refine Or.inl ?_
      rw [committed, if_neg hd, interned.kept rfl]
  | @deleteBlobReference repo digest id live =>
    refine Or.inl (same ?_)
    rw [Store.blobReferenceDeleteBatch_effect, if_neg]
    rintro (hm | hdrain | ⟨-, hp⟩)
    · cases hm
    · obtain ⟨m, hm⟩ := Scan.covers_blobRefsInRepo.mp ((Store.mem_drain rfl (by simp)).mp hdrain).1
      cases hm
    · cases hp
  | @mountBlob repo digest from_ now id s₀ record stored interned =>
    refine Or.inl ?_
    rw [committed, interned.kept rfl]
    split
    · rename_i hd
      subst hd
      exact (Store.blobRecord_eq_some.mp stored).symm
    · rfl
  | deleteRepository mapped => exact Or.inl (same rfl)
  | @addPullCounts deltas batch puts =>
    refine Or.inl (same (WriteBatch.effect_eq_none.mpr fun op hop => ?_))
    obtain ⟨g, id, bucket, -, rfl⟩ := puts op hop
    refine if_neg fun hkey => ?_
    unfold CountGroup.key at hkey
    split at hkey <;> cases hkey
  | sweepPage dead => exact Or.inl (same (Store.sweepRefsBatch_other (by simp)))
  | finishSweep dead => exact Or.inl (same (by rw [sweepFinishBatch_effect]; rfl))
  | startSweep => exact Or.inl rfl
  | restart => exact Or.inl rfl
  | refused kept =>
    rcases kept with rfl | ⟨name, id, -, interned⟩
    · exact Or.inl rfl
    · exact Or.inl (interned.kept rfl)

end

/-! ## Whole runs -/

/-- A commit of the blob to the name. -/
def Call.Commits (name : Text) (d : Digest) (n : Nat) (c : Call) : Prop :=
  ∃ now, c = .operation (.commitBlob name d n now)

/-- Every commit among the calls gives the blob the size its digest has. -/
def Sized (size : Digest → Nat) (calls : List Call) : Prop :=
  ∀ c ∈ calls, ∀ name d n, c.Commits name d n → n = size d

/-- Every record of a blob has the size its digest has. -/
def Store.Sized (size : Digest → Nat) (s : Store) : Prop :=
  ∀ d record, s.get (.blob d) = some (.blob record) → record.size = size d

section
variable {oci : Oci} {options : RegistryOptions} {size : Digest → Nat} {calls : List Call}
  {sys : System} {entries : Nat}

theorem sized_of_run (validates : options.validateReferences = true) (sized : Sized size calls)
    (run : Transition.exec (System.step oci) (.start options entries) calls = some sys) :
    sys.Coherent ∧ sys.registry.options = options ∧ sys.store.Sized size := by
  refine System.run_invariant_of (I := fun sys => sys.store.Sized size)
    (P := fun c => ∀ name d n, c.Commits name d n → n = size d) ?_ ?_ sized run
  · intro d record h
    cases h
  · intro sys c sys' coherent opts hc inv hstep d record h
    obtain ⟨accepted, hcall⟩ := System.call_of_step hstep
    have effect := (System.effect_of_call coherent hcall).effect
    rw [opts] at effect
    rcases effect.blob validates d with same | ⟨seen, -, gone⟩ | ⟨repo, n, now, rfl, put⟩
    · exact inv d record (same.symm.trans h)
    · cases gone.symm.trans h
    · cases put.symm.trans h
      exact hc repo d n ⟨now, rfl⟩

/-- A repository that may serve a blob without a record lost it to a purge. -/
theorem collected_of_run (validates : options.validateReferences = true)
    (run : Transition.exec (System.step oci) (.start options entries) calls = some sys)
    {id : RepoId} {d : Digest} {k : Key} (serves : k.serves id d) (has : sys.store.has k = true)
    (missing : sys.store.has (.blob d) = false) :
    ∃ seen, .operation (.collectBlob d seen) ∈ calls := by
  by_contra never
  have recorded := (System.run_invariant_of
    (I := fun sys => ∀ id (k : Key), k.serves id d → sys.store.has k = true →
      sys.store.has (.blob d) = true)
    (P := fun c => ∀ seen, c ≠ .operation (.collectBlob d seen)) ?_ ?_ ?_ run).2.2 id k serves has
  · cases recorded.symm.trans missing
  · intro id k _ h
    cases h
  · intro sys c sys' coherent opts hc inv hstep id k serves has
    obtain ⟨accepted, hcall⟩ := System.call_of_step hstep
    have effect := (System.effect_of_call coherent hcall).effect
    rw [opts] at effect
    rcases effect.serves validates serves has with ⟨k', serves', old⟩ | ⟨-, -, put, -⟩
    · have record := inv id k' serves' old
      change sys'.registry.store.has (.blob d) = true
      rcases effect.blob validates d with same | ⟨seen, collects, -⟩ | ⟨repo, n, now, -, put⟩
      · rw [Store.has, same]
        exact record
      · exact absurd collects (hc seen)
      · rw [Store.has, put]
        rfl
    · exact put
  · rintro c hc seen rfl
    exact never ⟨seen, hc⟩

end

/-- What calls about another name leave of what a repository's answers are read
from. -/
structure Beside (sys : System) (x y : Text) (later : List Call) (sys' : System) : Prop where
  mapped : sys'.store.repoByName y = sys.store.repoByName y
  same : ∀ id, sys.store.repoByName y = some id → sys.store.SameIn sys'.store id
  blobs : ∀ d, sys'.store.get (.blob d) = sys.store.get (.blob d) ∨
    ∃ n, (∃ c ∈ later, c.Commits x d n) ∧ sys'.store.get (.blob d) = some (.blob { size := n })

theorem beside_of_run {oci : Oci} {options : RegistryOptions} {x y : Text} {later : List Call}
    {sys sys' : System} (coherent : sys.Coherent) (opts : sys.registry.options = options)
    (validates : options.validateReferences = true) (different : x ≠ y)
    (concerning : ∀ c ∈ later, c.concerns x = true)
    (run : Transition.exec (System.step oci) sys later = some sys') :
    sys'.Coherent ∧ Beside sys x y later sys' := by
  have main : sys'.Coherent ∧ sys'.registry.options = options ∧ Beside sys x y later sys' := by
    refine Transition.exec_invariant
      (I := fun t => t.Coherent ∧ t.registry.options = options ∧ Beside sys x y later t) ?_ ?_
      (Transition.meets_and_mem (P := fun c => c ∈ later) (fun _ h => h)
        (Transition.meets_true sys later)) run
    · rintro t c u ⟨coherent, opts, beside⟩ ⟨-, hc⟩ hstep
      obtain ⟨accepted, hcall⟩ := System.call_of_step hstep
      have coherent' := System.coherent_of_call coherent hcall
      have effect := (System.effect_of_call coherent hcall).effect
      rw [opts] at effect
      have concerns := concerning c hc
      have other : c.repo ≠ some y := by
        rcases Call.repo_of_concerns concerns with h | h <;> rw [h] <;> simp [different]
      refine ⟨coherent', (System.options_step coherent hstep).trans opts, ?_, ?_, ?_⟩
      · exact (effect.other_name other).trans beside.mapped
      · intro id live k hk
        have live' := beside.mapped.trans live
        exact (effect.sameIn coherent.named coherent'.named different concerns live' k hk).trans
          (beside.same id live k hk)
      · intro d
        change u.registry.store.get (.blob d) = _ ∨ ∃ n, _ ∧ u.registry.store.get (.blob d) = _
        rcases effect.blob validates d with same | ⟨seen, rfl, -⟩ | ⟨repo, n, now, rfl, put⟩
        · rw [same]
          exact beside.blobs d
        · exact absurd concerns (by simp [Call.concerns, Call.repo, Operation.repo])
        · obtain rfl : repo = x := by simpa [Call.concerns, Call.repo, Operation.repo] using concerns
          exact Or.inr ⟨n, ⟨_, hc, now, rfl⟩, put⟩
    · exact ⟨coherent, opts, rfl, fun _ _ _ _ => rfl, fun d => Or.inl rfl⟩
  exact ⟨main.1, main.2.2⟩

/-- Whether and with what size a blob is readable is read from what serves it, and
from the record of the blob. -/
theorem Registry.servableBlob_fst {r : Registry} (cached : r.Cached) (name : Text) (d : Digest) :
    (r.servableBlob name d).1 =
      if (r.blobIsServable name d).1 = true then r.store.blobRecord d else none := by
  rw [Registry.servableBlob, Registry.blobIsServable, Registry.readOr_fst cached,
    Registry.readOr_fst cached]
  cases r.store.repoByName name <;> rfl

theorem Registry.blobIsServable_iff {r : Registry} (cached : r.Cached) (name : Text) (d : Digest) :
    (r.blobIsServable name d).1 = true ↔
      ∃ id, r.store.repoByName name = some id ∧ ∃ k : Key, k.serves id d ∧ r.store.has k = true := by
  rw [Registry.blobIsServable, Registry.readOr_fst cached]
  cases r.store.repoByName name with
  | none => simp
  | some id => simpa using Store.blobIsServableId_iff

/-- Calls about one name leave every answer about another, but for a blob that the
other may serve and whose record a purge took: a commit brings it back. -/
theorem isolated (oci : Oci) (options : RegistryOptions) (entries : Nat) (size : Digest → Nat)
    (calls later : List Call) (sys sys' : System) (x y : Text)
    (validates : options.validateReferences = true) (different : x ≠ y)
    (run : Transition.exec (System.step oci) (.start options entries) calls = some sys)
    (concerning : ∀ c ∈ later, c.concerns x = true)
    (run' : Transition.exec (System.step oci) sys later = some sys')
    (sized : Sized size (calls ++ later)) :
    sys.registry.SameAnswers sys'.registry y ∧
      ∀ d, (sys'.registry.servableBlob y d).1 = (sys.registry.servableBlob y d).1 ∨
        ((sys.registry.blobIsServable y d).1 = true ∧ sys.store.blobRecord d = none ∧
          (∃ seen, .operation (.collectBlob d seen) ∈ calls) ∧
          (∃ c ∈ later, ∃ n, c.Commits x d n) ∧
          (sys'.registry.servableBlob y d).1 = some { size := size d }) := by
  obtain ⟨coherent, opts, records⟩ :=
    sized_of_run validates (fun c hc => sized c (List.mem_append_left _ hc)) run
  obtain ⟨coherent', beside⟩ := beside_of_run coherent opts validates different concerning run'
  have same := Registry.sameAnswers coherent.cached coherent'.cached beside.mapped beside.same
  refine ⟨same, fun d => ?_⟩
  rw [Registry.servableBlob_fst coherent.cached, Registry.servableBlob_fst coherent'.cached,
    same.blobIsServable]
  cases servable : (sys.registry.blobIsServable y d).1 with
  | false => exact Or.inl rfl
  | true =>
    rw [if_pos rfl, if_pos rfl]
    rcases beside.blobs d with kept | ⟨n, ⟨c, hc, commits⟩, put⟩
    · left
      change sys'.store.blobRecord d = sys.store.blobRecord d
      rw [Store.blobRecord, kept, Store.blobRecord]
    have hn : n = size d := sized c (List.mem_append_right _ hc) x d n commits
    have read : sys'.store.blobRecord d = some { size := size d } := by
      rw [Store.blobRecord_eq_some, put, hn]
    cases known : sys.store.blobRecord d with
    | some record =>
      left
      have hsize := records d record (Store.blobRecord_eq_some.mp known)
      exact read.trans ((congrArg _ (congrArg _ hsize.symm)).trans known.symm)
    | none =>
      right
      obtain ⟨id, -, k, serves, has⟩ := (Registry.blobIsServable_iff coherent.cached y d).mp servable
      have missing := Store.blobRecord_eq_none.mp known
      exact ⟨rfl, rfl, collected_of_run validates run serves has missing, ⟨c, hc, n, commits⟩, read⟩

/-- A purge that started before a commit marks the blob late; the next one, a
grace period on, keeps the young membership and collects the record. -/
def reclaimedUnderMember : List Call :=
  [.operation (.commitBlob "lib".toList emptyConfig 2 (.fromSecs 105)),
    .operation (.scanBlobs none 500 (.fromSecs 90) (.fromSecs 100)),
    .operation (.sweepRepoBlobs none 500 (.fromSecs 100)),
    .operation (.scanBlobs none 500 (.fromSecs 100) (.fromSecs 110)),
    .operation (.collectBlob emptyConfig (.fromSecs 100))]

def recommitted : List Call :=
  [.operation (.commitBlob "app".toList emptyConfig 2 (.fromSecs 120))]

theorem sized_recommitted : Sized (fun _ => 2) (reclaimedUnderMember ++ recommitted) := by
  rintro c hc name d n ⟨now, rfl⟩
  simp only [reclaimedUnderMember, recommitted, List.cons_append, List.nil_append,
    List.mem_cons, List.not_mem_nil, or_false, reduceCtorEq, Call.operation.injEq,
    Operation.commitBlob.injEq, false_or] at hc
  rcases hc with ⟨-, -, rfl, -⟩ | ⟨-, -, rfl, -⟩ <;> rfl

/-- The other name's commit makes the blob readable again under the name that may
serve it. -/
theorem isolated_recommitted : ∃ sys sys',
    Transition.exec (System.step imageOci) (.start {} 1) reclaimedUnderMember = some sys ∧
      Transition.exec (System.step imageOci) sys recommitted = some sys' ∧
      sys.registry.SameAnswers sys'.registry "lib".toList ∧
      ∀ d, (sys'.registry.servableBlob "lib".toList d).1 =
          (sys.registry.servableBlob "lib".toList d).1 ∨
        ((sys.registry.blobIsServable "lib".toList d).1 = true ∧ sys.store.blobRecord d = none ∧
          (∃ seen, .operation (.collectBlob d seen) ∈ reclaimedUnderMember) ∧
          (∃ c ∈ recommitted, ∃ n, c.Commits "app".toList d n) ∧
          (sys'.registry.servableBlob "lib".toList d).1 = some { size := 2 }) := by
  have runs : (Transition.exec (System.step imageOci) (.start {} 1) reclaimedUnderMember).isSome ∧
      ((Transition.exec (System.step imageOci) (.start {} 1) reclaimedUnderMember).bind
        (Transition.exec (System.step imageOci) · recommitted)).isSome := by decide +kernel
  obtain ⟨sys, run⟩ := Option.isSome_iff_exists.mp runs.1
  rw [run] at runs
  obtain ⟨sys', run'⟩ := Option.isSome_iff_exists.mp runs.2
  refine ⟨sys, sys', run, run', isolated imageOci {} 1 (fun _ => 2) reclaimedUnderMember recommitted
    sys sys' "app".toList "lib".toList rfl (by decide) run (by decide) run'
    sized_recommitted⟩

/-- A commit to one name changes whether a blob is readable under another. -/
theorem servable_changes_under_other_commit : ¬∀ (oci : Oci) (options : RegistryOptions)
    (entries : Nat) (size : Digest → Nat) (calls later : List Call) (sys sys' : System)
    (x y : Text), options.validateReferences = true → x ≠ y →
    Transition.exec (System.step oci) (.start options entries) calls = some sys →
    (∀ c ∈ later, c.concerns x = true) →
    Transition.exec (System.step oci) sys later = some sys' →
    Sized size (calls ++ later) →
    sys.registry.SameAnswers sys'.registry y ∧
      ∀ d, (sys'.registry.servableBlob y d).1 = (sys.registry.servableBlob y d).1 := by
  intro untouched
  have facts : (Transition.exec (System.step imageOci) (.start {} 1) reclaimedUnderMember).map
        (fun sys => (sys.registry.servableBlob "lib".toList emptyConfig).1) = some none ∧
      ((Transition.exec (System.step imageOci) (.start {} 1) reclaimedUnderMember).bind
        (Transition.exec (System.step imageOci) · recommitted)).map
        (fun sys => (sys.registry.servableBlob "lib".toList emptyConfig).1) =
          some (some { size := 2 }) := by decide +kernel
  obtain ⟨sys, run, before⟩ := Option.map_eq_some_iff.mp facts.1
  rw [run] at facts
  obtain ⟨sys', run', after⟩ := Option.map_eq_some_iff.mp facts.2
  obtain ⟨-, same⟩ := untouched imageOci {} 1 (fun _ => 2) reclaimedUnderMember recommitted
    sys sys' "app".toList "lib".toList rfl (by decide) run (by decide) run' sized_recommitted
  have kept := same emptyConfig
  rw [before, after] at kept
  cases kept

end Summ
