import Summ.Serial.Edits

/-!
# What a repository serves it was given

A blob is servable where a membership or a reference of the repository says so.
With references checked, a call writes such a key for a blob that had none only
when it commits the blob there or mounts it (`Effect.serves`); so behind every
servable blob stands the call that gave it, with no deletion of the blob since
(`Given`).
-/

namespace Summ

/-- A key that lets the repository serve the blob. -/
def Key.serves (id : RepoId) (d : Digest) (k : Key) : Prop :=
  k = .repoBlob id d ∨ ∃ m, k = .blobRef d id m

/-- The blob a call gives the repository it is addressed to. -/
def Call.gives : Call → Option Digest
  | operation (.commitBlob _ digest _ _) => some digest
  | mountBlob _ digest _ _ => some digest
  | _ => none

section Keys
variable {id : RepoId} {d : Digest} {k : Key}

theorem Key.repo_of_serves (h : k.serves id d) : k.repo = some id := by
  rcases h with rfl | ⟨m, rfl⟩ <;> rfl

theorem Key.plain_of_serves (h : k.serves id d) : k.aboutTags = false := by
  rcases h with rfl | ⟨m, rfl⟩ <;> rfl

theorem Scan.covers_repoBlob : (repoBlob id d).covers k = true ↔ k = .repoBlob id d := by
  constructor
  · intro h
    cases k with
    | repoBlob r d' =>
      obtain ⟨rfl, rfl⟩ : id = r ∧ d = d' := by simpa [covers] using h
      rfl
    | _ => cases h
  · rintro rfl
    simp [covers]

theorem Store.existsPrefix_repoBlob {s : Store} :
    s.existsPrefix (.repoBlob id d) = s.has (.repoBlob id d) := by
  rw [Bool.eq_iff_iff, existsPrefix_iff, has, Option.isSome_iff_exists]
  simp [Scan.covers_repoBlob]

/-- A blob is servable where a key says so. -/
theorem Store.blobIsServableId_iff {s : Store} :
    s.blobIsServableId id d = true ↔ ∃ k : Key, k.serves id d ∧ s.has k = true := by
  rw [blobIsServableId, Bool.or_eq_true, existsPrefix_repoBlob, existsPrefix_iff]
  constructor
  · rintro (⟨k, v, hk, hv⟩ | h)
    · exact ⟨k, Or.inr (Scan.covers_blobRefsInRepo.mp hk), by simp [has, hv]⟩
    · exact ⟨_, Or.inl rfl, h⟩
  · rintro ⟨k, rfl | ⟨m, rfl⟩, h⟩
    · exact Or.inr h
    · obtain ⟨v, hv⟩ := Option.isSome_iff_exists.mp h
      exact Or.inl ⟨_, v, Scan.covers_blobRefsInRepo.mpr ⟨m, rfl⟩, hv⟩

end Keys

/-! ## What a call writes for a blob -/

namespace Store

variable {s t : Store}

theorem blobCommitBatch_serves {repo id : RepoId} {digest d : Digest} {size : Nat}
    {now : Timestamp} {k : Key} (serves : k.serves id d)
    (h : (s.apply (s.blobCommitBatch repo digest size now)).has k = true) :
    s.has k = true ∨ repo = id ∧ digest = d := by
  by_cases hkey : repo = id ∧ digest = d
  · exact Or.inr hkey
  · refine Or.inl ?_
    rwa [has_apply_of_effect] at h
    rcases serves with rfl | ⟨m, rfl⟩
    · unfold blobCommitBatch
      split <;> simp [MetaOp.effect, hkey]
    · unfold blobCommitBatch
      split <;> rfl

theorem blobCommitBatch_blob {repo : RepoId} {digest : Digest} {size : Nat} {now : Timestamp}
    (d : Digest) : WriteBatch.effect (s.blobCommitBatch repo digest size now) (.blob d) =
      if digest = d then some (some (.blob { size })) else none := by
  unfold blobCommitBatch
  split <;> simp [MetaOp.effect]

/-- A push writes keys only for blobs that the repository holds. -/
theorem pushBatch_serves {repo id : RepoId} {c : CheckedPut} {ts : List Tag} {d : Digest} {k : Key}
    (serves : k.serves id d)
    (held : ∀ desc ∈ c.parsed.blobs, desc.foreign = true ∨ s.holdsBlob repo desc.digest = true)
    (h : (s.apply (s.pushBatch repo c ts)).has k = true) :
    ∃ k' : Key, k'.serves id d ∧ s.has k' = true := by
  rw [has_apply] at h
  cases he : WriteBatch.effect (s.pushBatch repo c ts) k with
  | none => exact ⟨k, serves, by simpa [he] using h⟩
  | some v =>
    have blobs : k.aboutBlobs = true := by rcases serves with rfl | ⟨m, rfl⟩ <;> rfl
    rw [pushBatch_blobs blobs] at he
    obtain ⟨desc, hdesc, hwrote⟩ := WriteBatch.effect_flatMap_some he
    obtain ⟨listed, recorded⟩ := List.mem_filter.mp hdesc
    have holds : s.holdsBlob repo desc.digest = true := by
      rcases held desc listed with foreign | holds
      · simpa [foreign] using recorded
      · exact holds
    have servable : s.blobIsServableId repo desc.digest = true :=
      (Bool.and_eq_true_iff.mp holds).2
    have own : repo = id ∧ desc.digest = d := by
      obtain ⟨op, hop, hv⟩ := WriteBatch.exists_of_effect hwrote
      simp only [blobOps, List.mem_append, List.mem_cons, List.not_mem_nil, or_false] at hop
      rcases hop with (hop | hop) | rfl | rfl
      · split at hop
        · obtain rfl := List.mem_singleton.mp hop
          rcases serves with rfl | ⟨m, rfl⟩ <;> cases hv
        · cases hop
      · split at hop
        · cases hop
        · obtain rfl := List.mem_singleton.mp hop
          rcases serves with rfl | ⟨m, rfl⟩
          · by_contra hne
            simp [MetaOp.effect, hne] at hv
          · cases hv
      · rcases serves with rfl | ⟨m, rfl⟩
        · cases hv
        · by_contra hne
          have : ¬ (desc.digest = d ∧ repo = id ∧ c.digest = m) := fun h => hne ⟨h.2.1, h.1⟩
          simp [MetaOp.set, MetaOp.effect, this] at hv
      · rcases serves with rfl | ⟨m, rfl⟩ <;> cases hv
    obtain ⟨rfl, rfl⟩ := own
    exact blobIsServableId_iff.mp servable

theorem Interned.has_serves {name : Text} {i id : RepoId} {d : Digest} (h : s.Interned name i t)
    {k : Key} (serves : k.serves id d) : t.has k = s.has k :=
  h.has (by rcases serves with rfl | ⟨m, rfl⟩ <;> rfl)

end Store

section
variable {oci : Oci} {options : RegistryOptions} {s t : Store} {c : Call} {accepted : Bool}

/-- A repository that may serve a blob after a call might before, or the call
gave it the blob. -/
theorem Effect.serves (h : Effect oci options s c accepted t)
    (validates : options.validateReferences = true) {id : RepoId} {d : Digest} {k : Key}
    (serves : k.serves id d) (has : t.has k = true) :
    (∃ k' : Key, k'.serves id d ∧ s.has k' = true) ∨
      accepted = true ∧ c.gives = some d ∧ t.has (.blob d) = true ∧ ∃ name, c.repo = some name ∧
        t.repoByName name = some id := by
  have plain := Key.plain_of_serves serves
  have same (kept : s.has k = true) :
      (∃ k' : Key, k'.serves id d ∧ s.has k' = true) ∨
        accepted = true ∧ c.gives = some d ∧ t.has (.blob d) = true ∧ ∃ name,
          c.repo = some name ∧ t.repoByName name = some id := Or.inl ⟨k, serves, kept⟩
  cases h with
  | putManifest checked interned held tags =>
    obtain ⟨k', serves', has'⟩ := Store.pushBatch_serves serves (held validates) has
    exact Or.inl ⟨k', serves', (interned.has_serves serves').symm.trans has'⟩
  | setTag live record => exact same ((Store.has_apply_of_effect (setTagOps_other plain)).symm.trans has)
  | deleteTag live points =>
    exact same ((Store.has_apply_of_effect (deleteTagOps_other plain)).symm.trans has)
  | deleteManifest live stored => exact same (Store.manifestDelete_has plain has).1
  | purgeManifest live stored => exact same (Store.manifestDelete_has plain has).1
  | sweepRepoBlobs => exact same (Store.has_of_deletes (fun v => Store.retractBatch_deletes) has)
  | scanBlobs =>
    refine same ((Store.has_apply_of_effect (Store.markBatch_other fun d' => ?_)).symm.trans has)
    rcases serves with rfl | ⟨m, rfl⟩ <;> simp
  | collectBlob unreferenced =>
    refine same ((Store.has_apply_of_effect ?_).symm.trans has)
    rcases serves with rfl | ⟨m, rfl⟩ <;> rfl
  | retireRepo mapped empty =>
    refine same ((Store.has_apply_of_effect ?_).symm.trans has)
    rcases serves with rfl | ⟨m, rfl⟩ <;> rfl
  | @commitBlob repo digest size now i s₀ interned =>
    rcases Store.blobCommitBatch_serves serves has with old | ⟨rfl, rfl⟩
    · exact same ((interned.has_serves serves).symm.trans old)
    · refine Or.inr ⟨rfl, rfl, ?_, repo, rfl, ?_⟩
      · rw [Store.has_apply, Store.blobCommitBatch_blob, if_pos rfl]
        rfl
      · rw [(Store.sameNames_within (Store.blobCommitBatch_within _ _ _)).repoByName, interned.live]
  | deleteBlobReference live =>
    refine same (Store.has_of_deletes (fun v => ?_) has)
    rw [Store.blobReferenceDeleteBatch_effect]
    split <;> simp
  | @mountBlob repo digest from_ now i s₀ record stored interned =>
    rcases Store.blobCommitBatch_serves serves has with old | ⟨rfl, rfl⟩
    · exact same ((interned.has_serves serves).symm.trans old)
    · refine Or.inr ⟨rfl, rfl, ?_, repo, rfl, ?_⟩
      · rw [Store.has_apply, Store.blobCommitBatch_blob, if_pos rfl]
        rfl
      · rw [(Store.sameNames_within (Store.blobCommitBatch_within _ _ _)).repoByName, interned.live]
  | deleteRepository mapped =>
    refine same ((Store.has_apply_of_effect ?_).symm.trans has)
    rcases serves with rfl | ⟨m, rfl⟩ <;> rfl
  | @addPullCounts deltas batch puts =>
    refine same ((Store.has_apply_of_effect ?_).symm.trans has)
    rw [WriteBatch.effect_eq_none]
    intro op hop
    obtain ⟨g, i, bucket, -, rfl⟩ := puts op hop
    refine if_neg fun hkey => ?_
    unfold CountGroup.key at hkey
    rcases serves with rfl | ⟨m, rfl⟩ <;> split at hkey <;> cases hkey
  | sweepPage dead =>
    exact same (Store.has_of_deletes (fun v => Store.sweepRefsBatch_deletes) has)
  | finishSweep dead =>
    refine same (Store.has_of_deletes (fun v => ?_) has)
    rw [sweepFinishBatch_effect]
    split <;> simp
  | startSweep => exact same has
  | restart => exact same has
  | refused kept =>
    rcases kept with rfl | ⟨name, i, -, interned⟩
    · exact same has
    · exact same ((interned.has_serves serves).symm.trans has)

/-- A name that is mapped after a call was mapped before, unless the call has
just given it an id that no key has yet. -/
theorem Effect.mapped (h : Effect oci options s c accepted t) (named : s.Named) {name : Text}
    {id : RepoId} (live : t.repoByName name = some id) :
    s.repoByName name = some id ∨ ∀ k : Key, k.repo = some id → s.has k = false := by
  rcases h.names with names | ⟨name', i, u, -, interned, names⟩ | ⟨name', i, -, mapped, un, -⟩
  · rw [names.repoByName] at live
    exact Or.inl live
  · rw [names.repoByName] at live
    cases interned with
    | known stored => exact Or.inl live
    | new absent room next =>
      rw [Store.internBatch_repoByName] at live
      split at live
      · obtain rfl := Option.some.inj live
        refine Or.inr fun k hk => ?_
        by_contra hhas
        have issued := named.data k i hk (by simpa using hhas)
        exact UInt32.lt_irrefl _ (next ▸ issued)
      · exact Or.inl live
  · rw [un.repoByName] at live
    split at live
    · cases live
    · exact Or.inl live

end

/-! ## Deletion of a blob's references -/

namespace Store

variable {s : Store} {repo : RepoId} {d : Digest} {k : Key}

theorem mem_drain_serves {m : Digest} :
    Key.blobRef d repo m ∈ s.drain (.blobRefsInRepo d repo) ↔
      s.has (.blobRef d repo m) = true := by
  rw [mem_drain rfl (by simp), Scan.covers_blobRefsInRepo]
  exact ⟨fun h => h.2, fun h => ⟨⟨m, rfl⟩, h⟩⟩

theorem planBlobReferenceDelete_error {name : Text} {e : RegistryError}
    (h : s.planBlobReferenceDelete name repo d = .error e) (serves : k.serves repo d) :
    s.has k = false := by
  simp only [planBlobReferenceDelete] at h
  split at h
  · rename_i absent
    simp only [existsPrefix_repoBlob, Bool.and_eq_true, Bool.not_eq_true', List.isEmpty_iff] at absent
    rcases serves with rfl | ⟨m, rfl⟩
    · exact absent.1
    · by_contra hhas
      have := mem_drain_serves.mpr (Bool.eq_true_of_not_eq_false hhas)
      rw [absent.2] at this
      cases this
  · cases h

theorem blobReferenceDelete_has (serves : k.serves repo d) :
    (s.apply (s.blobReferenceDeleteBatch repo d)).has k = false := by
  rw [has_apply, blobReferenceDeleteBatch_effect]
  split
  · rfl
  · rename_i kept
    by_contra hhas
    have old : s.has k = true := Bool.eq_true_of_not_eq_false hhas
    apply kept
    rcases serves with rfl | ⟨m, rfl⟩
    · exact Or.inr (Or.inr ⟨existsPrefix_repoBlob.trans old, rfl⟩)
    · exact Or.inr (Or.inl (mem_drain_serves.mpr old))

end Store

/-- Whatever it answers, after a deletion of the blob's references the
repository does not serve the blob. -/
theorem Registry.deleteBlobReference_unserved {r : Registry} (cached : r.Cached) (name : Text)
    (d : Digest) {id : RepoId}
    (live : (r.deleteBlobReference name d).2.store.repoByName name = some id) {k : Key}
    (serves : k.serves id d) : (r.deleteBlobReference name d).2.store.has k = false := by
  obtain ⟨found, store, -, -⟩ := requireRepo_spec cached name
  cases hstored : r.store.repoByName name with
  | none =>
    rw [hstored] at found
    have failed : (r.deleteBlobReference name d).2 = (r.requireRepo name).2 := by
      unfold deleteBlobReference planBlobReferenceDelete planIn
      rcases hreq : r.requireRepo name with ⟨e | i, r'⟩
      · rfl
      · rw [hreq] at found
        cases found
    rw [failed, store, hstored] at live
    cases live
  | some i =>
    rw [hstored] at found
    have planned : r.planBlobReferenceDelete name d =
        (r.store.planBlobReferenceDelete name i d, (r.requireRepo name).2) := planIn_eq found
    unfold deleteBlobReference at live ⊢
    rw [planned] at live ⊢
    cases hplan : r.store.planBlobReferenceDelete name i d with
    | error e =>
      rw [hplan, commit_error, store, hstored] at live
      obtain rfl := Option.some.inj live
      rw [commit_error, store]
      exact Store.planBlobReferenceDelete_error hplan serves
    | ok p =>
      have within : (r.store.blobReferenceDeleteBatch i d).Within i :=
        Store.blobReferenceDeleteBatch_within d
      have names : r.store.SameNames (r.store.apply (r.store.blobReferenceDeleteBatch i d)) :=
        Store.sameNames_within within
      rw [hplan, commit_ok_store, store, Store.planBlobReferenceDelete_ok hplan, names.repoByName,
        hstored] at live
      obtain rfl := Option.some.inj live
      rw [commit_ok_store, store, Store.planBlobReferenceDelete_ok hplan]
      exact Store.blobReferenceDelete_has serves

/-! ## Whole runs -/

/-- A call of the run gave the repository the blob: it was accepted and came
under the id that the name has had ever since, and no deletion of the blob's
references came after it. -/
def Given (oci : Oci) (start : System) (repo : Text) (d : Digest) (calls : List Call)
    (sys : System) : Prop :=
  ∃ (before : List Call) (call : Call) (after : List Call) (mid mid' : System),
    calls = before ++ call :: after ∧ call.repo = some repo ∧ call.gives = some d ∧
    Transition.exec (System.step oci) start before = some mid ∧
    mid.call oci call = some (true, mid') ∧
    Transition.exec (System.step oci) mid' after = some sys ∧
    .deleteBlobReference repo d ∉ after ∧
    ∀ as t, as <+: after → Transition.exec (System.step oci) mid' as = some t →
      t.store.repoByName repo = sys.store.repoByName repo

section
variable {oci : Oci} {start sys sys' : System} {repo : Text} {d : Digest} {calls : List Call}
  {c : Call}

/-- What was given stays given by calls that delete no references of the blob
and leave the name its id. -/
theorem Given.later (given : Given oci start repo d calls sys)
    (h : System.step oci sys c = some sys') (keeps : c ≠ .deleteBlobReference repo d)
    (same : sys'.store.repoByName repo = sys.store.repoByName repo) :
    Given oci start repo d (calls ++ [c]) sys' := by
  obtain ⟨before, call, after, mid, mid', rfl, addressed, gives, reached, accepted, rest, none_,
    mapped⟩ := given
  refine ⟨before, call, after ++ [c], mid, mid', by simp, addressed, gives, reached, accepted, ?_,
    ?_, ?_⟩
  · rw [Transition.exec_append, rest, Option.bind_some, Transition.exec_cons, h]
    rfl
  · rw [List.mem_append, List.mem_singleton]
    rintro (hmem | rfl)
    · exact none_ hmem
    · exact keeps rfl
  · intro as t hprefix hrun
    rw [same]
    rcases List.prefix_concat_iff.mp hprefix with rfl | hprefix
    · rw [Transition.exec_append, rest, Option.bind_some, Transition.exec_cons, h] at hrun
      cases hrun
      exact same
    · exact mapped as t hprefix hrun

theorem Given.now (reached : Transition.exec (System.step oci) start calls = some sys)
    (accepted : sys.call oci c = some (true, sys')) (addressed : c.repo = some repo)
    (gives : c.gives = some d) : Given oci start repo d (calls ++ [c]) sys' := by
  refine ⟨calls, c, [], sys, sys', rfl, addressed, gives, reached, accepted, rfl, by simp, ?_⟩
  intro as t hprefix hrun
  rw [List.prefix_nil.mp hprefix] at hrun
  cases hrun
  rfl

end

/-- With references checked, whatever a repository serves after a run of calls
was committed to it or mounted into it under its present id, and after the last
deletion of the blob's references there. -/
theorem servable_was_given (oci : Oci) (options : RegistryOptions) (entries : Nat)
    (calls : List Call) (sys : System) (validates : options.validateReferences = true)
    (run : Transition.exec (System.step oci) (.start options entries) calls = some sys)
    (repo : Text) (d : Digest) (servable : (sys.registry.blobIsServable repo d).1 = true) :
    Given oci (.start options entries) repo d calls sys := by
  have main : sys.Coherent ∧ sys.registry.options = options ∧ ∀ id (k : Key), k.serves id d →
      sys.store.repoByName repo = some id → sys.store.has k = true →
      Given oci (.start options entries) repo d calls sys := by
    refine Transition.exec_history (H := fun calls sys => sys.Coherent ∧
      sys.registry.options = options ∧ ∀ id (k : Key), k.serves id d →
        sys.store.repoByName repo = some id → sys.store.has k = true →
        Given oci (.start options entries) repo d calls sys) ?_ ?_ run
    · refine ⟨System.coherent_start options entries, rfl, fun id k serves live has => ?_⟩
      cases has
    · rintro calls sys c sys' reached ⟨coherent, opts, given⟩ hstep
      obtain ⟨accepted, hcall⟩ := System.call_of_step hstep
      have coherent' := System.coherent_of_call coherent hcall
      refine ⟨coherent', (System.options_step coherent hstep).trans opts, ?_⟩
      intro id k serves live has
      have effect := (System.effect_of_call coherent hcall).effect
      rw [opts] at effect
      rcases effect.serves validates serves has with ⟨k', serves', old⟩ |
        ⟨rfl, gives, -, name, named, live'⟩
      · -- the blob was servable before the call, and under the same id
        have live₀ : sys.store.repoByName repo = some id := by
          rcases effect.mapped coherent.named live with live₀ | fresh
          · exact live₀
          · cases (fresh k' (Key.repo_of_serves serves')).symm.trans old
        refine (given id k' serves' live₀ old).later hstep ?_ (live.trans live₀.symm)
        rintro rfl
        cases hcall
        cases (Registry.deleteBlobReference_unserved coherent.cached repo d live serves).symm.trans has
      · have same : name = repo := by
          have inverse := coherent'.named.inverse
          have := ((inverse name id).mp live').symm.trans ((inverse repo id).mp live)
          exact Option.some.inj this
        exact .now reached hcall (same ▸ named) gives
  obtain ⟨coherent, -, given⟩ := main
  obtain ⟨found, store, -, -⟩ := Registry.lookupRepo_spec coherent.cached repo
  unfold Registry.blobIsServable Registry.readOr at servable
  rcases hlookup : sys.registry.lookupRepo repo with ⟨id | id, r⟩ <;>
    rw [hlookup] at found store servable
  · cases servable
  · dsimp only at found store servable
    rw [store] at servable
    obtain ⟨k, serves, has⟩ := Store.blobIsServableId_iff.mp servable
    exact given id k serves found.symm has

/-- A config is committed to one repository and mounted into another. -/
def mountedConfig : List Call :=
  [.operation (.commitBlob "app".toList emptyConfig 2 (.fromSecs 1)),
    .mountBlob "lib".toList emptyConfig (some "app".toList) (.fromSecs 2)]

theorem servable_was_given_mounted : ∃ sys,
    Transition.exec (System.step imageOci) (.start {} 1) mountedConfig = some sys ∧
      Given imageOci (.start {} 1) "lib".toList emptyConfig mountedConfig sys := by
  have facts : (Transition.exec (System.step imageOci) (.start {} 1) mountedConfig).map (fun sys =>
      (sys.registry.blobIsServable "lib".toList emptyConfig).1) = some true := by decide +kernel
  obtain ⟨sys, run, servable⟩ := Option.map_eq_some_iff.mp facts
  exact ⟨sys, run, servable_was_given imageOci {} 1 mountedConfig sys rfl run "lib".toList emptyConfig
    servable⟩

end Summ
