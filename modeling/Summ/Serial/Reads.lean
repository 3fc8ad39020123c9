import Summ.Serial.Planned
import Summ.Serial.TagKeys

/-!
# Reads of a manifest among writes

A read of a manifest is up to four lookups of their own, under no lock: the name,
the tag's record, the manifest's record, its body. Batches of any operation may
fall between two of them.
-/

namespace Summ

inductive ManifestGet
  | byTag (name tag : Text)
  | byDigest (name : Text) (digest : Digest)

def ManifestGet.name : ManifestGet → Text
  | byTag name _ | byDigest name _ => name

/-- How far a read has come: what its lookups so far have told it. -/
inductive Stage
  | asked
  | named (repo : RepoId)
  | resolved (repo : RepoId) (digest : Digest)
  | recorded (repo : RepoId) (digest : Digest) (record : ManifestRecord)
  | answered (digest : Option Digest) (result : Except RegistryError (Option StoredManifest))

structure Reader where
  get : ManifestGet
  stage : Stage

namespace Reader

/-- The next lookup, where there is one. -/
def next (r : Registry) (reader : Reader) : Option (Reader × Registry) :=
  match reader.stage with
  | .asked =>
    match r.requireRepo reader.get.name with
    | (.error e, r) => some ({ reader with stage := .answered none (.error e) }, r)
    | (.ok repo, r) =>
      match reader.get with
      | .byTag .. => some ({ reader with stage := .named repo }, r)
      | .byDigest _ digest => some ({ reader with stage := .resolved repo digest }, r)
  | .named repo =>
    match reader.get with
    | .byTag _ tag =>
      match r.store.tagRecordOf repo tag with
      | none => some ({ reader with stage := .answered none (.ok none) }, r)
      | some record => some ({ reader with stage := .resolved repo record.digest }, r)
    | .byDigest .. => none
  | .resolved repo digest =>
    match r.store.manifestRecord repo digest with
    | none => some ({ reader with stage := .answered (some digest) (.ok none) }, r)
    | some record => some ({ reader with stage := .recorded repo digest record }, r)
  | .recorded repo digest record =>
    match r.store.manifestBody repo digest with
    | none => some ({ reader with
        stage := .answered (some digest) (.error (.corrupt "manifest record with no body")) }, r)
    | some body => some ({ reader with
        stage := .answered (some digest)
          (.ok (some { digest, mediaType := record.mediaType, body })) }, r)
  | .answered .. => none

def isAnswered (reader : Reader) : Bool :=
  match reader.stage with
  | .answered .. => true
  | _ => false

/-- A reader whose lookups nothing comes between. -/
def finish (fuel : Nat) (r : Registry) (reader : Reader) : Reader × Registry :=
  match fuel with
  | 0 => (reader, r)
  | fuel + 1 =>
    match reader.next r with
    | none => (reader, r)
    | some (reader, r) => finish fuel r reader

end Reader

/-- The system with batches in flight, the pushes that have been applied, and the
reads. -/
structure Reading where
  system : System
  writes : List Write
  pushed : List ManifestPut
  readers : List Reader

namespace Reading

inductive Act
  | ask (get : ManifestGet)
  | read (i : Nat)
  | plan (op : Operation)
  | apply (i : Nat)
  | call (c : Call)

def store (st : Reading) : Store := st.system.store

def start (options : RegistryOptions) (entries : Nat) : Reading where
  system := .start options entries
  writes := []
  pushed := []
  readers := []

/-- A call is any but the operations that are planned; a restart ends what is in
flight. -/
def step (oci : Oci) (st : Reading) : Act → Option Reading
  | .ask get => some { st with readers := st.readers ++ [{ get, stage := .asked }] }
  | .read i => st.readers[i]?.bind fun reader =>
    (reader.next st.system.registry).map fun (reader, registry) =>
      { st with
        system := st.system.withRegistry registry
        readers := st.readers.set i reader }
  | .plan op =>
    match op.plan oci st.system.registry with
    | (none, registry) => some { st with system := st.system.withRegistry registry }
    | (some batch, registry) => some { st with
        system := st.system.withRegistry registry
        writes := st.writes ++ [{ batch, push := op.push }] }
  | .apply i => st.writes[i]?.map fun w =>
    { st with
      system := st.system.applying w.batch
      writes := st.writes.eraseIdx i
      pushed := st.pushed ++ w.push.toList }
  | .call c =>
    if c.retags then none
    else (System.step oci st.system c).map fun system =>
      match c with
      | .restart _ => { st with
          system, writes := [], readers := st.readers.filter Reader.isAnswered }
      | _ => { st with system }

end Reading

/-! ## A read alone -/

/-- `get_manifest_by_tag` and `get_manifest_by_digest`. -/
def ManifestGet.run (r : Registry) : ManifestGet → Except RegistryError (Option StoredManifest)
  | byTag name tag => (r.getManifestByTag name tag).1
  | byDigest name digest => (r.getManifestByDigest name digest).1

theorem Reader.finish_answered (n : Nat) (r : Registry) (get : ManifestGet)
    (digest : Option Digest) (result : Except RegistryError (Option StoredManifest)) :
    Reader.finish n r { get, stage := .answered digest result } =
      ({ get, stage := .answered digest result }, r) := by
  cases n <;> rfl

/-- A read nothing comes between answers what the one call does. -/
theorem Reader.finish_alone (r : Registry) (get : ManifestGet) :
    ∃ digest r', Reader.finish 4 r { get, stage := .asked } =
      ({ get, stage := .answered digest (get.run r) }, r') := by
  have stored (n : Nat) (r : Registry) (repo : RepoId) (digest : Digest) : ∃ resolved,
      Reader.finish (n + 2) r { get, stage := .resolved repo digest } =
        ({ get, stage := .answered resolved (r.store.storedManifest repo digest) }, r) := by
    unfold Store.storedManifest
    cases hm : r.store.manifestRecord repo digest with
    | none => exact ⟨some digest, by simp [Reader.finish, Reader.next, hm]⟩
    | some record =>
      cases hb : r.store.manifestBody repo digest <;>
        exact ⟨some digest, by simp [Reader.finish, Reader.next, hm, hb, Reader.finish_answered]⟩
  cases get with
  | byTag name tag =>
    simp only [ManifestGet.run, Registry.getManifestByTag, Registry.readIn, Store.manifestByTag]
    rcases hreq : r.requireRepo name with ⟨e | repo, r'⟩
    · exact ⟨none, r', by simp [Reader.finish, Reader.next, ManifestGet.name, hreq]⟩
    · cases ht : r'.store.tagRecordOf repo tag with
      | none => exact ⟨none, r', by simp [Reader.finish, Reader.next, ManifestGet.name, hreq, ht]⟩
      | some record =>
        obtain ⟨resolved, done⟩ := stored 0 r' repo record.digest
        refine ⟨resolved, r', ?_⟩
        rw [Reader.finish]
        simp only [Reader.next, ManifestGet.name, hreq]
        rw [Reader.finish]
        simp only [Reader.next, ht]
        exact done
  | byDigest name digest =>
    simp only [ManifestGet.run, Registry.getManifestByDigest, Registry.readIn]
    rcases hreq : r.requireRepo name with ⟨e | repo, r'⟩
    · exact ⟨none, r', by simp [Reader.finish, Reader.next, ManifestGet.name, hreq]⟩
    · obtain ⟨resolved, done⟩ := stored 1 r' repo digest
      refine ⟨resolved, r', ?_⟩
      rw [Reader.finish]
      simp only [Reader.next, ManifestGet.name, hreq]
      exact done

/-! ## Records and bodies go together -/

/-- A manifest's record is stored with a body, which was pushed for its digest. -/
def Store.Bodied (oci : Oci) (pushed : List ManifestPut) (s : Store) : Prop :=
  ∀ (r : RepoId) (d : Digest),
    s.get (.manifest r d) = none ∧ s.get (.manifestBody r d) = none ∨
    ∃ put ∈ pushed, digestBody oci put.body put.reference.asDigest = d ∧
      (∃ record, s.get (.manifest r d) = some (.manifest record)) ∧
      s.get (.manifestBody r d) = some (.manifestBody put.body)

namespace Store

variable {oci : Oci} {pushed : List ManifestPut} {s t : Store}

theorem bodied_empty : Bodied oci pushed ∅ := fun _ _ => Or.inl ⟨by simp, by simp⟩

theorem Bodied.of_same (bodied : s.Bodied oci pushed)
    (same : ∀ k : Key, k.aboutContents = true → t.get k = s.get k) : t.Bodied oci pushed := by
  intro r d
  rw [same (.manifest r d) rfl, same (.manifestBody r d) rfl]
  exact bodied r d

/-- A batch in flight keeps records with their bodies, whatever is stored when it is
applied. -/
theorem Bodied.apply (bodied : s.Bodied oci pushed) {w : Write} (paired : w.Paired oci) :
    (s.apply w.batch).Bodied oci (pushed ++ w.push.toList) := by
  intro r d
  rw [get_apply, get_apply]
  rcases paired r d with ⟨hm, hb⟩ | ⟨hm, hb⟩ | ⟨put, record, push, digest, hm, hb⟩
  · rw [hm, hb]
    rcases bodied r d with absent | ⟨put, hput, digest, record, body⟩
    · exact Or.inl absent
    · exact Or.inr ⟨put, List.mem_append_left _ hput, digest, record, body⟩
  · rw [hm, hb]
    exact Or.inl ⟨rfl, rfl⟩
  · rw [hm, hb, push]
    exact Or.inr ⟨put, by simp, digest, ⟨record, rfl⟩, rfl⟩

/-- The end of a sweep drops both. -/
theorem Bodied.sweepFinish (bodied : s.Bodied oci pushed) (id : RepoId) :
    (s.apply (sweepFinishBatch id)).Bodied oci pushed := by
  intro r d
  simp only [get_apply, sweepFinishBatch_effect]
  by_cases h : r = id
  · exact Or.inl ⟨by simp [Key.dropped, Key.repo, h], by simp [Key.dropped, Key.repo, h]⟩
  · simpa [Key.dropped, Key.repo, h] using bodied r d

end Store

namespace Reading

variable {oci : Oci} {st st' : Reading}

/-- What holds in every state of a run, whatever the reads come to. -/
structure Good (oci : Oci) (st : Reading) : Prop where
  coherent : st.system.Coherent
  bodied : st.store.Bodied oci st.pushed
  writes : ∀ w ∈ st.writes, w.Paired oci ∧ ∃ id, id < st.store.nextId ∧ w.batch.Within id

theorem good_start (options : RegistryOptions) (entries : Nat) :
    Good oci (start options entries) where
  coherent := System.coherent_start options entries
  bodied := Store.bodied_empty
  writes w h := by cases h

/-- A lookup stores nothing. -/
theorem next_spec {r r' : Registry} (cached : r.Cached) {reader reader' : Reader}
    (h : reader.next r = some (reader', r')) : r'.store = r.store ∧ r'.Cached := by
  obtain ⟨-, store, -, kept⟩ := Registry.requireRepo_spec cached reader.get.name
  unfold Reader.next at h
  split at h
  · split at h
    · rename_i hreq
      rw [hreq] at store kept
      cases h
      exact ⟨store, kept⟩
    · rename_i hreq
      rw [hreq] at store kept
      split at h <;> cases h <;> exact ⟨store, kept⟩
  · split at h
    · split at h <;> cases h <;> exact ⟨rfl, cached⟩
    · cases h
  · split at h <;> cases h <;> exact ⟨rfl, cached⟩
  · split at h <;> cases h <;> exact ⟨rfl, cached⟩
  · cases h

theorem Good.step (good : Good oci st) {a : Act} (h : Reading.step oci st a = some st') :
    Good oci st' := by
  cases a with
  | ask get =>
    cases h
    exact ⟨good.coherent, good.bodied, good.writes⟩
  | read i =>
    obtain ⟨reader, -, h⟩ := Option.bind_eq_some_iff.mp h
    obtain ⟨⟨reader', r'⟩, hnext, rfl⟩ := Option.map_eq_some_iff.mp h
    obtain ⟨store, cached⟩ := next_spec good.coherent.cached hnext
    refine ⟨System.coherent_withRegistry good.coherent store cached, ?_, ?_⟩
    · exact good.bodied.of_same fun k _ => congrArg (fun s : Store => s.get k) store
    · intro w hw
      obtain ⟨paired, id, issued, within⟩ := good.writes w hw
      refine ⟨paired, id, ?_, within⟩
      change id < r'.store.nextId
      rw [store]
      exact issued
  | plan op =>
    have plans : Plans oci st.system.registry op.push (op.plan oci st.system.registry) :=
      op.plan_spec good.coherent.cached
    have coherent := System.coherent_planned good.coherent plans
    have bodied : (op.plan oci st.system.registry).2.store.Bodied oci st.pushed := by
      refine good.bodied.of_same fun k hk => ?_
      rcases plans.interned with same | ⟨name, id, interned⟩
      · exact congrArg (fun s : Store => s.get k) same
      · exact interned.sameContents k hk
    have writes : ∀ w ∈ st.writes, w.Paired oci ∧
        ∃ id, id < (op.plan oci st.system.registry).2.store.nextId ∧ w.batch.Within id := by
      intro w hw
      obtain ⟨paired, id, issued, within⟩ := good.writes w hw
      refine ⟨paired, id, ?_, within⟩
      rcases plans.interned with same | ⟨name, i, interned⟩
      · rw [same]
        exact issued
      · exact interned.issued issued
    have planned := plans.batch
    rw [Reading.step] at h
    rcases hplan : op.plan oci st.system.registry with ⟨batch | batch, r'⟩ <;>
      rw [hplan] at h coherent bodied writes planned <;> cases h
    · exact ⟨coherent, bodied, writes⟩
    · refine ⟨coherent, bodied, ?_⟩
      intro w hw
      rcases List.mem_append.mp hw with hw | hw
      · exact writes w hw
      · obtain rfl := List.mem_singleton.mp hw
        obtain ⟨⟨name, id, live, within⟩, paired⟩ := planned batch rfl
        exact ⟨paired, id, coherent.named.issued name id live, within⟩
  | apply i =>
    obtain ⟨w, hw, rfl⟩ := Option.map_eq_some_iff.mp h
    obtain ⟨paired, id, issued, within⟩ := good.writes w (List.mem_of_getElem? hw)
    refine ⟨System.coherent_applying good.coherent issued within, good.bodied.apply paired, ?_⟩
    intro w' hw'
    obtain ⟨paired', id', issued', within'⟩ := good.writes w' (List.mem_of_mem_eraseIdx hw')
    refine ⟨paired', id', ?_, within'⟩
    change id' < (st.store.apply w.batch).nextId
    rw [(Store.sameNames_within within).nextId]
    exact issued'
  | call c =>
    rw [Reading.step] at h
    split at h
    · cases h
    · rename_i plain
      obtain ⟨system, hs, rfl⟩ := Option.map_eq_some_iff.mp h
      obtain ⟨accepted, hcall⟩ := System.call_of_step hs
      have effect := (System.effect_of_call good.coherent hcall).effect
      have coherent := System.coherent_step good.coherent hs
      have bodied : system.store.Bodied oci st.pushed := by
        have edit := effect.edit
        change Edit oci _ st.store c system.store at edit
        generalize system.store = t at edit ⊢
        cases edit with
        | push pushes => exact absurd (by rw [pushes]; rfl) plain
        | setTag record retags => exact absurd retags plain
        | deleteTag points retags => exact absurd retags plain
        | deleteManifest stored retags => exact absurd retags plain
        | finishSweep finishes => exact good.bodied.sweepFinish _
        | none same refs => exact good.bodied.of_same same
      have writes : ∀ w ∈ st.writes, w.Paired oci ∧
          ∃ id, id < system.store.nextId ∧ w.batch.Within id := by
        intro w hw
        obtain ⟨paired, id, issued, within⟩ := good.writes w hw
        exact ⟨paired, id, effect.issued good.coherent.named issued, within⟩
      split
      · exact ⟨coherent, bodied, fun w hw => by cases hw⟩
      · exact ⟨coherent, bodied, writes⟩

theorem good_of_run {options : RegistryOptions} {entries : Nat} {acts : List Act}
    (run : Transition.exec (Reading.step oci) (start options entries) acts = some st) :
    Good oci st :=
  Transition.exec_invariant (fun _ _ _ good _ h => good.step h) (good_start options entries)
    (Transition.meets_true _ acts) run

/-! ## Hits and misses -/

/-- A read answered with the bytes that were pushed for the digest it resolved, or
with an unknown name or manifest. -/
def Fine (oci : Oci) (pushed : List ManifestPut) (reader : Reader) : Prop :=
  ∀ resolved result, reader.stage = .answered resolved result →
    match result with
    | .ok (some m) => resolved = some m.digest ∧
        ∃ put ∈ pushed, put.body = m.body ∧
          digestBody oci put.body put.reference.asDigest = m.digest
    | .ok none => True
    | .error e => e = .nameUnknown reader.get.name

/-- When a body is about to be read, its record is still, or again, stored. -/
def StillStored (st : Reading) : Act → Prop
  | .read i => ∀ reader ∈ st.readers[i]?, ∀ repo digest record,
      reader.stage = .recorded repo digest record →
      (st.store.manifestRecord repo digest).isSome = true
  | _ => True

theorem Fine.mono {pushed more : List ManifestPut} {reader : Reader}
    (fine : Fine oci pushed reader) (sub : pushed ⊆ more) : Fine oci more reader := by
  intro resolved result h
  have held := fine resolved result h
  cases result with
  | error e => exact held
  | ok found =>
    cases found with
    | none => trivial
    | some m =>
      obtain ⟨digest, put, hput, body⟩ := held
      exact ⟨digest, put, sub hput, body⟩

/-- A lookup leads to no failure where the record is still there. -/
theorem fine_next (good : Good oci st) {i : Nat} {reader reader' : Reader} {r' : Registry}
    (at_ : st.readers[i]? = some reader) (ok : StillStored st (.read i))
    (h : reader.next st.system.registry = some (reader', r')) : Fine oci st.pushed reader' := by
  have unknown {e : RegistryError}
      (failed : (st.system.registry.requireRepo reader.get.name).1 = .error e) :
      e = .nameUnknown reader.get.name := by
    rw [(Registry.requireRepo_spec good.coherent.cached reader.get.name).1] at failed
    split at failed
    · cases failed
    · exact (Except.error.inj failed).symm
  intro resolved result answered
  unfold Reader.next at h
  split at h
  · split at h
    · rename_i hreq
      rw [hreq] at unknown
      cases h
      cases answered
      exact unknown rfl
    · split at h <;> cases h <;> cases answered
  · split at h
    · split at h <;> cases h <;> cases answered
      trivial
    · cases h
  · split at h <;> cases h <;> cases answered
    trivial
  · rename_i repo digest record stage
    have still := ok reader at_ repo digest record stage
    obtain ⟨kept, hkept⟩ := Option.isSome_iff_exists.mp still
    have stored := Store.manifestRecord_eq_some.mp hkept
    rcases good.bodied repo digest with ⟨absent, -⟩ | ⟨put, hput, pushed, -, body⟩
    · rw [absent] at stored
      cases stored
    · have read : st.system.registry.store.manifestBody repo digest = some put.body := by
        change st.store.manifestBody repo digest = some put.body
        rw [Store.manifestBody, body]
      rw [read] at h
      cases h
      cases answered
      exact ⟨rfl, put, hput, rfl, pushed⟩
  · cases h

/-- Where the record is gone the body is, and the read fails. -/
theorem corrupt_next (good : Good oci st) {reader : Reader} {repo : RepoId} {digest : Digest}
    {record : ManifestRecord} (stage : reader.stage = .recorded repo digest record)
    (gone : (st.store.manifestRecord repo digest).isSome = false) :
    reader.next st.system.registry = some ({ reader with
      stage := .answered (some digest) (.error (.corrupt "manifest record with no body")) },
      st.system.registry) := by
  have body : st.system.registry.store.manifestBody repo digest = none := by
    change st.store.manifestBody repo digest = none
    rcases good.bodied repo digest with ⟨-, absent⟩ | ⟨put, hput, pushed, ⟨kept, hkept⟩, -⟩
    · rw [Store.manifestBody, absent]
    · rw [Store.manifestRecord_eq_some.mpr hkept] at gone
      cases gone
  unfold Reader.next
  rw [stage]
  dsimp only
  rw [body]

/-- An answer stays, and so does what was pushed. -/
theorem answered_step {a : Act} (h : Reading.step oci st a = some st') :
    (∀ reader ∈ st.readers, reader.isAnswered = true → reader ∈ st'.readers) ∧
      st.pushed ⊆ st'.pushed := by
  cases a with
  | ask get =>
    cases h
    exact ⟨fun reader mem _ => List.mem_append_left _ mem, List.Subset.refl _⟩
  | read i =>
    obtain ⟨reader₀, at_, h⟩ := Option.bind_eq_some_iff.mp h
    obtain ⟨⟨reader', r'⟩, hnext, rfl⟩ := Option.map_eq_some_iff.mp h
    refine ⟨fun reader mem answered => ?_, List.Subset.refl _⟩
    obtain ⟨j, hj⟩ := List.mem_iff_getElem?.mp mem
    have other : i ≠ j := by
      rintro rfl
      cases hj.symm.trans at_
      unfold Reader.isAnswered at answered
      unfold Reader.next at hnext
      split at answered
      · rename_i stage
        rw [stage] at hnext
        cases hnext
      · cases answered
    exact List.mem_of_getElem? ((List.getElem?_set_ne other).trans hj)
  | plan op =>
    rw [Reading.step] at h
    split at h <;> cases h <;> exact ⟨fun reader mem _ => mem, List.Subset.refl _⟩
  | apply i =>
    obtain ⟨w, -, rfl⟩ := Option.map_eq_some_iff.mp h
    exact ⟨fun reader mem _ => mem, List.subset_append_left _ _⟩
  | call c =>
    rw [Reading.step] at h
    split at h
    · cases h
    · obtain ⟨system, -, rfl⟩ := Option.map_eq_some_iff.mp h
      split
      · exact ⟨fun reader mem answered => List.mem_filter.mpr ⟨mem, answered⟩, List.Subset.refl _⟩
      · exact ⟨fun reader mem _ => mem, List.Subset.refl _⟩

theorem answered_exec {acts : List Act} (run : Transition.exec (Reading.step oci) st acts = some st')
    {reader : Reader} (mem : reader ∈ st.readers) (answered : reader.isAnswered = true) :
    reader ∈ st'.readers := by
  have stays := Transition.exec_preorder (I := fun _ => True)
    (R := fun s t : Reading => ∀ reader ∈ s.readers, reader.isAnswered = true → reader ∈ t.readers)
    (fun _ _ mem _ => mem) ?_ (fun _ _ _ _ _ _ => trivial)
    (fun _ _ _ _ _ h => (answered_step h).1) trivial (Transition.meets_true st acts) run
  · exact stays reader mem answered
  · intro s t u first second reader mem answered
    exact second reader (first reader mem answered) answered

/-- A step that finds the record keeps every answer fine. -/
theorem fine_step (good : Good oci st) (fine : ∀ reader ∈ st.readers, Fine oci st.pushed reader)
    {a : Act} (ok : StillStored st a) (h : Reading.step oci st a = some st') :
    ∀ reader ∈ st'.readers, Fine oci st'.pushed reader := by
  have kept := (answered_step h).2
  cases a with
  | ask get =>
    cases h
    intro reader mem
    rcases List.mem_append.mp mem with mem | mem
    · exact fine reader mem
    · obtain rfl := List.mem_singleton.mp mem
      intro resolved result answered
      cases answered
  | read i =>
    obtain ⟨reader₀, at_, h⟩ := Option.bind_eq_some_iff.mp h
    obtain ⟨⟨reader', r'⟩, hnext, rfl⟩ := Option.map_eq_some_iff.mp h
    intro reader mem
    rcases List.mem_or_eq_of_mem_set mem with mem | rfl
    · exact fine reader mem
    · exact fine_next good at_ ok hnext
  | plan op =>
    rw [Reading.step] at h
    split at h <;> cases h <;> exact fine
  | apply i =>
    obtain ⟨w, -, rfl⟩ := Option.map_eq_some_iff.mp h
    exact fun reader mem => (fine reader mem).mono kept
  | call c =>
    rw [Reading.step] at h
    split at h
    · cases h
    · obtain ⟨system, -, rfl⟩ := Option.map_eq_some_iff.mp h
      split
      · exact fun reader mem => fine reader (List.mem_filter.mp mem).1
      · exact fine

/-- Every read of a run is a hit or a miss exactly when, at each reading of a body,
the manifest's record is still, or again, stored. -/
theorem reads_fine_iff (oci : Oci) (options : RegistryOptions) (entries : Nat) {acts : List Act}
    {st : Reading} (run : Transition.exec (step oci) (start options entries) acts = some st) :
    (∀ reader ∈ st.readers, Fine oci st.pushed reader) ↔
      Transition.Meets (step oci) StillStored (start options entries) acts := by
  constructor
  · intro fine
    refine Transition.meets_of_prefixes (G := fun t => Good oci t ∧
      ∀ reader ∈ t.readers, ∀ resolved what,
        reader.stage ≠ .answered resolved (.error (.corrupt what))) ?_ (by rw [run]; rfl) ?_
    · rintro s a t ⟨good, -⟩ h ⟨-, sound⟩
      cases a with
      | read i =>
        intro reader at_ repo digest record stage
        by_contra gone
        have next := corrupt_next good stage (Bool.eq_false_of_not_eq_true gone)
        rw [step, Option.mem_def.mp at_, Option.bind_some, next] at h
        cases h
        have here : i < s.readers.length := (List.getElem?_eq_some_iff.mp at_).1
        exact sound _ (List.mem_set here _) _ _ rfl
      | _ => trivial
    · intro before mid part hmid
      refine ⟨good_of_run hmid, ?_⟩
      intro reader mem resolved what stage
      obtain ⟨rest, rfl⟩ := part
      rw [Transition.exec_append, hmid] at run
      have stays := answered_exec run mem (by rw [Reader.isAnswered, stage])
      have named := fine reader stays resolved _ stage
      cases named
  · intro meets
    refine (Transition.exec_invariant
      (I := fun t => Good oci t ∧ ∀ reader ∈ t.readers, Fine oci t.pushed reader)
      (fun s a t inv ok h => ⟨inv.1.step h, fine_step inv.1 inv.2 ok h⟩)
      ⟨good_start options entries, fun reader mem => by cases mem⟩ meets run).2

/-- A manifest is pushed, and a read of it by its tag gets as far as its record. -/
def recordRead : List Act :=
  [.plan (pushIndex emptyIndex (.tag latestTag) 1), .apply 0,
    .ask (.byTag "app".toList latestTag.text), .read 0, .read 0, .read 0]

/-- It is pushed again before its body is read. -/
def pushedAgain : List Act :=
  recordRead ++ ([.plan (.deleteManifest "app".toList emptyIndex.digest (.fromSecs 2)), .apply 0,
    .plan (pushIndex emptyIndex (.tag latestTag) 3), .apply 0, .read 0] : List Act)

theorem reads_fine_iff_pushedAgain : ∃ st,
    Transition.exec (step indexOci) (start {} 1) pushedAgain = some st ∧
      ((∀ reader ∈ st.readers, Fine indexOci st.pushed reader) ↔
        Transition.Meets (step indexOci) StillStored (start {} 1) pushedAgain) := by
  obtain ⟨st, run⟩ : ∃ st, Transition.exec (step indexOci) (start {} 1) pushedAgain = some st :=
    Option.isSome_iff_exists.mp (by decide +kernel)
  exact ⟨st, run, reads_fine_iff indexOci {} 1 run⟩

/-- It is deleted before its body is read. -/
def deletedBetween : List Act :=
  recordRead ++ ([.plan (.deleteManifest "app".toList emptyIndex.digest (.fromSecs 2)), .apply 0,
    .read 0] : List Act)

theorem read_fails_between : ¬ ∀ (oci : Oci) (options : RegistryOptions) (entries : Nat)
    (acts : List Act) (st : Reading),
    Transition.exec (step oci) (start options entries) acts = some st →
    ∀ reader ∈ st.readers, Fine oci st.pushed reader := by
  intro fine
  have answer : (Transition.exec (step indexOci) (start {} 1) deletedBetween).map (fun st =>
      st.readers.map fun reader => match reader.stage with
        | .answered resolved (.error e) => some (resolved, e)
        | _ => none) =
      some [some (some emptyIndex.digest, .corrupt "manifest record with no body")] := by
    decide +kernel
  obtain ⟨st, run, told⟩ := Option.map_eq_some_iff.mp answer
  have here : some (some emptyIndex.digest, RegistryError.corrupt "manifest record with no body") ∈
      st.readers.map fun reader => match reader.stage with
        | .answered resolved (.error e) => some (resolved, e)
        | _ => none := by
    rw [told]
    exact List.mem_singleton.mpr rfl
  obtain ⟨reader, mem, failed⟩ := List.mem_map.mp here
  split at failed
  · rename_i resolved e stage
    cases failed
    have named := fine indexOci {} 1 deletedBetween st run reader mem _ _ stage
    cases named
  · cases failed

end Reading

end Summ
