import Summ.Serial.Locality
import Summ.Serial.Servable

/-!
# What the answers about a name depend on

What is asked about a name is read at the keys of its repository and, for a
blob's size, at the registry-wide record.
-/

namespace Summ

/-! ## What a read depends on -/

/-- The same keys of a repository. -/
def Store.SameIn (s t : Store) (id : RepoId) : Prop := ∀ k, k.repo = some id → t.get k = s.get k

namespace Store

variable {s t : Store} {id : RepoId} (same : s.SameIn t id)

include same

theorem SameIn.headManifest (reference : Reference) :
    t.headManifest id reference = s.headManifest id reference := by
  have records (d : Digest) : t.manifestRecord id d = s.manifestRecord id d :=
    manifestRecord_congr (same _ rfl)
  have tags (u : Tag) : t.tagDigest id u = s.tagDigest id u := tagDigest_congr (same _ rfl)
  cases reference <;> simp only [Store.headManifest, resolve, records, tags]

theorem SameIn.storedManifest (d : Digest) : t.storedManifest id d = s.storedManifest id d := by
  simp only [Store.storedManifest, manifestRecord, manifestBody, same (.manifest id d) rfl,
    same (.manifestBody id d) rfl]

theorem SameIn.manifestByTag (tag : Text) : t.manifestByTag id tag = s.manifestByTag id tag := by
  have records (u : Tag) : t.tagRecord id u = s.tagRecord id u := by
    simp only [tagRecord, same (.tag id u) rfl]
  have found : t.tagRecordOf id tag = s.tagRecordOf id tag := by
    simp only [tagRecordOf, funext records]
  simp only [Store.manifestByTag, found, same.storedManifest]

theorem SameIn.tagPage (startAfter : Option Text) (limit : Nat) :
    t.tagPage id startAfter limit = s.tagPage id startAfter limit := by
  have page := scanFrom_congr (p := .tagsInRepo id) (s := s) (t := t)
    (c := startAfter.map fun u => keys.tagsInRepo id ++ Bytes.utf8 u)
    (fun k hk => same k (by cases k <;> simp_all [Scan.covers, Key.repo]))
    (fun b hb => by
      obtain ⟨u, -, rfl⟩ := Option.map_eq_some_iff.mp hb
      exact List.prefix_append _ _) limit
  simp only [Store.tagPage, page]

theorem SameIn.manifestPage (startAfter : Option Digest) (limit : Nat) :
    t.manifestPage id startAfter limit = s.manifestPage id startAfter limit := by
  have page := scan_congr (p := .manifestsInRepo id) (s := s) (t := t)
    (c := startAfter.map (Key.manifest id))
    (fun k hk => same k (by cases k <;> simp_all [Scan.covers, Key.repo]))
    (fun k hk => by
      obtain ⟨d, -, rfl⟩ := Option.map_eq_some_iff.mp hk
      simp [Scan.covers]) limit
  simp only [Store.manifestPage, page]

theorem SameIn.referrerPage (subject : Digest) (artifactType : Option Text)
    (startAfter : Option Digest) (limit : Nat) :
    t.referrerPage id subject artifactType startAfter limit =
      s.referrerPage id subject artifactType startAfter limit := by
  have page := scan_congr (p := .referrersOf id subject) (s := s) (t := t)
    (c := startAfter.map (Key.referrer id subject))
    (fun k hk => same k (by cases k <;> simp_all [Scan.covers, Key.repo]))
    (fun k hk => by
      obtain ⟨d, -, rfl⟩ := Option.map_eq_some_iff.mp hk
      simp [Scan.covers]) limit
  simp only [Store.referrerPage, page]

theorem SameIn.tagHistoryPage (tag : Tag) (before : Option Timestamp) (last : Option Digest)
    (limit : Nat) :
    t.tagHistoryPage id tag before last limit = s.tagHistoryPage id tag before last limit := by
  have page (c : Option Bytes) (hc : ∀ b ∈ c, (Scan.tagHistoryOf id tag).bytes <+: b) :=
    scanFrom_congr (p := .tagHistoryOf id tag) (s := s) (t := t) (c := c)
      (fun k hk => same k (by cases k <;> simp_all [Scan.covers, Key.repo])) hc limit
  simp only [Store.tagHistoryPage]
  rw [page]
  intro b hb
  obtain ⟨at_, -, rfl⟩ := Option.map_eq_some_iff.mp hb
  cases last with
  | none => exact List.prefix_append _ _
  | some d =>
    refine ⟨keys.descTime at_ ++ d.encode, ?_⟩
    simp [Scan.bytes, keys.tagHistory_eq, keys.tagHistoryOf_eq]

theorem SameIn.manifestTagHistoryPage (d : Digest) (before : Option Timestamp) (last : Option Text)
    (limit : Nat) :
    t.manifestTagHistoryPage id d before last limit =
      s.manifestTagHistoryPage id d before last limit := by
  have page (c : Option Bytes) (hc : ∀ b ∈ c, (Scan.manifestTagHistoryOf id d).bytes <+: b) :=
    scanFrom_congr (p := .manifestTagHistoryOf id d) (s := s) (t := t) (c := c)
      (fun k hk => same k (by cases k <;> simp_all [Scan.covers, Key.repo])) hc limit
  simp only [Store.manifestTagHistoryPage]
  rw [page]
  intro b hb
  obtain ⟨at_, -, rfl⟩ := Option.map_eq_some_iff.mp hb
  cases last with
  | none => exact List.prefix_append _ _
  | some u =>
    refine ⟨keys.descTime at_ ++ Bytes.utf8 u, ?_⟩
    simp [Scan.bytes, Schema.manifestTagHistory, keys.manifestTagHistoryOf]

theorem SameIn.countDays (subject : CountSubject) (from_ days : UInt16) :
    t.countDays id subject from_ days = s.countDays id subject from_ days := by
  have page := scanFrom_congr (p := subject.scan id) (s := s) (t := t)
    (c := some (keys.countersFromDay (subject.scan id).bytes from_))
    (fun k hk => same k (by cases subject <;> cases k <;> simp_all [CountSubject.scan, Scan.covers, Key.repo]))
    (fun b hb => by
      obtain rfl := Option.some.inj hb
      exact List.prefix_append _ _) (days.toNat * SHARD_SCAN_SLACK)
  simp only [Store.countDays, page]

theorem SameIn.blobIsServableId (d : Digest) : t.blobIsServableId id d = s.blobIsServableId id d := by
  rw [Bool.eq_iff_iff, blobIsServableId_iff, blobIsServableId_iff]
  refine exists_congr fun k => and_congr_right fun hk => ?_
  rw [has, has, same k (Key.repo_of_serves hk)]

end Store

/-! ## What is asked about a name -/

/-- Two registries answer the same about a name, blobs' sizes apart. -/
structure Registry.SameAnswers (r r' : Registry) (name : Text) : Prop where
  headManifest : ∀ reference, (r'.headManifest name reference).1 = (r.headManifest name reference).1
  getManifestByTag : ∀ tag, (r'.getManifestByTag name tag).1 = (r.getManifestByTag name tag).1
  getManifestByDigest : ∀ d, (r'.getManifestByDigest name d).1 = (r.getManifestByDigest name d).1
  listTags : ∀ startAfter limit,
    (r'.listTags name startAfter limit).1 = (r.listTags name startAfter limit).1
  listManifests : ∀ startAfter limit,
    (r'.listManifests name startAfter limit).1 = (r.listManifests name startAfter limit).1
  referrers : ∀ subject artifactType startAfter limit,
    (r'.referrers name subject artifactType startAfter limit).1 =
      (r.referrers name subject artifactType startAfter limit).1
  tagHistory : ∀ tag before last limit,
    (r'.tagHistory name tag before last limit).1 = (r.tagHistory name tag before last limit).1
  manifestTagHistory : ∀ d before last limit,
    (r'.manifestTagHistory name d before last limit).1 =
      (r.manifestTagHistory name d before last limit).1
  counts : ∀ subject from_ days,
    (r'.counts name subject from_ days).1 = (r.counts name subject from_ days).1
  blobIsServable : ∀ d, (r'.blobIsServable name d).1 = (r.blobIsServable name d).1

namespace Registry

variable {r r' : Registry} {name : Text}

theorem readIn_snd {α : Type} (read : Store → RepoId → Except RegistryError α) :
    (r.readIn name read).2 = (r.requireRepo name).2 := by
  unfold readIn
  split <;> rename_i hreq <;> rw [hreq]

theorem readIn_fst (cached : r.Cached) {α : Type} (read : Store → RepoId → Except RegistryError α) :
    (r.readIn name read).1 =
      match r.store.repoByName name with
      | some id => read r.store id
      | none => .error (.nameUnknown name) := by
  obtain ⟨found, store, -, -⟩ := requireRepo_spec cached name
  unfold readIn
  rcases hreq : r.requireRepo name with ⟨e | id, r₁⟩ <;> rw [hreq] at found store <;>
    cases hstored : r.store.repoByName name <;> rw [hstored] at found <;> cases found
  · rfl
  · dsimp only at store ⊢
    rw [store]

theorem readOr_fst (cached : r.Cached) {α : Type} (absent : α) (read : Store → RepoId → α) :
    (r.readOr name absent read).1 =
      match r.store.repoByName name with
      | some id => read r.store id
      | none => absent := by
  obtain ⟨found, store, -, -⟩ := lookupRepo_spec cached name
  unfold readOr
  rcases hlookup : r.lookupRepo name with ⟨id | id, r₁⟩ <;> rw [hlookup] at found store <;>
    dsimp only at found store ⊢ <;> rw [← found]
  rw [store]

/-- A name that keeps its id, and whose id keeps its keys, keeps its answers. -/
theorem sameAnswers (cached : r.Cached) (cached' : r'.Cached)
    (mapped : r'.store.repoByName name = r.store.repoByName name)
    (same : ∀ id, r.store.repoByName name = some id → r.store.SameIn r'.store id) :
    r.SameAnswers r' name := by
  have asked {α : Type} (read : Store → RepoId → Except RegistryError α)
      (h : ∀ id, r.store.SameIn r'.store id → read r'.store id = read r.store id) :
      (r'.readIn name read).1 = (r.readIn name read).1 := by
    rw [readIn_fst cached', readIn_fst cached, mapped]
    cases hid : r.store.repoByName name with
    | none => rfl
    | some id => exact h id (same id hid)
  have asked' {α : Type} (absent : α) (read : Store → RepoId → α)
      (h : ∀ id, r.store.SameIn r'.store id → read r'.store id = read r.store id) :
      (r'.readOr name absent read).1 = (r.readOr name absent read).1 := by
    rw [readOr_fst cached', readOr_fst cached, mapped]
    cases hid : r.store.repoByName name with
    | none => rfl
    | some id => exact h id (same id hid)
  constructor
  · exact fun reference => asked _ fun id h => congrArg _ (h.headManifest reference)
  · exact fun tag => asked _ fun id h => h.manifestByTag tag
  · exact fun d => asked _ fun id h => h.storedManifest d
  · exact fun startAfter limit => asked _ fun id h => congrArg _ (h.tagPage startAfter limit)
  · exact fun startAfter limit => asked _ fun id h => congrArg _ (h.manifestPage startAfter limit)
  · exact fun subject artifactType startAfter limit =>
      asked' _ _ fun id h => h.referrerPage subject artifactType startAfter limit
  · exact fun tag before last limit =>
      asked' _ _ fun id h => h.tagHistoryPage tag before last limit
  · exact fun d before last limit =>
      asked' _ _ fun id h => h.manifestTagHistoryPage d before last limit
  · exact fun subject from_ days => asked' _ _ fun id h => h.countDays subject from_ days
  · exact fun d => asked' _ _ fun id h => h.blobIsServableId d

end Registry

end Summ
