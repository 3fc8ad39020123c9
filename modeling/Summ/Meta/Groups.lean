import Summ.Core.Schema
import Summ.Meta.Cursor

/-!
# The prefix extractor against the key schema

The extractor cuts a key by its type, scope and algorithm bytes; the builders
make it of fields. `Builds` is the schema's side, one rule for each builder with
the group its keys are meant for, and `Builds.group_eq` the agreement of the two.
What an iterator relies on is in `group_eq_some`: a key is in a group exactly when
it starts with it.
-/

namespace Summ

namespace Rocks

/-- The group of a key in the extractor's domain. -/
def group (key : Bytes) : Option Bytes :=
  if summInDomain key then some (summTransform key) else none

theorem group_eq_none {key : Bytes} : group key = none ↔ summInDomain key = false := by
  unfold group
  split <;> simp_all

theorem inDomain_of_group {key g : Bytes} (h : group key = some g) :
    summInDomain key = true ∧ summTransform key = g := by
  unfold group at h
  split at h
  · rename_i inDomain
    exact ⟨inDomain, Option.some.inj h⟩
  · cases h

theorem group_of_inDomain {key : Bytes} (h : summInDomain key = true) :
    group key = some (summTransform key) := if_pos h

/-- A key cut at its whole length is a group. -/
theorem group_own {g : Bytes} (len : summPrefixLen g = some g.length) : group g = some g := by
  rw [group_of_inDomain (inDomain_of_len len le_rfl), summTransform, len]
  dsimp only
  rw [if_pos le_rfl, List.take_length]

theorem group_extend {pre key g : Bytes} (h : group pre = some g) (starts : pre <+: key) :
    group key = some g := by
  obtain ⟨inDomain, rfl⟩ := inDomain_of_group h
  obtain ⟨inDomain', same⟩ := inDomain_extend inDomain starts
  rw [group_of_inDomain inDomain', same]

/-- The keys of a group are those that start with it. -/
theorem group_eq_some {key g : Bytes} :
    group key = some g ↔ g <+: key ∧ group g = some g := by
  constructor
  · intro h
    obtain ⟨inDomain, rfl⟩ := inDomain_of_group h
    obtain ⟨starts, extends_⟩ := inDomain_cases inDomain
    obtain ⟨own, same⟩ := extends_ _ (List.prefix_refl _)
    exact ⟨starts, (group_of_inDomain own).trans (congrArg some same)⟩
  · rintro ⟨starts, own⟩
    exact group_extend own starts

/-- Between two keys of a group lie keys of that group and no others. -/
theorem group_convex {a b c g : Bytes} (ha : group a = some g) (hc : group c = some g)
    (hab : a ≤ b) (hbc : b ≤ c) : group b = some g := by
  obtain ⟨startsA, own⟩ := group_eq_some.mp ha
  obtain ⟨startsC, -⟩ := group_eq_some.mp hc
  exact group_eq_some.mpr ⟨Bytes.startsWith_convex startsA startsC hab hbc, own⟩

/-- What RocksDB promises of its prefix filter: a file is passed by only when the
target has a group and no key of the file is in it. -/
structure PrefixFilter where
  skips : (file : List Bytes) → (target : Bytes) → Bool
  sound : ∀ file target, skips file target = true →
    ∃ g, group target = some g ∧ ∀ key ∈ file, group key ≠ some g

/-- The filter reads every file that holds a key of the target's group. -/
theorem PrefixFilter.reads (filter : PrefixFilter) {file : List Bytes} {target key : Bytes}
    (mem : key ∈ file) (same : group key = group target) : filter.skips file target = false := by
  by_contra skipped
  obtain ⟨g, own, absent⟩ := filter.sound file target (eq_true_of_ne_false skipped)
  exact absent key mem (same.trans own)

/-- A seek from inside a group yields all that its prefix and its cursor leave. -/
theorem seek_of_group {V : Type*} {entries : List (Bytes × V)}
    (sorted : entries.Pairwise fun a b => a.1 < b.1) {pre g : Bytes} (h : group pre = some g)
    {startAfter : Option Bytes} (under : ∀ c ∈ startAfter, pre <+: c) :
    (seek id entries pre startAfter (prefixReadOpts pre)).filter
        (fun e => decide (startAfter ≠ some e.1)) =
      after id entries pre startAfter := by
  have nonempty : pre ≠ [] := by
    rintro rfl
    cases h
  have sees : ∀ e ∈ after id entries pre startAfter, Rocks.sees id startAfter e.1 = true := by
    intro e he
    have starts : pre <+: e.1 :=
      of_decide_eq_true (Bool.and_eq_true_iff.mp (List.mem_filter.mp he).2).1
    cases startAfter with
    | none => rfl
    | some c =>
      obtain ⟨inDomain, own⟩ := inDomain_of_group (group_extend h starts)
      obtain ⟨-, cursor⟩ := inDomain_of_group (group_extend h (under c rfl))
      simp [Rocks.sees, inDomain, own, cursor]
  have yields : (seek id entries pre startAfter (prefixReadOpts pre)).filter
      (fun e => decide (startAfter.map id ≠ some (id e.1))) =
        (after id entries pre startAfter).takeWhile fun e => Rocks.sees id startAfter e.1 :=
    seek_eq sorted nonempty under
  rw [List.takeWhile_eq_self_iff.mpr sees] at yields
  rw [← yields]
  simp

end Rocks

/-! ## The groups of the schema -/

open keys Rocks

/-- What each builder writes, and the group it is meant for. A tag is any string. -/
inductive Builds : Option Bytes → Bytes → Prop
  | manifest (repo : RepoId) (digest : Digest) :
    Builds (some (manifestsInRepo repo)) (manifest repo digest)
  | manifestBody (repo : RepoId) (digest : Digest) :
    Builds (some (manifestBodiesInRepo repo)) (manifestBody repo digest)
  | tag (repo : RepoId) (tag : Text) : Builds (some (tagsInRepo repo)) (Schema.tag repo tag)
  | manifestTag (repo : RepoId) (digest : Digest) (tag : Text) :
    Builds (some (tagsOfManifest repo digest)) (Schema.manifestTag repo digest tag)
  | blob (digest : Digest) : Builds none (blob digest)
  | blobMark (digest : Digest) : Builds none (blobMark digest)
  | blobRef (digest : Digest) (repo : RepoId) (manifest : Digest) :
    Builds (some (blobRefs digest)) (blobRef digest repo manifest)
  | repoBlob (repo : RepoId) (digest : Digest) :
    Builds (some (blobsInRepo repo)) (repoBlob repo digest)
  | childParent (repo : RepoId) (child parent : Digest) :
    Builds (some (parentsOf repo child)) (childParent repo child parent)
  | referrer (repo : RepoId) (subject referrer : Digest) :
    Builds (some (referrersOf repo subject)) (keys.referrer repo subject referrer)
  | upload (id : List.Vector Byte 16) : Builds none (upload id)
  | tagHistory (repo : RepoId) (tag : Text) (at_ : Timestamp) (digest : Digest) :
    Builds (some (tagHistoryInRepo repo)) (Schema.tagHistory repo tag at_ digest)
  | manifestTagHistory (repo : RepoId) (digest : Digest) (at_ : Timestamp) (tag : Text) :
    Builds (some (manifestTagHistoryInRepo repo)) (Schema.manifestTagHistory repo digest at_ tag)
  | counterManifest (repo : RepoId) (digest : Digest) (day shard : UInt16) :
    Builds (some (countersOfManifest repo digest)) (counterManifest repo digest day shard)
  | counterTag (repo : RepoId) (tag : Text) (day shard : UInt16) :
    Builds (some (countersInRepoScope SCOPE_TAG repo)) (Schema.counterTag repo tag day shard)
  | counterRepo (repo : RepoId) (day shard : UInt16) :
    Builds (some (countersOfRepo repo)) (counterRepo repo day shard)
  | deadRepo (id : RepoId) : Builds none (deadRepo id)
  | repoByName (name : Text) : Builds none (repoByName name)
  | repoById (id : RepoId) : Builds none (repoById id)
  | dbVersion : Builds none dbVersion
  -- the scan prefixes, of which some are shorter than the group
  | manifestsInRepo (repo : RepoId) : Builds (some (manifestsInRepo repo)) (manifestsInRepo repo)
  | manifestBodiesInRepo (repo : RepoId) :
    Builds (some (manifestBodiesInRepo repo)) (manifestBodiesInRepo repo)
  | tagsInRepo (repo : RepoId) : Builds (some (tagsInRepo repo)) (tagsInRepo repo)
  | tagsOfManifest (repo : RepoId) (digest : Digest) :
    Builds (some (tagsOfManifest repo digest)) (tagsOfManifest repo digest)
  | manifestTagsInRepo (repo : RepoId) : Builds none (manifestTagsInRepo repo)
  | blobs : Builds none blobs
  | blobMarks : Builds none blobMarks
  | blobRefs (digest : Digest) : Builds (some (blobRefs digest)) (blobRefs digest)
  | blobRefsInRepo (digest : Digest) (repo : RepoId) :
    Builds (some (blobRefs digest)) (blobRefsInRepo digest repo)
  | blobsInRepo (repo : RepoId) : Builds (some (blobsInRepo repo)) (blobsInRepo repo)
  | repoBlobs : Builds none repoBlobs
  | parentsOf (repo : RepoId) (child : Digest) :
    Builds (some (parentsOf repo child)) (parentsOf repo child)
  | childrenInRepo (repo : RepoId) : Builds none (childrenInRepo repo)
  | referrersOf (repo : RepoId) (subject : Digest) :
    Builds (some (referrersOf repo subject)) (referrersOf repo subject)
  | referrersInRepo (repo : RepoId) : Builds none (referrersInRepo repo)
  | uploads : Builds none uploads
  | tagHistoryOf (repo : RepoId) (tag : Text) :
    Builds (some (tagHistoryInRepo repo)) (Schema.tagHistoryOf repo tag)
  | tagHistoryInRepo (repo : RepoId) : Builds (some (tagHistoryInRepo repo)) (tagHistoryInRepo repo)
  | manifestTagHistoryOf (repo : RepoId) (digest : Digest) :
    Builds (some (manifestTagHistoryInRepo repo)) (manifestTagHistoryOf repo digest)
  | manifestTagHistoryInRepo (repo : RepoId) :
    Builds (some (manifestTagHistoryInRepo repo)) (manifestTagHistoryInRepo repo)
  | countersOfManifest (repo : RepoId) (digest : Digest) :
    Builds (some (countersOfManifest repo digest)) (countersOfManifest repo digest)
  | countersOfTag (repo : RepoId) (tag : Text) :
    Builds (some (countersInRepoScope SCOPE_TAG repo)) (Schema.countersOfTag repo tag)
  | countersOfRepo (repo : RepoId) : Builds (some (countersOfRepo repo)) (countersOfRepo repo)
  | countersInRepoScope (scope : Byte) (repo : RepoId) (h : scope ∈ [SCOPE_TAG, SCOPE_REPO]) :
    Builds (some (countersInRepoScope scope repo)) (countersInRepoScope scope repo)
  | countersInOtherScope (scope : Byte) (repo : RepoId) (h : scope ∉ [SCOPE_TAG, SCOPE_REPO]) :
    Builds none (countersInRepoScope scope repo)
  | deadRepos : Builds none deadRepos
  | reposByName : Builds none reposByName
  -- the keys a scan resumes at
  | tagHistoryBefore (repo : RepoId) (tag : Text) (at_ : Timestamp) :
    Builds (some (tagHistoryInRepo repo)) (Schema.tagHistoryBefore repo tag at_)
  | manifestTagHistoryBefore (repo : RepoId) (digest : Digest) (at_ : Timestamp) :
    Builds (some (manifestTagHistoryInRepo repo)) (manifestTagHistoryBefore repo digest at_)
  | countersFromDay {scan g : Bytes} (day : UInt16) (h : Builds (some g) scan) :
    Builds (some g) (countersFromDay scan day)

/-- The table leaves no record key and no scan prefix out. -/
theorem RecordKey.builds (k : RecordKey) : ∃ g, Builds g k.bytes := by
  cases k <;> exact ⟨_, by constructor⟩

theorem ScanPrefix.builds (p : ScanPrefix) : ∃ g, Builds g p.bytes := by
  cases p with
  | countersInRepoScope scope repo =>
    by_cases h : scope ∈ [SCOPE_TAG, SCOPE_REPO]
    · exact ⟨_, .countersInRepoScope scope repo h⟩
    · exact ⟨_, .countersInOtherScope scope repo h⟩
  | _ => exact ⟨_, by constructor⟩

/-! ## The agreement -/

theorem group_of_len_none {key : Bytes} (len : summPrefixLen key = none) : group key = none := by
  rw [group_eq_none]
  simp only [summInDomain, len]

theorem group_startRepo {type : Byte} (h : type ∈ [PREFIX_MANIFEST, PREFIX_MANIFEST_BODY,
    PREFIX_TAG, PREFIX_REPO_BLOB, PREFIX_TAG_HISTORY, PREFIX_MANIFEST_TAG_HISTORY])
    (repo : RepoId) : group (startRepo type repo) = some (startRepo type repo) :=
  group_own (len_startRepo h)

/-- A prefix that stops before the digest its type is grouped by. -/
theorem group_beforeDigest {type : Byte}
    (h : type ∈ [PREFIX_MANIFEST_TAG, PREFIX_CHILD_PARENT, PREFIX_REFERRER]) (repo : RepoId) :
    group (startRepo type repo) = none := by
  have cut : (startRepo type repo)[5]? = none := List.getElem?_eq_none (by simp [startRepo])
  have ne : type ≠ PREFIX_BLOB_REF := by
    rintro rfl
    exact absurd h (by decide)
  apply group_of_len_none
  unfold summPrefixLen
  rw [cut]
  simp only [startRepo, List.getElem?_cons_zero, Option.bind_eq_bind, Option.bind_some, if_neg ne,
    if_pos h, Option.bind_none]

theorem group_otherScope {scope : Byte} (h : scope ∉ [SCOPE_TAG, SCOPE_REPO]) (repo : RepoId) :
    group (countersInRepoScope scope repo) = none := by
  have cut : (countersInRepoScope scope repo)[6]? = none :=
    List.getElem?_eq_none (by simp [countersInRepoScope, startCounter])
  have other : PREFIX_COUNTER ∉ [PREFIX_MANIFEST_TAG, PREFIX_CHILD_PARENT, PREFIX_REFERRER] := by
    decide
  have ne : PREFIX_COUNTER ≠ PREFIX_BLOB_REF := by decide
  apply group_of_len_none
  unfold summPrefixLen
  rw [cut]
  simp only [countersInRepoScope, startCounter, List.getElem?_cons_zero, List.getElem?_cons_succ,
    Option.bind_eq_bind, Option.bind_some, if_neg ne, if_neg other, if_true, if_neg h,
    Option.bind_none, ite_self]

/-- The extractor groups what every builder writes as the schema means it. -/
theorem Builds.group_eq {g : Option Bytes} {key : Bytes} (h : Builds g key) : group key = g := by
  induction h with
  | manifest repo digest =>
    exact group_extend (group_startRepo (by decide) repo) (List.prefix_append ..)
  | manifestBody repo digest =>
    exact group_extend (group_startRepo (by decide) repo) (List.prefix_append ..)
  | tag repo tag => exact group_extend (group_startRepo (by decide) repo) (List.prefix_append ..)
  | manifestTag repo digest tag =>
    exact group_extend (group_own (len_startRepo_digest (by decide))) (List.prefix_append ..)
  | blobRef digest repo manifest =>
    have starts : keys.blobRefs digest <+: keys.blobRef digest repo manifest :=
      ⟨repoBytes repo ++ manifest.encode, by simp [keys.blobRefs, keys.blobRef]⟩
    exact group_extend (group_own len_blobRefs) starts
  | repoBlob repo digest =>
    exact group_extend (group_startRepo (by decide) repo) (List.prefix_append ..)
  | childParent repo child parent =>
    exact group_extend (group_own (len_startRepo_digest (by decide))) (List.prefix_append ..)
  | referrer repo subject referrer =>
    exact group_extend (group_own (len_startRepo_digest (by decide))) (List.prefix_append ..)
  | tagHistory repo tag at_ digest =>
    exact group_extend (group_startRepo (by decide) repo)
      ((List.prefix_append ..).trans (List.prefix_append ..))
  | manifestTagHistory repo digest at_ tag =>
    have starts : keys.manifestTagHistoryOf repo digest <+:
        Schema.manifestTagHistory repo digest at_ tag :=
      (List.prefix_append ..).trans (List.prefix_append ..)
    exact group_extend (group_startRepo (by decide) repo) ((List.prefix_append ..).trans starts)
  | counterManifest repo digest day shard =>
    exact group_extend (group_own len_countersOfManifest) (List.prefix_append ..)
  | counterTag repo tag day shard =>
    exact group_extend (group_own (len_startCounter (by decide)))
      ((List.prefix_append ..).trans (List.prefix_append ..))
  | counterRepo repo day shard =>
    exact group_extend (group_own (len_startCounter (by decide))) (List.prefix_append ..)
  | blob | blobMark | upload | deadRepo | repoByName | blobs | blobMarks | uploads | deadRepos
  | reposByName => exact group_eq_none.mpr (not_inDomain (by decide))
  | repoById | dbVersion => exact group_of_len_none rfl
  | manifestsInRepo repo | manifestBodiesInRepo repo | tagsInRepo repo | blobsInRepo repo
  | tagHistoryInRepo repo | manifestTagHistoryInRepo repo =>
    exact group_startRepo (by decide) repo
  | tagsOfManifest repo digest | parentsOf repo digest | referrersOf repo digest =>
    exact group_own (len_startRepo_digest (by decide))
  | manifestTagsInRepo repo | childrenInRepo repo | referrersInRepo repo =>
    exact group_beforeDigest (by decide) repo
  | blobRefs digest => exact group_own len_blobRefs
  | blobRefsInRepo digest repo =>
    exact group_extend (group_own len_blobRefs) (List.prefix_append ..)
  | repoBlobs => exact group_eq_none.mpr (by decide)
  | tagHistoryOf repo tag =>
    exact group_extend (group_startRepo (by decide) repo)
      ((List.prefix_append ..).trans (List.prefix_append ..))
  | manifestTagHistoryOf repo digest =>
    exact group_extend (group_startRepo (by decide) repo) (List.prefix_append ..)
  | countersOfManifest repo digest => exact group_own len_countersOfManifest
  | countersOfTag repo tag =>
    exact group_extend (group_own (len_startCounter (by decide)))
      ((List.prefix_append ..).trans (List.prefix_append ..))
  | countersOfRepo repo => exact group_own (len_startCounter (by decide))
  | countersInRepoScope scope repo h => exact group_own (len_startCounter h)
  | countersInOtherScope scope repo h => exact group_otherScope h repo
  | tagHistoryBefore repo tag at_ =>
    have starts : startRepo PREFIX_TAG_HISTORY repo <+: Schema.tagHistoryOf repo tag :=
      (List.prefix_append ..).trans (List.prefix_append ..)
    exact group_extend (group_startRepo (by decide) repo) (starts.trans (List.prefix_append ..))
  | manifestTagHistoryBefore repo digest at_ =>
    have starts : startRepo PREFIX_MANIFEST_TAG_HISTORY repo <+:
        keys.manifestTagHistoryOf repo digest := List.prefix_append ..
    exact group_extend (group_startRepo (by decide) repo) (starts.trans (List.prefix_append ..))
  | countersFromDay day _ ih => exact group_extend ih (List.prefix_append ..)

/-- The extractor is consistent with the key schema. A grouped key starts with its
group, which is its own; groups are intervals of the byte order; the builders write
into the groups they are meant for; what lies under a grouped prefix is in the
prefix's group, so that neither a seek nor a prefix filter leaves any of it out. -/
theorem extractor_consistent :
    (∀ key g, group key = some g → g <+: key ∧ group g = some g) ∧
      (∀ a b c g, group a = some g → group c = some g → a ≤ b → b ≤ c → group b = some g) ∧
      (∀ g key, Builds g key → group key = g) ∧
      (∀ k : RecordKey, ∃ g, Builds g k.bytes) ∧ (∀ p : ScanPrefix, ∃ g, Builds g p.bytes) ∧
      ∀ pre g, group pre = some g →
        (∀ key, pre <+: key → group key = some g) ∧
        (∀ (V : Type) (entries : List (Bytes × V)) (startAfter : Option Bytes),
          entries.Pairwise (fun a b => a.1 < b.1) → (∀ c ∈ startAfter, pre <+: c) →
          (seek id entries pre startAfter (prefixReadOpts pre)).filter
              (fun e => decide (startAfter ≠ some e.1)) = after id entries pre startAfter) ∧
        ∀ (filter : PrefixFilter) (file : List Bytes) (target key : Bytes), pre <+: target →
          key ∈ file → pre <+: key → filter.skips file target = false := by
  refine ⟨fun key g => group_eq_some.mp, fun a b c g => group_convex, fun g key => Builds.group_eq,
    RecordKey.builds, ScanPrefix.builds, ?_⟩
  intro pre g own
  have inside {key : Bytes} (starts : pre <+: key) : group key = some g := group_extend own starts
  refine ⟨fun key => inside, ?_, ?_⟩
  · intro V entries startAfter sorted under
    exact seek_of_group sorted own under
  · intro filter file target key ht mem hk
    exact filter.reads mem ((inside hk).trans (inside ht).symm)

end Summ
