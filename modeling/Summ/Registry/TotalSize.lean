import Mathlib.Data.List.Dedup
import Summ.Registry.Operations

/-!
# The total size of a manifest's blobs

A manifest's record carries the sum of the sizes its own text declares for its
blobs. The references a push writes are another matter: one per distinct blob,
to whatever size is recorded for it. A blob named again, a size that is not the
recorded one and a foreign layer that is held each pull the two apart; the total
agrees when they cancel out (`Balanced`).
-/

namespace Summ

namespace ParsedManifest

variable (p : ParsedManifest)

/-- The descriptors that do not place their blob elsewhere. -/
def ordinary : List BlobDesc := p.blobs.filter fun b => !b.foreign

/-- The sizes a manifest declares for them. -/
def declared : Nat := (p.ordinary.map BlobDesc.size).sum

/-- No addition on the way to the total overflows. -/
def SumFits : Prop := ∀ n, ((p.ordinary.map BlobDesc.size).take n).sum < 2 ^ 64

theorem sumFits_iff : p.SumFits ↔ p.declared < 2 ^ 64 := by
  constructor
  · intro fits
    have all := fits (p.ordinary.map BlobDesc.size).length
    rwa [List.take_length] at all
  · intro fits n
    have split := congrArg List.sum (List.take_append_drop n (p.ordinary.map BlobDesc.size))
    rw [List.sum_append] at split
    rw [declared] at fits
    omega

end ParsedManifest

namespace BlobDesc

/-- The descriptors whose blob a later one names again. -/
def repeats : List BlobDesc → List BlobDesc
  | [] => []
  | desc :: rest =>
    if desc.digest ∈ rest.map digest then desc :: repeats rest else repeats rest

/-- The last descriptor of each blob. -/
def lasts : List BlobDesc → List BlobDesc
  | [] => []
  | desc :: rest => if desc.digest ∈ rest.map digest then lasts rest else desc :: lasts rest

variable {descs : List BlobDesc} {desc : BlobDesc}

theorem sum_sizes (descs : List BlobDesc) : (descs.map size).sum =
    ((repeats descs).map size).sum + ((lasts descs).map size).sum := by
  induction descs with
  | nil => rfl
  | cons desc rest ih =>
    rw [repeats, lasts, List.map_cons, List.sum_cons, ih]
    split <;> rw [List.map_cons, List.sum_cons] <;> omega

theorem lasts_sublist (descs : List BlobDesc) : (lasts descs).Sublist descs := by
  induction descs with
  | nil => exact .slnil
  | cons desc rest ih =>
    rw [lasts]
    split
    · exact ih.cons desc
    · exact ih.cons_cons desc

theorem mem_lasts_digest {d : Digest} : d ∈ (lasts descs).map digest ↔ d ∈ descs.map digest := by
  induction descs with
  | nil => rfl
  | cons desc rest ih =>
    rw [lasts, List.map_cons, List.mem_cons]
    split
    · rename_i again
      rw [ih]
      exact ⟨Or.inr, fun h => h.elim (fun same => same ▸ again) id⟩
    · rw [List.map_cons, List.mem_cons, ih]

theorem lasts_nodup (descs : List BlobDesc) : ((lasts descs).map digest).Nodup := by
  induction descs with
  | nil => exact List.nodup_nil
  | cons desc rest ih =>
    rw [lasts]
    split
    · exact ih
    · rename_i once
      rw [List.map_cons, List.nodup_cons, mem_lasts_digest]
      exact ⟨once, ih⟩

theorem getLast?_of_mem_lasts (h : desc ∈ lasts descs) :
    (descs.filter fun other => decide (other.digest = desc.digest)).getLast? = some desc := by
  induction descs with
  | nil => cases h
  | cons first rest ih =>
    have named : desc ∈ lasts rest → desc.digest ∈ rest.map digest := fun mem =>
      mem_lasts_digest.mp (List.mem_map_of_mem mem)
    rw [lasts] at h
    split at h
    · rename_i again
      have last := ih h
      rw [List.filter_cons]
      split
      · rw [List.getLast?_cons, last]
        rfl
      · exact last
    · rename_i once
      rcases List.mem_cons.mp h with rfl | later
      · have none : rest.filter (fun other => decide (other.digest = desc.digest)) = [] := by
          refine List.filter_eq_nil_iff.mpr fun other mem same => once ?_
          rw [← of_decide_eq_true same]
          exact List.mem_map_of_mem mem
        rw [List.filter_cons_of_pos (by simp), none]
        rfl
      · have other : first.digest ≠ desc.digest := fun same => once (same ▸ named later)
        rw [List.filter_cons_of_neg (by simpa using other)]
        exact ih later

end BlobDesc

namespace Store

variable {s : Store} {repo : RepoId} {c : CheckedPut} {ts : List Tag}

/-- The size recorded for a blob once a push is applied: what was recorded
before, or else what its last descriptor declares. -/
def sizeLeft (s : Store) (repo : RepoId) (c : CheckedPut) (d : Digest) : Nat :=
  match s.blobRecord d with
  | some record => record.size
  | none => ((((s.recorded repo c).filter fun desc => decide (desc.digest = d)).getLast?).map
      BlobDesc.size).getD 0

/-- The distinct blobs a push refers to. -/
def referenced (s : Store) (repo : RepoId) (c : CheckedPut) : List Digest :=
  ((s.recorded repo c).map BlobDesc.digest).dedup

/-- The size on record for a descriptor's blob, or else the declared one. -/
def sizeOf (s : Store) (desc : BlobDesc) : Nat :=
  ((s.blobRecord desc.digest).map BlobRecord.size).getD desc.size

/-- The foreign blobs that the repository holds and no other descriptor names. -/
def heldForeign (s : Store) (repo : RepoId) (c : CheckedPut) : List Digest :=
  (((c.parsed.blobs.filter fun desc => desc.foreign && s.holdsBlob repo desc.digest).map
    BlobDesc.digest).dedup).filter fun d => decide (d ∉ c.parsed.ordinary.map BlobDesc.digest)

/-- What is on record for the held foreign blobs. -/
def foreignBytes (s : Store) (repo : RepoId) (c : CheckedPut) : Nat :=
  ((s.heldForeign repo c).map fun d => ((s.blobRecord d).map BlobRecord.size).getD 0).sum

/-- What is counted for blobs that are named again, or more than is on record, comes
to what is left out for foreign blobs that are held, or declared less than on record. -/
def Balanced (s : Store) (repo : RepoId) (c : CheckedPut) : Prop :=
  let descs := c.parsed.ordinary
  ((BlobDesc.repeats descs).map BlobDesc.size).sum +
      ((BlobDesc.lasts descs).map fun desc => desc.size - s.sizeOf desc).sum =
    s.foreignBytes repo c + ((BlobDesc.lasts descs).map fun desc => s.sizeOf desc - desc.size).sum

/-- What is on record for the blobs a manifest names, a blob without a record taken
as declared. -/
def bytesNamed (s : Store) (repo : RepoId) (c : CheckedPut) : Nat :=
  ((BlobDesc.lasts c.parsed.ordinary).map s.sizeOf).sum + s.foreignBytes repo c

/-- The stored total is the sum of the stored sizes of the distinct blobs that
the batch refers to, and no addition overflowed on the way. -/
def TotalAgrees (s : Store) (batch : WriteBatch) (repo : RepoId) (c : CheckedPut) : Prop :=
  c.parsed.SumFits ∧ ∃ (record : ManifestRecord) (refs : List Digest),
    (s.apply batch).manifestRecord repo c.digest = some record ∧ refs.Nodup ∧
    (∀ d, d ∈ refs ↔ batch.effect (.blobRef d repo c.digest) = some (some .edge)) ∧
    record.totalLayerSize =
      (refs.map fun d => (((s.apply batch).blobRecord d).map BlobRecord.size).getD 0).sum

theorem mem_referenced {d : Digest} :
    d ∈ s.referenced repo c ↔
      (s.pushBatch repo c ts).effect (.blobRef d repo c.digest) = some (some .edge) := by
  rw [referenced, List.mem_dedup, List.mem_map, pushBatch_blobRef]
  constructor
  · rintro ⟨desc, hdesc, rfl⟩
    rw [if_pos ⟨rfl, rfl, desc, hdesc, rfl⟩]
  · intro h
    split at h
    · rename_i written
      exact written.2.2
    · cases h

/-- What one descriptor leaves of the record of a blob. -/
theorem blobOps_blob {manifest d : Digest} {now : Timestamp} (desc : BlobDesc) :
    WriteBatch.effect (s.blobOps repo manifest desc now) (.blob d) =
      if desc.digest = d ∧ s.blobRecord d = none then some (some (.blob { size := desc.size }))
      else none := by
  unfold blobOps
  by_cases hd : desc.digest = d
  · subst hd
    cases hknown : s.blobRecord desc.digest with
    | none =>
      simp only [Option.isNone_none, if_true, Option.map_none, Option.getD_none, and_self]
      split <;> simp [MetaOp.effect, MetaOp.set]
    | some record =>
      simp only [Option.isNone_some, Bool.false_eq_true, if_false, and_false, reduceCtorEq]
      split <;> simp [MetaOp.effect, MetaOp.set]
  · rw [if_neg fun h => hd h.1]
    simp only [WriteBatch.effect_append]
    split <;> split <;> simp [MetaOp.effect, MetaOp.set, hd]

/-- What a run of descriptors leaves of the record of a blob that had none. -/
theorem blobOps_flatMap {manifest d : Digest} {now : Timestamp} (known : s.blobRecord d = none)
    (descs : List BlobDesc) :
    WriteBatch.effect (descs.flatMap fun desc => s.blobOps repo manifest desc now) (.blob d) =
      (descs.filter fun desc => decide (desc.digest = d)).getLast?.map fun desc =>
        some (.blob { size := desc.size }) := by
  induction descs with
  | nil => rfl
  | cons desc descs ih =>
    rw [List.flatMap_cons, WriteBatch.effect_append, ih, blobOps_blob]
    by_cases hd : desc.digest = d
    · rw [List.filter_cons_of_pos (by simpa using hd), List.getLast?_cons, if_pos ⟨hd, known⟩]
      cases (descs.filter fun desc => decide (desc.digest = d)).getLast? <;> rfl
    · rw [List.filter_cons_of_neg (by simpa using hd), if_neg fun h => hd h.1, Option.or_none]

theorem sizeLeft_eq {d : Digest} (h : d ∈ s.referenced repo c) :
    (s.apply (s.pushBatch repo c ts)).blobRecord d = some { size := s.sizeLeft repo c d } := by
  rw [blobRecord_eq_some, get_apply, pushBatch_blobs rfl, sizeLeft]
  cases known : s.blobRecord d with
  | some record =>
    have none : WriteBatch.effect ((s.recorded repo c).flatMap fun desc =>
        s.blobOps repo c.digest desc c.put.now) (.blob d) = none := by
      refine WriteBatch.effect_flatMap_none fun desc _ => ?_
      rw [blobOps_blob, known, if_neg (by simp)]
    rw [none, Option.getD_none, blobRecord_eq_some.mp known]
  | none =>
    rw [blobOps_flatMap known]
    cases hlast : ((s.recorded repo c).filter fun desc => decide (desc.digest = d)).getLast? with
    | some desc => rfl
    | none =>
      obtain ⟨desc, hdesc, rfl⟩ := List.mem_map.mp (List.mem_dedup.mp h)
      rw [List.getLast?_eq_none_iff, List.filter_eq_nil_iff] at hlast
      exact absurd (decide_eq_true rfl) (hlast desc hdesc)

theorem totalAgrees_sums : s.TotalAgrees (s.pushBatch repo c ts) repo c ↔
    c.parsed.declared < 2 ^ 64 ∧
      c.parsed.declared = ((s.referenced repo c).map (s.sizeLeft repo c)).sum := by
  have stored : (s.apply (s.pushBatch repo c ts)).manifestRecord repo c.digest =
      some (c.record repo) := by
    rw [push_manifestRecord, if_pos ⟨rfl, rfl⟩]
  have sizes : (s.referenced repo c).map
      (fun d => (((s.apply (s.pushBatch repo c ts)).blobRecord d).map BlobRecord.size).getD 0) =
      (s.referenced repo c).map (s.sizeLeft repo c) :=
    List.map_congr_left fun d hd => by
      rw [sizeLeft_eq hd]
      rfl
  rw [TotalAgrees, c.parsed.sumFits_iff]
  refine and_congr_right fun fits => ?_
  have total : (c.record repo).totalLayerSize = c.parsed.declared := Nat.mod_eq_of_lt fits
  constructor
  · rintro ⟨record, refs, hrecord, nodup, members, agrees⟩
    obtain rfl : c.record repo = record := Option.some.inj (stored.symm.trans hrecord)
    have same : refs.Perm (s.referenced repo c) :=
      (List.perm_ext_iff_of_nodup nodup (List.nodup_dedup _)).mpr fun d =>
        (members d).trans mem_referenced.symm
    rw [← total, agrees, (same.map _).sum_eq, sizes]
  · intro agrees
    refine ⟨_, s.referenced repo c, stored, List.nodup_dedup _, fun d => mem_referenced, ?_⟩
    rw [total, agrees, sizes]

/-! ## The two sums, blob by blob -/

theorem mem_heldForeign {d : Digest} : d ∈ s.heldForeign repo c ↔
    (∃ desc ∈ c.parsed.blobs, desc.foreign = true ∧ s.holdsBlob repo desc.digest = true ∧
      desc.digest = d) ∧ d ∉ c.parsed.ordinary.map BlobDesc.digest := by
  simp only [heldForeign, List.mem_filter, List.mem_dedup, List.mem_map, Bool.and_eq_true,
    decide_eq_true_eq, and_assoc]

/-- The blobs referred to are those of the ordinary descriptors and the held foreign ones. -/
theorem referenced_perm : (s.referenced repo c).Perm
    ((BlobDesc.lasts c.parsed.ordinary).map BlobDesc.digest ++ s.heldForeign repo c) := by
  have apart : ∀ d ∈ (BlobDesc.lasts c.parsed.ordinary).map BlobDesc.digest,
      d ∉ s.heldForeign repo c := fun d named held =>
    (mem_heldForeign.mp held).2 (BlobDesc.mem_lasts_digest.mp named)
  have nodup : ((BlobDesc.lasts c.parsed.ordinary).map BlobDesc.digest ++
      s.heldForeign repo c).Nodup :=
    (BlobDesc.lasts_nodup c.parsed.ordinary).append ((List.nodup_dedup _).filter _) apart
  refine (List.perm_ext_iff_of_nodup (List.nodup_dedup _) nodup).mpr fun d => ?_
  rw [List.mem_append, BlobDesc.mem_lasts_digest, mem_heldForeign, List.mem_dedup, recorded]
  simp only [ParsedManifest.ordinary, List.mem_map, List.mem_filter, Bool.or_eq_true,
    Bool.not_eq_true']
  constructor
  · rintro ⟨desc, ⟨mem, kind⟩, rfl⟩
    by_cases named : ∃ other, (other ∈ c.parsed.blobs ∧ other.foreign = false) ∧
        other.digest = desc.digest
    · exact Or.inl named
    · rcases kind with plain | held
      · exact absurd ⟨desc, ⟨mem, plain⟩, rfl⟩ named
      · have foreign : desc.foreign = true := by
          cases kind : desc.foreign with
          | true => rfl
          | false => exact absurd ⟨desc, ⟨mem, kind⟩, rfl⟩ named
        exact Or.inr ⟨⟨desc, mem, foreign, held, rfl⟩, named⟩
  · rintro (⟨desc, ⟨mem, plain⟩, rfl⟩ | ⟨⟨desc, mem, -, held, rfl⟩, -⟩)
    · exact ⟨desc, ⟨mem, Or.inl plain⟩, rfl⟩
    · exact ⟨desc, ⟨mem, Or.inr held⟩, rfl⟩

/-- A blob without a record is held by nobody, so it is left as last declared. -/
theorem sizeLeft_last {desc : BlobDesc} (h : desc ∈ BlobDesc.lasts c.parsed.ordinary) :
    s.sizeLeft repo c desc.digest = s.sizeOf desc := by
  rw [sizeLeft, sizeOf]
  cases known : s.blobRecord desc.digest with
  | some record => rfl
  | none =>
    have unheld : s.holdsBlob repo desc.digest = false := by
      rw [holdsBlob, known]
      rfl
    have same : (s.recorded repo c).filter (fun other => decide (other.digest = desc.digest)) =
        c.parsed.ordinary.filter fun other => decide (other.digest = desc.digest) := by
      rw [recorded, ParsedManifest.ordinary, List.filter_filter, List.filter_filter]
      refine List.filter_congr fun other _ => ?_
      by_cases own : other.digest = desc.digest
      · rw [own, unheld, Bool.or_false]
      · rw [decide_eq_false own, Bool.false_and, Bool.false_and]
    rw [same, BlobDesc.getLast?_of_mem_lasts h]
    rfl

theorem sum_sizeLeft :
    ((s.referenced repo c).map (s.sizeLeft repo c)).sum = s.bytesNamed repo c := by
  rw [(referenced_perm.map _).sum_eq, List.map_append, List.sum_append, List.map_map, bytesNamed,
    foreignBytes]
  congr 2
  · exact List.map_congr_left fun desc h => sizeLeft_last h
  · refine List.map_congr_left fun d h => ?_
    obtain ⟨⟨desc, -, -, held, rfl⟩, -⟩ := mem_heldForeign.mp h
    rw [sizeLeft]
    cases known : s.blobRecord desc.digest with
    | some record => rfl
    | none =>
      rw [holdsBlob, known] at held
      cases held

theorem balanced_iff : s.Balanced repo c ↔ c.parsed.declared = s.bytesNamed repo c := by
  have each (descs : List BlobDesc) :
      (descs.map BlobDesc.size).sum + (descs.map fun desc => s.sizeOf desc - desc.size).sum =
        (descs.map s.sizeOf).sum + (descs.map fun desc => desc.size - s.sizeOf desc).sum := by
    rw [← List.sum_map_add, ← List.sum_map_add]
    refine congrArg List.sum (List.map_congr_left fun desc _ => ?_)
    omega
  have last := each (BlobDesc.lasts c.parsed.ordinary)
  have whole := BlobDesc.sum_sizes c.parsed.ordinary
  rw [Balanced, ParsedManifest.declared, bytesNamed]
  omega

/-- No blob is named twice or held although foreign, and each is declared as recorded. -/
theorem balanced_of_plain (once : BlobDesc.repeats c.parsed.ordinary = [])
    (held : s.heldForeign repo c = [])
    (declared : ∀ desc ∈ c.parsed.ordinary, s.sizeOf desc = desc.size) : s.Balanced repo c := by
  have none (f : BlobDesc → Nat) (h : ∀ desc ∈ c.parsed.ordinary, f desc = 0) :
      ((BlobDesc.lasts c.parsed.ordinary).map f).sum = 0 := by
    refine List.sum_eq_zero fun n hn => ?_
    obtain ⟨desc, mem, rfl⟩ := List.mem_map.mp hn
    exact h desc ((BlobDesc.lasts_sublist _).mem mem)
  rw [Balanced, foreignBytes, once, held]
  rw [none _ fun desc h => by rw [declared desc h, Nat.sub_self],
    none _ fun desc h => by rw [declared desc h, Nat.sub_self]]
  rfl

/-- The total agrees when what is counted too often or too high makes up for what is
left out or too low, and the bytes on record fit a machine word. -/
theorem totalAgrees_iff : s.TotalAgrees (s.pushBatch repo c ts) repo c ↔
    s.Balanced repo c ∧ s.bytesNamed repo c < 2 ^ 64 := by
  rw [totalAgrees_sums, sum_sizeLeft, balanced_iff]
  constructor
  · rintro ⟨fits, same⟩
    exact ⟨same, same ▸ fits⟩
  · rintro ⟨same, fits⟩
    exact ⟨same ▸ fits, same⟩

end Store

/-- For every store and every accepted push: the total agrees with the references
exactly when the blobs named again, the foreign blobs held and the sizes declared other
than recorded cancel out, and what is on record fits a machine word. -/
theorem total_layer_size_iff (oci : Oci) (r r' : Registry) (put : ManifestPut)
    (extraTags : List Text) (planned : Planned PushOutcome)
    (accepted : r.planManifestPutTagged oci put extraTags = (.ok planned, r')) :
    ∃ c id, checkPut oci r.options put = .ok c ∧ r.internRepo put.repo = (.ok id, r') ∧
      (r'.store.TotalAgrees planned.batch id c ↔
        r'.store.Balanced id c ∧ r'.store.bytesNamed id c < 2 ^ 64) := by
  unfold Registry.planManifestPutTagged at accepted
  cases hcheck : checkPut oci r.options put with
  | error e =>
    rw [hcheck] at accepted
    cases accepted
  | ok c =>
    rw [hcheck] at accepted
    obtain ⟨id, interned, plan⟩ := Registry.planInterned_ok accepted
    obtain ⟨-, ts, -, batch⟩ := Store.planPush_ok plan
    refine ⟨c, id, rfl, interned, ?_⟩
    rw [batch]
    exact Store.totalAgrees_iff

/-- A registry that holds the empty config in `app`. -/
def withConfig : Registry :=
  Operation.run imageOci (.withOptions {}) (.commitBlob "app".toList emptyConfig 2 (.fromSecs 1))

theorem total_layer_size_iff_emptyImage : ∃ r' planned,
    withConfig.planManifestPutTagged imageOci imagePut [] = (.ok planned, r') ∧
      ∃ c id, checkPut imageOci withConfig.options imagePut = .ok c ∧
        withConfig.internRepo imagePut.repo = (.ok id, r') ∧
        (r'.store.TotalAgrees planned.batch id c ↔
          r'.store.Balanced id c ∧ r'.store.bytesNamed id c < 2 ^ 64) := by
  have accepted : (withConfig.planManifestPutTagged imageOci imagePut []).1.isOk = true := by
    decide +kernel
  rcases hplan : withConfig.planManifestPutTagged imageOci imagePut [] with ⟨e | planned, r'⟩
  · rw [hplan] at accepted
    cases accepted
  · exact ⟨r', planned, rfl, total_layer_size_iff imageOci withConfig r' imagePut [] planned hplan⟩

/-- The empty image with its config for a layer too. -/
def repeatedImage : Document where
  body := Bytes.utf8 ("\x7b\"schemaVersion\":2,\"config\":".toList ++ descriptor ++
    ",\"layers\":[".toList ++ descriptor ++ "]\x7d".toList)
  sha256 := ⟨[60, 166, 92, 243, 44, 94, 224, 196, 187, 232, 189, 164, 79, 26, 255, 10, 254, 233, 221,
    74, 99, 183, 4, 240, 90, 253, 122, 52, 240, 23, 135, 14], rfl⟩
  image := emptyImage.image.map fun image => { image with layers := [image.config] }
where
  descriptor : Text := "\x7b\"mediaType\":\"".toList ++ EMPTY_CONFIG ++
    "\",\"digest\":\"".toList ++ EMPTY_CONFIG_DIGEST ++ "\",\"size\":2\x7d".toList

def repeatedOci : Oci := .ofDocuments [repeatedImage]

def repeatedPut : ManifestPut where
  repo := "app".toList
  reference := .digest repeatedImage.digest
  body := repeatedImage.body
  contentType := some OCI_MANIFEST
  now := .fromSecs 2

/-- The config is counted twice and stored once. -/
theorem total_layer_size_counts_twice : ¬∀ (oci : Oci) (r r' : Registry) (put : ManifestPut)
    (extraTags : List Text) (planned : Planned PushOutcome),
    r.planManifestPutTagged oci put extraTags = (.ok planned, r') →
      ∃ c id, checkPut oci r.options put = .ok c ∧ r.internRepo put.repo = (.ok id, r') ∧
        r'.store.TotalAgrees planned.batch id c := by
  intro agreesAlways
  have facts : (withConfig.planManifestPutTagged repeatedOci repeatedPut []).1.isOk = true ∧
      (checkPut repeatedOci withConfig.options repeatedPut).toOption.map (fun c =>
        let store := (withConfig.internRepo "app".toList).2.store
        (c.parsed.declared, ((store.referenced 0 c).map (store.sizeLeft 0 c)).sum)) =
        some (4, 2) ∧
      (withConfig.internRepo "app".toList).1.toOption = some 0 := by decide +kernel
  rcases hplan : withConfig.planManifestPutTagged repeatedOci repeatedPut [] with ⟨e | planned, r'⟩
  · rw [hplan] at facts
    cases facts.1
  · obtain ⟨-, sums, first⟩ := facts
    obtain ⟨c, id, checked, interned, agrees⟩ := agreesAlways repeatedOci withConfig r' repeatedPut [] planned hplan
    have named : withConfig.internRepo "app".toList = (.ok id, r') := interned
    rw [named] at sums first
    rw [checked] at sums
    obtain rfl : id = 0 := Option.some.inj first
    unfold Registry.planManifestPutTagged at hplan
    rw [checked] at hplan
    obtain ⟨id', interned', plan⟩ := Registry.planInterned_ok hplan
    obtain ⟨-, ts, -, batch⟩ := Store.planPush_ok plan
    cases interned'.symm.trans interned
    rw [batch] at agrees
    have equal := (Store.totalAgrees_sums.mp agrees).2
    obtain ⟨four, two⟩ := Prod.mk.inj (Option.some.inj sums)
    rw [four, two] at equal
    cases equal

end Summ
