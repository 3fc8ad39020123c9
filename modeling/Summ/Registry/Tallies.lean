import Summ.Registry.Pages

/-!
# Counting a page at a time

There is no stored count of a repository's tags, manifests or blobs, nor of its
bytes. `count_tags`, `count_manifests` and `repo_usage` count one page of keys.
-/

namespace Summ

structure TagCountPage where
  tags : Nat
  next : Option Text
  deriving DecidableEq

structure ManifestCountPage where
  manifests : Nat
  next : Option Digest
  deriving DecidableEq

structure RepoUsagePage where
  blobs : Nat
  bytes : Nat
  next : Option Digest
  deriving DecidableEq

namespace Store

variable (s : Store) (repo : RepoId)

def tagCountPage (startAfter : Option Text) (limit : Nat) : TagCountPage :=
  let page := s.scanFrom (.tagsInRepo repo)
    (startAfter.map fun t => keys.tagsInRepo repo ++ Bytes.utf8 t) limit
  { tags := page.entries.length
    next := page.next.bind fun
      | .tag _ t => some t.text
      | _ => none }

def manifestCountPage (startAfter : Option Digest) (limit : Nat) : ManifestCountPage :=
  let page := s.scanFrom (.manifestsInRepo repo)
    (startAfter.map fun d => (Key.manifest repo d).bytes) limit
  { manifests := page.entries.length
    next := page.next.bind fun
      | .manifest _ digest => some digest
      | _ => none }

/-- The sum wraps as the machine's does. -/
def usagePage (startAfter : Option Digest) (limit : Nat) : RepoUsagePage :=
  let page := s.scanFrom (.blobsInRepo repo)
    (startAfter.map fun d => (Key.repoBlob repo d).bytes) limit
  { blobs := page.entries.length
    bytes := (page.entries.filterMap fun
      | (_, .repoBlob record) => some record.size
      | _ => none).sum % 2 ^ 64
    next := page.next.bind fun
      | .repoBlob _ digest => some digest
      | _ => none }

end Store

namespace Registry

variable (r : Registry)

def countTags (name : Text) (startAfter : Option Text) (limit : Nat) :
    Except RegistryError TagCountPage × Registry :=
  r.readIn name fun s repo => .ok (s.tagCountPage repo startAfter limit)

def countManifests (name : Text) (startAfter : Option Digest) (limit : Nat) :
    Except RegistryError ManifestCountPage × Registry :=
  r.readIn name fun s repo => .ok (s.manifestCountPage repo startAfter limit)

def repoUsage (name : Text) (startAfter : Option Digest) (limit : Nat) :
    Except RegistryError RepoUsagePage × Registry :=
  r.readIn name fun s repo => .ok (s.usagePage repo startAfter limit)

end Registry

namespace Store

variable {s : Store} {repo : RepoId} {limit : Nat}

/-- A page counts the rows it would list. -/
theorem length_rows {α : Type} {p : Scan} {row : Key × Value → Option α} (paged : p.paged = true)
    (whole : p ≠ .repoBlobs) (pos : 0 < limit) {c : Option Bytes} (within : ∀ b ∈ c, p.bytes <+: b)
    (made : ∀ k v, p.covers k = true → s.get k = some v → ∃ a, row (k, v) = some a) :
    ((s.scanFrom p c limit).entries.filterMap row).length = (s.scanFrom p c limit).entries.length := by
  have rowed : ∀ e ∈ (s.scanFrom p c limit).entries, (row e).isSome = true := by
    rintro ⟨k, v⟩ he
    rw [s.scanFrom_cut paged whole within pos] at he
    obtain ⟨covers, -, stored⟩ := mem_underFrom.mp (List.mem_of_mem_take he)
    exact Option.isSome_iff_exists.mpr (made k v covers stored)
  exact List.filterMap_length_eq_length.mpr rowed

/-- What is counted of a page of tags. -/
theorem tagCountPage_eq (s : Store) (repo : RepoId) (pos : 0 < limit) (startAfter : Option Text) :
    s.tagCountPage repo startAfter limit =
      { tags := (s.tagPage repo startAfter limit).tags.length
        next := (s.tagPage repo startAfter limit).next } := by
  let row (e : Key × Value) : Option Text := Key.tagText e.1
  have made (k : Key) (v : Value) (covers : (Scan.tagsInRepo repo).covers k = true)
      (_ : s.get k = some v) : ∃ t, row (k, v) = some t := by
    cases k with
    | tag r t => exact ⟨t.text, rfl⟩
    | _ => cases covers
  have within : ∀ b ∈ startAfter.map fun t => keys.tagsInRepo repo ++ Bytes.utf8 t,
      (Scan.tagsInRepo repo).bytes <+: b := by
    intro b hb
    obtain ⟨t, -, rfl⟩ := Option.map_eq_some_iff.mp hb
    exact List.prefix_append _ _
  have rows := length_rows rfl (by simp : Scan.tagsInRepo repo ≠ .repoBlobs) pos within made
  rw [tagCountPage, ← rows]
  rfl

theorem manifestCountPage_serves (s : Store) (repo : RepoId) (pos : 0 < limit)
    (startAfter : Option Digest) :
    ∃ rows : List Digest, (s.manifestCountPage repo startAfter limit).manifests = rows.length ∧
      Listing.Serves Digest.Before Digest.beyond id limit
        (fun d => s.has (.manifest repo d) = true) startAfter rows
        (s.manifestCountPage repo startAfter limit).next := by
  let row (e : Key × Value) : Option Digest := Key.manifestDigest e.1
  have made (k : Key) (v : Value) (covers : (Scan.manifestsInRepo repo).covers k = true)
      (_ : s.get k = some v) : ∃ d, row (k, v) = some d ∧ Key.manifest repo d = k := by
    cases k with
    | manifest r d =>
      obtain rfl : repo = r := by simpa [Scan.covers] using covers
      exact ⟨d, rfl, rfl⟩
    | _ => cases covers
  have page := s.serves_scanFrom row (Key.manifest repo) id Digest.beyond
    (fun n => (Key.manifest repo n).bytes) Key.manifestDigest rfl
    (by simp : Scan.manifestsInRepo repo ≠ .repoBlobs) made (fun n => List.prefix_append _ _)
    (fun n d _ => decide_eq_true_iff.trans Bytes.append_lt_append_left.symm) (fun _ _ => rfl) pos
    startAfter
  have within : ∀ b ∈ startAfter.map fun d => (Key.manifest repo d).bytes,
      (Scan.manifestsInRepo repo).bytes <+: b := by
    intro b hb
    obtain ⟨d, -, rfl⟩ := Option.map_eq_some_iff.mp hb
    exact List.prefix_append _ _
  have counted := length_rows rfl (by simp : Scan.manifestsInRepo repo ≠ .repoBlobs) pos within
    (fun k v covers stored => (made k v covers stored).imp fun _ h => h.1)
  refine ⟨_, counted.symm, page.congr (fun a b => ?_) fun d => ?_⟩
  · rw [Key.lt_iff]
    exact Bytes.append_lt_append_left
  · rw [has, Option.isSome_iff_exists]
    exact exists_congr fun v => by simp [Scan.covers, row, Key.manifestDigest]

/-- A page of usage counts memberships, each with its size. -/
theorem usagePage_serves (s : Store) (repo : RepoId) (pos : 0 < limit) (startAfter : Option Digest) :
    ∃ rows : List (Digest × Nat), (s.usagePage repo startAfter limit).blobs = rows.length ∧
      (s.usagePage repo startAfter limit).bytes = (rows.map Prod.snd).sum % 2 ^ 64 ∧
      Listing.Serves (fun a b : Digest × Nat => a.1.Before b.1) (fun n a => Digest.beyond n a.1)
        Prod.fst limit
        (fun a => ∃ record, s.repoBlobRecord repo a.1 = some record ∧ record.size = a.2) startAfter
        rows (s.usagePage repo startAfter limit).next := by
  have made (k : Key) (v : Value) (covers : (Scan.blobsInRepo repo).covers k = true)
      (stored : s.get k = some v) : ∃ a, memberRow (k, v) = some a ∧ Key.repoBlob repo a.1 = k := by
    cases k with
    | repoBlob r d =>
      obtain rfl : repo = r := by simpa [Scan.covers] using covers
      have fits := fits_of_get stored
      cases v with
      | repoBlob record => exact ⟨(d, record.size), rfl, rfl⟩
      | _ => cases fits
    | _ => cases covers
  have page := s.serves_scanFrom memberRow (fun a => Key.repoBlob repo a.1) Prod.fst
    (fun n a => Digest.beyond n a.1) (fun n => (Key.repoBlob repo n).bytes) Key.memberDigest rfl
    (by simp : Scan.blobsInRepo repo ≠ .repoBlobs) made (fun n => List.prefix_append _ _)
    (fun n a _ => decide_eq_true_iff.trans Bytes.append_lt_append_left.symm) (fun _ _ => rfl) pos
    startAfter
  have within : ∀ b ∈ startAfter.map fun d => (Key.repoBlob repo d).bytes,
      (Scan.blobsInRepo repo).bytes <+: b := by
    intro b hb
    obtain ⟨d, -, rfl⟩ := Option.map_eq_some_iff.mp hb
    exact List.prefix_append _ _
  have counted := length_rows rfl (by simp : Scan.blobsInRepo repo ≠ .repoBlobs) pos within
    (fun k v covers stored => (made k v covers stored).imp fun _ h => h.1)
  refine ⟨_, counted.symm, ?_, page.congr (fun a b => ?_) fun a => ?_⟩
  · rw [usagePage, List.map_filterMap]
    refine congrArg (List.sum · % 2 ^ 64) (List.filterMap_congr fun e he => ?_)
    obtain ⟨k, v⟩ := e
    rw [s.scanFrom_cut rfl (by simp) within pos] at he
    obtain ⟨covers, -, stored⟩ := mem_underFrom.mp (List.mem_of_mem_take he)
    cases k with
    | repoBlob r d =>
      have fits := fits_of_get stored
      cases v with
      | repoBlob record => rfl
      | _ => cases fits
    | _ => cases covers
  · rw [Key.lt_iff]
    exact Bytes.append_lt_append_left
  · obtain ⟨d, size⟩ := a
    constructor
    · rintro ⟨v, -, stored, made⟩
      have fits := fits_of_get stored
      cases v with
      | repoBlob record =>
        exact ⟨record, repoBlobRecord_eq_some.mpr stored, congrArg Prod.snd (Option.some.inj made)⟩
      | _ => cases fits
    · rintro ⟨record, stored, rfl⟩
      exact ⟨.repoBlob record, by simp [Scan.covers], repoBlobRecord_eq_some.mp stored, rfl⟩

end Store

end Summ
