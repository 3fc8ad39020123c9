import Summ.Lib.Listing
import Summ.Registry.Discovery
import Summ.Registry.Queries

/-!
# The pages of the registry's listings

Every listing is a scan of one prefix from a cursor the client hands back, and a
row for each key. `Store.serves_scanFrom` says once what such a page holds; the
pages of tags, of a manifest's tags, of manifests, of untagged manifests and of
names are its cases.
-/

namespace Summ

/-- `list_repos`. -/
def Store.listRepos (s : Store) (startAfter : Option Text) (limit : Nat) : RepoList :=
  s.searchRepos .rocks [] startAfter limit

theorem Page.exists_rows {κ V α : Type*} {row : κ × V → Option α} {key : α → κ}
    {l : List (κ × V)} (made : ∀ e ∈ l, ∃ a, row e = some a ∧ key a = e.1) :
    l.map row = (l.filterMap row).map some ∧ l.map Prod.fst = (l.filterMap row).map key := by
  induction l with
  | nil => exact ⟨rfl, rfl⟩
  | cons e l ih =>
    obtain ⟨rows, keyed⟩ := ih fun e he => made e (List.mem_cons_of_mem _ he)
    obtain ⟨a, ha, hk⟩ := made e List.mem_cons_self
    rw [List.filterMap_cons_some ha, List.map_cons, List.map_cons, List.map_cons, List.map_cons,
      rows, keyed, ha, hk]
    exact ⟨rfl, rfl⟩

namespace Store

section Scan
variable {α γ : Type} {p : Scan} (row : Key × Value → Option α) (key : α → Key) (cursor : α → γ)
  (beyond : γ → α → Bool) (place : γ → Bytes) (last : Key → Option γ) {limit : Nat}

/-- A page of a scan whose keys each make a row. -/
theorem serves_scanFrom (s : Store) (paged : p.paged = true) (whole : p ≠ .repoBlobs)
    (made : ∀ k v, p.covers k = true → s.get k = some v → ∃ a, row (k, v) = some a ∧ key a = k)
    (within : ∀ n, p.bytes <+: place n)
    (placed : ∀ n a, p.covers (key a) = true → (beyond n a = true ↔ place n < (key a).bytes))
    (ends : ∀ a, p.covers (key a) = true → last (key a) = some (cursor a)) (pos : 0 < limit)
    (c : Option γ) :
    Listing.Serves (fun a b => key a < key b) beyond cursor limit
      (fun a => ∃ v, p.covers (key a) = true ∧ s.get (key a) = some v ∧ row (key a, v) = some a) c
      ((s.scanFrom p (c.map place) limit).entries.filterMap row)
      ((s.scanFrom p (c.map place) limit).next.bind last) := by
  have rowed : ∀ e ∈ s.underFrom p none, ∃ a, row e = some a ∧ key a = e.1 := by
    rintro ⟨k, v⟩ he
    obtain ⟨covers, -, stored⟩ := mem_underFrom.mp he
    exact made k v covers stored
  obtain ⟨total, keyed⟩ := Page.exists_rows rowed
  have covered : ∀ a ∈ (s.underFrom p none).filterMap row, p.covers (key a) = true := by
    intro a ha
    have mem : key a ∈ (s.underFrom p none).map Prod.fst := by
      rw [keyed]
      exact List.mem_map_of_mem ha
    obtain ⟨⟨k, v⟩, he, hk⟩ := List.mem_map.mp mem
    exact hk ▸ (mem_underFrom.mp he).1
  have after : s.underFrom p (c.map place) =
      (s.underFrom p none).filter fun e => (c.map place).all fun b => decide (b < e.1.bytes) := by
    simp only [underFrom, OrderedMap.entriesWhere, List.filter_filter, Option.all_none,
      Bool.and_true]
    exact List.filter_congr fun e _ => Bool.and_comm _ _
  have kept := Page.filter_rows total keyed
    (p := fun k => (c.map place).all fun b => decide (b < k.bytes))
    (q := fun a => c.all fun n => beyond n a) (fun a ha => by
      cases c with
      | none => rfl
      | some n =>
        rw [Bool.eq_iff_iff]
        simpa using (placed n a (covered a ha)).symm)
  rw [← after] at kept
  have cut := s.scanFrom_cut paged whole (c := c.map place) (by
    intro b hb
    obtain ⟨n, -, rfl⟩ := Option.map_eq_some_iff.mp hb
    exact within n) pos
  refine ⟨(s.underFrom p none).filterMap row, ?_, ?_, ?_, ?_⟩
  · have sorted : (((s.underFrom p none).filterMap row).map key).Pairwise (· < ·) := by
      rw [← keyed, List.pairwise_map]
      exact s.underFrom_sorted p none
    exact List.pairwise_map.mp sorted
  · intro a
    rw [List.mem_filterMap]
    constructor
    · rintro ⟨⟨k, v⟩, he, ha⟩
      obtain ⟨covers, -, stored⟩ := mem_underFrom.mp he
      obtain ⟨a', ha', rfl⟩ := rowed _ he
      cases Option.some.inj (ha.symm.trans ha')
      exact ⟨v, covers, stored, ha⟩
    · rintro ⟨v, covers, stored, ha⟩
      exact ⟨(key a, v), mem_underFrom.mpr ⟨covers, fun b hb => (by cases hb), stored⟩, ha⟩
  · rw [cut, Page.cut_rows kept]
    rfl
  · have made' : ∀ e ∈ s.underFrom p (c.map place), ∀ a, row e = some a →
        some (cursor a) = last e.1 := by
      rintro ⟨k, v⟩ he a ha
      obtain ⟨covers, -, stored⟩ := mem_underFrom.mp he
      obtain ⟨a', ha', hk⟩ := made k v covers stored
      cases Option.some.inj (ha.symm.trans ha')
      rw [← ends a (hk ▸ covers), hk]
    have next := congrArg Option.join (Page.cut_next_rows kept made' limit)
    have bind (k : Option Key) : (k.map last).join = k.bind last := by cases k <;> rfl
    have joined (a : Option α) : (a.map fun a => some (cursor a)).join = a.map cursor := by
      cases a <;> rfl
    rw [bind] at next
    rw [cut, Page.cut_rows kept, next]
    split
    · rename_i more
      rw [joined]
      exact (if_pos more).symm
    · rename_i more
      exact (if_neg more).symm

end Scan

end Store

/-! ## The orders of the listings -/

def Tag.Before (a b : Tag) : Prop := Bytes.utf8 a.text < Bytes.utf8 b.text

def Tag.beyond (n : Text) (t : Tag) : Bool := decide (Bytes.utf8 n < Bytes.utf8 t.text)

def Digest.Before (a b : Digest) : Prop := a.encode < b.encode

def Digest.beyond (n d : Digest) : Bool := decide (n.encode < d.encode)

/-- A page of tags. -/
def TagList.Serves (page : TagList) (stored : Tag → Prop) (startAfter : Option Text) (limit : Nat) :
    Prop :=
  ∃ rows : List Tag, page.tags = rows.map Tag.text ∧
    Listing.Serves Tag.Before Tag.beyond Tag.text limit stored startAfter rows page.next

/-- What a head request tells of a record. -/
def ManifestHead.of (record : ManifestRecord) : ManifestHead where
  digest := record.digest
  mediaType := record.mediaType
  size := record.size

/-- A page of manifests, each as a head request tells it. -/
def ManifestList.Serves (page : ManifestList) (stored : ManifestHead → Prop)
    (startAfter : Option Digest) (limit : Nat) : Prop :=
  Listing.Serves (fun a b : ManifestHead => a.digest.Before b.digest)
    (fun n a => Digest.beyond n a.digest) ManifestHead.digest limit stored startAfter
    (page.manifests.map .of) page.next

/-- A page of the digests that are `kept`. -/
def DigestList.Serves (page : DigestList) (stored : Digest → Prop) (kept : Digest → Bool)
    (startAfter : Option Digest) (limit : Nat) : Prop :=
  ∃ rows : List Digest, page.digests = rows.filter kept ∧
    Listing.Serves Digest.Before Digest.beyond id limit stored startAfter rows page.next

/-- A page of names. -/
def RepoList.Serves (page : RepoList) (stored : Text → Prop) (startAfter : Option Text)
    (limit : Nat) : Prop :=
  Listing.Serves (fun a b : Text => Bytes.utf8 a < Bytes.utf8 b)
    (fun n a => decide (Bytes.utf8 n < Bytes.utf8 a)) id limit stored startAfter page.repos page.next

/-! ## The row of an entry, and the cursor of a key -/

namespace Key

def tagText : Key → Option Text
  | tag _ t => some t.text
  | _ => none

def edgeText : Key → Option Text
  | manifestTag _ _ t => some t.text
  | _ => none

def manifestDigest : Key → Option Digest
  | manifest _ digest => some digest
  | _ => none

def memberDigest : Key → Option Digest
  | repoBlob _ digest => some digest
  | _ => none

end Key

def tagRow : Key × Value → Option Tag
  | (.tag _ t, _) => some t
  | _ => none

def edgeRow : Key × Value → Option Tag
  | (.manifestTag _ _ t, _) => some t
  | _ => none

def headRow : Key × Value → Option ManifestHead
  | (_, .manifest record) => some (.of record)
  | _ => none

def memberRow : Key × Value → Option (Digest × Nat)
  | (.repoBlob _ digest, .repoBlob record) => some (digest, record.size)
  | _ => none

namespace Store

variable {s : Store} {repo : RepoId} {limit : Nat}

theorem tagPage_serves (s : Store) (repo : RepoId) (pos : 0 < limit) (startAfter : Option Text) :
    (s.tagPage repo startAfter limit).Serves (fun t => s.has (.tag repo t) = true) startAfter
      limit := by
  have made (k : Key) (v : Value) (covers : (Scan.tagsInRepo repo).covers k = true)
      (_ : s.get k = some v) : ∃ t, tagRow (k, v) = some t ∧ Key.tag repo t = k := by
    cases k with
    | tag r t =>
      obtain rfl : repo = r := by simpa [Scan.covers] using covers
      exact ⟨t, rfl, rfl⟩
    | _ => cases covers
  have page := s.serves_scanFrom tagRow (Key.tag repo) Tag.text Tag.beyond
    (fun t => keys.tagsInRepo repo ++ Bytes.utf8 t) Key.tagText rfl
    (by simp : Scan.tagsInRepo repo ≠ .repoBlobs) made (fun n => List.prefix_append _ _)
    (fun n t _ => decide_eq_true_iff.trans Bytes.append_lt_append_left.symm) (fun _ _ => rfl) pos
    startAfter
  refine ⟨_, ?_, page.congr (fun a b => ?_) fun t => ?_⟩
  · rw [tagPage, List.map_filterMap]
    refine List.filterMap_congr fun e _ => ?_
    obtain ⟨k, v⟩ := e
    cases k <;> rfl
  · rw [Key.lt_iff]
    exact Bytes.append_lt_append_left
  · rw [has, Option.isSome_iff_exists]
    exact exists_congr fun v => by simp [Scan.covers, tagRow]

theorem tagsOfPage_serves (s : Store) (repo : RepoId) (digest : Digest) (pos : 0 < limit)
    (startAfter : Option Text) :
    (s.tagsOfPage repo digest startAfter limit).Serves
      (fun t => s.has (.manifestTag repo digest t) = true) startAfter limit := by
  have made (k : Key) (v : Value) (covers : (Scan.tagsOfManifest repo digest).covers k = true)
      (_ : s.get k = some v) : ∃ t, edgeRow (k, v) = some t ∧ Key.manifestTag repo digest t = k := by
    cases k with
    | manifestTag r d t =>
      obtain ⟨rfl, rfl⟩ : repo = r ∧ digest = d := by simpa [Scan.covers] using covers
      exact ⟨t, rfl, rfl⟩
    | _ => cases covers
  have page := s.serves_scanFrom edgeRow (Key.manifestTag repo digest) Tag.text Tag.beyond
    (fun t => keys.tagsOfManifest repo digest ++ Bytes.utf8 t) Key.edgeText rfl
    (by simp : Scan.tagsOfManifest repo digest ≠ .repoBlobs) made
    (fun n => List.prefix_append _ _)
    (fun n t _ => decide_eq_true_iff.trans Bytes.append_lt_append_left.symm) (fun _ _ => rfl) pos
    startAfter
  refine ⟨_, ?_, page.congr (fun a b => ?_) fun t => ?_⟩
  · rw [tagsOfPage, List.map_filterMap]
    refine List.filterMap_congr fun e _ => ?_
    obtain ⟨k, v⟩ := e
    cases k <;> rfl
  · rw [Key.lt_iff]
    exact Bytes.append_lt_append_left
  · rw [has, Option.isSome_iff_exists]
    exact exists_congr fun v => by simp [Scan.covers, edgeRow]

theorem manifestPage_serves (s : Store) (repo : RepoId)
    (filed : ∀ d record, s.manifestRecord repo d = some record → record.digest = d) (pos : 0 < limit)
    (startAfter : Option Digest) :
    (s.manifestPage repo startAfter limit).Serves
      (fun head => ∃ record, s.manifestRecord repo head.digest = some record ∧ .of record = head)
      startAfter limit := by
  have made (k : Key) (v : Value) (covers : (Scan.manifestsInRepo repo).covers k = true)
      (stored : s.get k = some v) :
      ∃ head, headRow (k, v) = some head ∧ Key.manifest repo head.digest = k := by
    cases k with
    | manifest r d =>
      obtain rfl : repo = r := by simpa [Scan.covers] using covers
      have fits := fits_of_get stored
      cases v with
      | manifest record =>
        have digest := filed d record (manifestRecord_eq_some.mpr stored)
        exact ⟨_, rfl, congrArg _ digest⟩
      | _ => cases fits
    | _ => cases covers
  have page := s.serves_scanFrom headRow (fun head => Key.manifest repo head.digest)
    ManifestHead.digest (fun n head => Digest.beyond n head.digest)
    (fun n => (Key.manifest repo n).bytes) Key.manifestDigest rfl (by simp : Scan.manifestsInRepo repo ≠ .repoBlobs)
    made (fun n => List.prefix_append _ _)
    (fun n head _ => decide_eq_true_iff.trans Bytes.append_lt_append_left.symm) (fun _ _ => rfl) pos
    startAfter
  have scan : s.scan (.manifestsInRepo repo) (startAfter.map (Key.manifest repo)) limit =
      s.scanFrom (.manifestsInRepo repo) (startAfter.map fun n => (Key.manifest repo n).bytes)
        limit := by
    rw [← scanFrom_key, Option.map_map]
    rfl
  have rows : (s.manifestPage repo startAfter limit).manifests.map .of =
      (s.scan (.manifestsInRepo repo) (startAfter.map (Key.manifest repo)) limit).entries.filterMap
        headRow := by
    rw [manifestPage, List.map_filterMap]
    refine List.filterMap_congr fun e _ => ?_
    obtain ⟨k, v⟩ := e
    cases v <;> rfl
  rw [ManifestList.Serves, rows, scan]
  have next : (s.manifestPage repo startAfter limit).next = (s.scanFrom (.manifestsInRepo repo)
      (startAfter.map fun n => (Key.manifest repo n).bytes) limit).next.bind
        Key.manifestDigest := by
    rw [← scan]
    rfl
  rw [next]
  refine page.congr (fun a b => ?_) fun head => ?_
  · rw [Key.lt_iff]
    exact Bytes.append_lt_append_left
  · constructor
    · rintro ⟨v, -, stored, made⟩
      have fits := fits_of_get stored
      cases v with
      | manifest record => exact ⟨record, manifestRecord_eq_some.mpr stored, Option.some.inj made⟩
      | _ => cases fits
    · rintro ⟨record, stored, rfl⟩
      exact ⟨.manifest record, by simp [Scan.covers], manifestRecord_eq_some.mp stored, rfl⟩

theorem untaggedPage_serves (s : Store) (repo : RepoId) (pos : 0 < limit)
    (startAfter : Option Digest) :
    (s.untaggedPage repo startAfter limit).Serves (fun d => s.has (.manifest repo d) = true)
      (fun d => !s.existsPrefix (.tagsOfManifest repo d)) startAfter limit := by
  let row (e : Key × Value) : Option Digest := Key.manifestDigest e.1
  have made (k : Key) (v : Value) (covers : (Scan.manifestsInRepo repo).covers k = true)
      (_ : s.get k = some v) : ∃ d, row (k, v) = some d ∧ Key.manifest repo d = k := by
    cases k with
    | manifest r d =>
      obtain rfl : repo = r := by simpa [Scan.covers] using covers
      exact ⟨d, rfl, rfl⟩
    | _ => cases covers
  have page := s.serves_scanFrom row (Key.manifest repo) id Digest.beyond
    (fun n => (Key.manifest repo n).bytes) Key.manifestDigest rfl
    (by simp : Scan.manifestsInRepo repo ≠ .repoBlobs) made (fun n => List.prefix_append _ _)
    (fun n d _ => decide_eq_true_iff.trans Bytes.append_lt_append_left.symm) (fun _ _ => rfl) pos
    startAfter
  have scan : s.scan (.manifestsInRepo repo) (startAfter.map (Key.manifest repo)) limit =
      s.scanFrom (.manifestsInRepo repo) (startAfter.map fun n => (Key.manifest repo n).bytes)
        limit := by
    rw [← scanFrom_key, Option.map_map]
    rfl
  refine ⟨(s.scan (.manifestsInRepo repo) (startAfter.map (Key.manifest repo))
    limit).entries.filterMap row, ?_, ?_⟩
  · exact List.filter_filterMap.symm
  · have next : (s.untaggedPage repo startAfter limit).next = (s.scanFrom (.manifestsInRepo repo)
        (startAfter.map fun n => (Key.manifest repo n).bytes) limit).next.bind
        Key.manifestDigest := by
      rw [← scan]
      rfl
    rw [next, scan]
    refine page.congr (fun a b => ?_) fun d => ?_
    · rw [Key.lt_iff]
      exact Bytes.append_lt_append_left
    · rw [has, Option.isSome_iff_exists]
      exact exists_congr fun v => by simp [Scan.covers, row, Key.manifestDigest]

theorem listRepos_serves (s : Store) (pos : 0 < limit) (startAfter : Option Text) :
    (s.listRepos startAfter limit).Serves (fun name => s.has (.repoByName name) = true) startAfter
      limit := by
  have none_below : ¬∃ c ∈ startAfter, ∃ name, s.has (.repoByName name) = true ∧
      Bytes.utf8 c < Bytes.utf8 name ∧ Bytes.utf8 name < Bytes.utf8 [] := by
    rintro ⟨c, -, name, -, -, below⟩
    rw [Bytes.utf8_nil] at below
    exact List.not_lt_nil _ below
  rw [listRepos, searchRepos_no_gap _ _ _ .rocks pos none_below]
  have rows : s.matching [] startAfter = Listing.left
      (fun n a : Text => decide (Bytes.utf8 n < Bytes.utf8 a)) startAfter s.repoNames := by
    rw [matching, Listing.left]
    refine List.filter_congr fun name _ => ?_
    simp [Bytes.utf8]
  refine ⟨s.repoNames, s.repoNames_sorted, fun name => mem_repoNames, ?_, ?_⟩
  · rw [rows]
  · dsimp only
    rw [rows]
    split
    · rw [Option.map_id]
      rfl
    · rfl

end Store

end Summ
