import Summ.Meta.Engine

/-!
# Paging a scan prefix with the engine's cursors

`Store.pages` follows the cursors from `None` to the page that carries none.
Over every prefix that is paged, but one, a cursor sees all that lies after it;
over the whole membership range it sees the rest of its own repository.
-/

namespace Summ

open keys Rocks

/-! ## Which prefixes the extractor groups -/

theorem inDomain_of_len {key : Bytes} {n : Nat} (h : summPrefixLen key = some n)
    (long : n ≤ key.length) : summInDomain key = true := by
  simp only [summInDomain, h, long, decide_true]

theorem not_inDomain {t : Byte} {rest : Bytes}
    (h : t ∈ [PREFIX_BLOB, PREFIX_BLOB_MARK, PREFIX_UPLOAD, PREFIX_DEAD_REPO,
      PREFIX_REPO_BY_NAME]) : summInDomain (t :: rest) = false := by
  have len : summPrefixLen (t :: rest) = none := by
    simp only [List.mem_cons, List.not_mem_nil, or_false] at h
    rcases h with rfl | rfl | rfl | rfl | rfl <;> rfl
  simp only [summInDomain, len]

theorem len_startRepo {t : Byte} {repo : RepoId}
    (h : t ∈ [PREFIX_MANIFEST, PREFIX_MANIFEST_BODY, PREFIX_TAG, PREFIX_REPO_BLOB,
      PREFIX_TAG_HISTORY, PREFIX_MANIFEST_TAG_HISTORY]) :
    summPrefixLen (startRepo t repo) = some (startRepo t repo).length := by
  have length : (startRepo t repo).length = 5 := by simp [startRepo]
  rw [length]
  simp only [List.mem_cons, List.not_mem_nil, or_false] at h
  rcases h with rfl | rfl | rfl | rfl | rfl | rfl <;> rfl

theorem len_startRepo_digest {t : Byte} {repo : RepoId} {digest : Digest}
    (h : t ∈ [PREFIX_MANIFEST_TAG, PREFIX_CHILD_PARENT, PREFIX_REFERRER]) :
    summPrefixLen (startRepo t repo ++ digest.encode) =
      some (startRepo t repo ++ digest.encode).length := by
  have algo : (startRepo t repo ++ digest.encode)[5]? = some digest.algoByte := by
    rw [List.getElem?_append_right (by simp [startRepo])]
    simp [startRepo, Digest.encode]
  have ne : ¬ t = PREFIX_BLOB_REF := by
    rintro rfl
    exact absurd h (by decide)
  have length : (startRepo t repo ++ digest.encode).length = 1 + 4 + digest.encodedLen := by
    simp [startRepo]
    omega
  rw [length]
  unfold summPrefixLen
  rw [algo]
  simp only [startRepo, List.cons_append, List.getElem?_cons_zero, Option.bind_eq_bind,
    Option.bind_some, if_neg ne, if_pos h, Digest.encodedLenOf_algoByte, Option.pure_def]

theorem len_blobRefs {digest : Digest} :
    summPrefixLen (blobRefs digest) = some (blobRefs digest).length := by
  have length : (blobRefs digest).length = 1 + digest.encodedLen := by
    simp [blobRefs, Nat.add_comm]
  rw [length]
  unfold summPrefixLen
  simp [blobRefs, Digest.encode, Digest.encodedLenOf_algoByte]

theorem len_countersOfManifest {repo : RepoId} {digest : Digest} :
    summPrefixLen (countersOfManifest repo digest) =
      some (countersOfManifest repo digest).length := by
  have algo : (countersOfManifest repo digest)[6]? = some digest.algoByte := by
    rw [countersOfManifest, List.getElem?_append_right (by simp [startCounter])]
    simp [startCounter, Digest.encode]
  have length : (countersOfManifest repo digest).length = 2 + 4 + digest.encodedLen := by
    simp [countersOfManifest, startCounter]
    omega
  rw [length]
  unfold summPrefixLen
  rw [algo]
  simp [countersOfManifest, startCounter, Digest.encodedLenOf_algoByte, PREFIX_COUNTER,
    PREFIX_BLOB_REF, PREFIX_MANIFEST_TAG, PREFIX_CHILD_PARENT, PREFIX_REFERRER]

theorem len_startCounter {scope : Byte} {repo : RepoId} (h : scope ∈ [SCOPE_TAG, SCOPE_REPO]) :
    summPrefixLen (startCounter scope repo) = some (startCounter scope repo).length := by
  have length : (startCounter scope repo).length = 6 := by simp [startCounter]
  rw [length]
  simp only [List.mem_cons, List.not_mem_nil, or_false] at h
  rcases h with rfl | rfl <;> rfl

theorem inDomain_startRepo {t : Byte} {repo : RepoId}
    (h : t ∈ [PREFIX_MANIFEST, PREFIX_MANIFEST_BODY, PREFIX_TAG, PREFIX_REPO_BLOB,
      PREFIX_TAG_HISTORY, PREFIX_MANIFEST_TAG_HISTORY]) :
    summInDomain (startRepo t repo) = true :=
  inDomain_of_len (len_startRepo h) le_rfl

theorem inDomain_startRepo_digest {t : Byte} {repo : RepoId} {digest : Digest}
    (h : t ∈ [PREFIX_MANIFEST_TAG, PREFIX_CHILD_PARENT, PREFIX_REFERRER]) :
    summInDomain (startRepo t repo ++ digest.encode) = true :=
  inDomain_of_len (len_startRepo_digest h) le_rfl

theorem inDomain_blobRefs {digest : Digest} : summInDomain (blobRefs digest) = true :=
  inDomain_of_len len_blobRefs le_rfl

theorem inDomain_countersOfManifest {repo : RepoId} {digest : Digest} :
    summInDomain (countersOfManifest repo digest) = true :=
  inDomain_of_len len_countersOfManifest le_rfl

theorem inDomain_startCounter {scope : Byte} {repo : RepoId}
    (h : scope ∈ [SCOPE_TAG, SCOPE_REPO]) : summInDomain (startCounter scope repo) = true :=
  inDomain_of_len (len_startCounter h) le_rfl

/-- The scan prefixes some caller pages with a cursor. -/
def Scan.paged : Scan → Bool
  | .manifestsInRepo _ | .tagsInRepo _ | .tagsOfManifest .. | .blobs | .blobRefs _
  | .blobRefsInRepo .. | .blobsInRepo _ | .repoBlobs | .parentsOf .. | .referrersOf ..
  | .uploads | .tagHistoryOf .. | .manifestTagHistoryOf .. | .countersOfManifest ..
  | .countersOfTag .. | .countersOfRepo _ | .deadRepos | .reposByName | .reposNamed _ => true
  | _ => false

/-- A paged prefix lies in one group, or its keys in none. -/
theorem Scan.paged_grouped {p : Scan} (paged : p.paged = true) (whole : p ≠ .repoBlobs) :
    summInDomain p.bytes = true ∨ ∀ rest, summInDomain (p.bytes ++ rest) = false := by
  have extend {base pre : Bytes} (h : summInDomain base = true) (hp : base <+: pre) :
      summInDomain pre = true := (inDomain_extend h hp).1
  cases p with
  | manifestsInRepo | tagsInRepo | blobsInRepo =>
    exact Or.inl (inDomain_startRepo (by decide))
  | tagsOfManifest | parentsOf | referrersOf =>
    exact Or.inl (inDomain_startRepo_digest (by decide))
  | tagHistoryOf repo t =>
    have hp : startRepo PREFIX_TAG_HISTORY repo <+: (tagHistoryOf repo t).bytes :=
      ⟨tagBytes t ++ [TAG_END], (List.append_assoc ..).symm⟩
    exact Or.inl (extend (inDomain_startRepo (by decide)) hp)
  | manifestTagHistoryOf repo digest =>
    have hp : startRepo PREFIX_MANIFEST_TAG_HISTORY repo <+:
        (manifestTagHistoryOf repo digest).bytes := List.prefix_append ..
    exact Or.inl (extend (inDomain_startRepo (by decide)) hp)
  | blobRefs => exact Or.inl inDomain_blobRefs
  | blobRefsInRepo => exact Or.inl (extend inDomain_blobRefs (List.prefix_append ..))
  | countersOfManifest => exact Or.inl inDomain_countersOfManifest
  | countersOfRepo => exact Or.inl (inDomain_startCounter (by decide))
  | countersOfTag repo t =>
    have hp : startCounter SCOPE_TAG repo <+: (countersOfTag repo t).bytes :=
      ⟨tagBytes t ++ [TAG_END], (List.append_assoc ..).symm⟩
    exact Or.inl (extend (inDomain_startCounter (by decide)) hp)
  | blobs | uploads | deadRepos | reposByName | reposNamed =>
    exact Or.inr fun rest => not_inDomain (by decide)
  | repoBlobs => exact absurd rfl whole
  | _ => cases paged

theorem sees_of_paged {p : Scan} (paged : p.paged = true) (whole : p ≠ .repoBlobs) {c k : Key}
    (hc : p.covers c = true) (hk : p.covers k = true) :
    Rocks.sees Key.bytes (some c) k = true := by
  have hc' : p.bytes <+: c.bytes := (Scan.bytes_prefix_iff p c).mpr hc
  have hk' : p.bytes <+: k.bytes := (Scan.bytes_prefix_iff p k).mpr hk
  simp only [Rocks.sees, Option.all_some, Bool.or_eq_true, Bool.not_eq_true', Bool.and_eq_true,
    decide_eq_true_eq]
  rcases Scan.paged_grouped paged whole with h | h
  · obtain ⟨-, hcs⟩ := inDomain_extend h hc'
    obtain ⟨hin, hks⟩ := inDomain_extend h hk'
    exact Or.inr ⟨hin, hks.trans hcs.symm⟩
  · obtain ⟨rest, hrest⟩ := hc'
    exact Or.inl (hrest ▸ h rest)

/-- Two memberships of one repository. -/
def sameRepo : Key → Key → Bool
  | .repoBlob r _, .repoBlob r' _ => decide (r = r')
  | _, _ => false

/-- A membership key confines the iterator to its own repository. -/
theorem sees_repoBlobs {c k : Key} (hc : Scan.repoBlobs.covers c = true)
    (hk : Scan.repoBlobs.covers k = true) :
    Rocks.sees Key.bytes (some c) k = sameRepo c k := by
  cases c <;> cases hc
  cases k <;> cases hk
  rename_i r d r' d'
  have group (repo : RepoId) (digest : Digest) :
      summInDomain (Key.repoBlob repo digest).bytes = true ∧
        summTransform (Key.repoBlob repo digest).bytes = startRepo PREFIX_REPO_BLOB repo := by
    have pre : summInDomain (startRepo PREFIX_REPO_BLOB repo) = true :=
      inDomain_startRepo (by decide)
    have whole : summTransform (startRepo PREFIX_REPO_BLOB repo) =
        startRepo PREFIX_REPO_BLOB repo := by
      have len : summPrefixLen (startRepo PREFIX_REPO_BLOB repo) = some 5 := rfl
      rw [summTransform, len]
      exact List.take_of_length_le (by simp [startRepo])
    obtain ⟨hin, hsame⟩ := inDomain_extend pre
      (show startRepo PREFIX_REPO_BLOB repo <+: (Key.repoBlob repo digest).bytes from
        List.prefix_append ..)
    exact ⟨hin, hsame.trans whole⟩
  simp only [Rocks.sees, Option.all_some, (group r d).1, (group r' d').1, (group r d).2,
    (group r' d').2, Bool.not_true, Bool.false_or, Bool.true_and, sameRepo, startRepo,
    List.cons.injEq, true_and, repoBytes_eq, decide_eq_decide]
  exact eq_comm

/-! ## Whole runs -/

namespace Store

/-- Reading on from a page's cursor, over a store that agrees with the one the
page was read from on everything after it. -/
theorem under_next {s t : Store} {p : Scan} {c : Option Key} {i : Nat}
    (hi : i < (s.under p c).length)
    (same : ∀ k, p.covers k = true → (s.under p c)[i].1 < k → t.get k = s.get k) :
    t.under p (some (s.under p c)[i].1) = (s.under p c).drop (i + 1) := by
  rw [← OrderedMap.filter_lt_getElem Prod.fst (s.under_sorted p c) hi]
  have above : ∀ a ∈ c, a < (s.under p c)[i].1 :=
    (mem_under.mp (List.getElem_mem hi)).2.1
  generalize (s.under p c)[i].1 = n at same above ⊢
  have agree : t.under p (some n) = s.under p (some n) := by
    apply OrderedMap.entriesWhere_congr
    intro k hk
    simp only [Option.all_some, Bool.and_eq_true, decide_eq_true_eq] at hk
    exact same k hk.1 hk.2
  rw [agree]
  simp only [under, OrderedMap.entriesWhere, List.filter_filter]
  apply List.filter_congr
  rintro ⟨k, v⟩ _
  by_cases hk : n < k
  · have hc : c.all (fun a => decide (a < k)) = true := by
      cases c with
      | none => rfl
      | some a => simpa using lt_trans (above a rfl) hk
    simp [hk, hc]
  · simp [hk]

/-- Scanning page by page obeys the reader's law, whatever happens between two
pages to the keys already passed. -/
theorem reads_scan {p : Scan} {limit : Nat} (pos : 0 < limit)
    (ask : Store → Option Key → Page Key Value × Store)
    (scans : ∀ s c, (ask s c).1 = s.scan p c limit)
    (keeps : ∀ s c n, (∀ k ∈ c, p.covers k = true) → (ask s c).1.next = some n →
      ∀ k, p.covers k = true → n < k → (ask s c).2.get k = s.get k) :
    Page.Reads ask limit (fun s c => s.under p c) (Rocks.sees Key.bytes)
      (fun _ c => ∀ k ∈ c, p.covers k = true) where
  served s c hc := by rw [scans, scan_eq hc pos]
  onward s c n hc hn := by
    have cut := scan_eq (s := s) hc pos
    have next := hn
    rw [scans, cut] at next
    have seenPrefix : (s.under p c).takeWhile (fun e => Rocks.sees Key.bytes c e.1) <+:
        s.under p c := List.takeWhile_prefix _
    rcases Nat.lt_or_ge limit
        ((s.under p c).takeWhile fun e => Rocks.sees Key.bytes c e.1).length with more | last
    · have long := Nat.lt_of_lt_of_le more seenPrefix.length_le
      have hi : limit - 1 < (s.under p c).length := by omega
      have boundary : n = (s.under p c)[limit - 1].1 := by
        rw [Page.cut_next_some pos more, seenPrefix.getElem (by omega)] at next
        exact (Option.some.inj next).symm
      subst boundary
      constructor
      · rintro k hk
        cases hk
        exact (mem_under.mp (List.getElem_mem hi)).1
      · rw [under_next hi fun k => keeps s c _ hc hn k, Nat.sub_add_cancel pos]
    · rw [Page.cut_next_none last] at next
      cases next
  through c x y := Rocks.sees_trans

/-- A page that carries a cursor holds keys up to it and no others. -/
theorem scan_le_next {s : Store} {p : Scan} {c : Option Key} (hc : ∀ k ∈ c, p.covers k = true)
    {limit : Nat} (pos : 0 < limit) {n : Key} (hn : (s.scan p c limit).next = some n)
    {e : Key × Value} (he : e ∈ (s.scan p c limit).entries) : e.1 ≤ n := by
  rw [scan_eq hc pos] at hn he
  have sorted : (((s.under p c).takeWhile fun e => Rocks.sees Key.bytes c e.1).take limit).Pairwise
      fun a b => a.1 < b.1 :=
    ((s.under_sorted p c).sublist (List.takeWhile_sublist _)).sublist (List.take_sublist _ _)
  simp only [Page.cut] at hn he
  split at hn
  · obtain ⟨b, hb, rfl⟩ := Option.map_eq_some_iff.mp hn
    exact OrderedMap.le_of_getLast sorted hb he
  · cases hn

theorem scan_next_covers {s : Store} {p : Scan} {c : Option Key} (hc : ∀ k ∈ c, p.covers k = true)
    {limit : Nat} (pos : 0 < limit) {n : Key} (hn : (s.scan p c limit).next = some n) :
    p.covers n = true := by
  rw [scan_eq hc pos] at hn
  simp only [Page.cut] at hn
  split at hn
  · obtain ⟨b, hb, rfl⟩ := Option.map_eq_some_iff.mp hn
    have mem := List.mem_of_mem_take (List.mem_of_getLast? hb)
    exact (mem_under.mp ((List.takeWhile_prefix _).subset mem)).1
  · cases hn

/-- The cursor a page carries is its last key. -/
theorem scan_next_mem {s : Store} {p : Scan} {c : Option Key} (hc : ∀ k ∈ c, p.covers k = true)
    {limit : Nat} (pos : 0 < limit) {n : Key} (hn : (s.scan p c limit).next = some n) :
    ∃ e ∈ (s.scan p c limit).entries, e.1 = n := by
  rw [scan_eq hc pos] at hn ⊢
  simp only [Page.cut] at hn ⊢
  split at hn
  · obtain ⟨b, hb, rfl⟩ := Option.map_eq_some_iff.mp hn
    exact ⟨b, List.mem_of_getLast? hb, rfl⟩
  · cases hn

theorem scan_entries_stored {s : Store} {p : Scan} {c : Option Key}
    (hc : ∀ k ∈ c, p.covers k = true) {limit : Nat} (pos : 0 < limit) {e : Key × Value}
    (he : e ∈ (s.scan p c limit).entries) : p.covers e.1 = true ∧ s.get e.1 = some e.2 := by
  rw [scan_eq hc pos] at he
  have mem := mem_under.mp ((List.takeWhile_prefix _).subset (List.mem_of_mem_take he))
  exact ⟨mem.1, mem.2.2⟩

/-- A page whose cursor sees the whole range holds every key up to its own
cursor, and every key when it carries none. -/
theorem mem_scan_of_le {s : Store} {p : Scan} {c : Option Key} (hc : ∀ k ∈ c, p.covers k = true)
    {limit : Nat} (pos : 0 < limit)
    (sees : ∀ e ∈ s.under p c, Rocks.sees Key.bytes c e.1 = true) {k : Key} {v : Value}
    (hk : p.covers k = true) (after : ∀ a ∈ c, a < k) (hv : s.get k = some v)
    (reached : ∀ n ∈ (s.scan p c limit).next, k ≤ n) : (k, v) ∈ (s.scan p c limit).entries := by
  have whole : (s.under p c).takeWhile (fun e => Rocks.sees Key.bytes c e.1) = s.under p c :=
    List.takeWhile_eq_self_iff.mpr sees
  rw [scan_eq hc pos, whole] at reached ⊢
  obtain ⟨i, hi, hget⟩ := List.mem_iff_getElem.mp (mem_under.mpr ⟨hk, after, hv⟩)
  rcases Nat.lt_or_ge limit (s.under p c).length with more | last
  · have le := reached _ (Page.cut_next_some pos more)
    have early : i < limit := by
      by_contra hlate
      have lt := List.pairwise_iff_getElem.mp (s.under_sorted p c) (limit - 1) i (by omega) hi
        (by omega)
      rw [hget] at lt
      exact absurd le (not_le.mpr lt)
    exact List.mem_take_iff_getElem.mpr ⟨i, by omega, hget⟩
  · rw [Page.cut_entries_all last, ← hget]
    exact List.getElem_mem hi

/-- The stored keys of a page of keys and bytes. -/
def unwrap (page : Page (Key ⊕ Bytes) Value) : Page Key Value where
  entries := page.entries.filterMap fun e => e.1.getLeft?.map fun k => (k, e.2)
  next := page.next.bind Sum.getLeft?

/-- A scan from a cursor that need not be a stored key's: a name the client
sent, or an instant. -/
def scanFrom (s : Store) (p : Scan) (startAfter : Option Bytes) (limit : Nat) : Page Key Value :=
  let page := Rocks.scan (Sum.elim Key.bytes id) (s.map.entries.map fun e => (Sum.inl e.1, e.2))
    p.bytes (startAfter.map Sum.inr) limit
  { entries := page.entries.filterMap fun e => e.1.getLeft?.map fun k => (k, e.2)
    next := page.next.bind Sum.getLeft? }

/-- From a key's bytes it is the scan from the key. -/
theorem scanFrom_key (s : Store) (p : Scan) (c : Option Key) (limit : Nat) :
    s.scanFrom p (c.map Key.bytes) limit = s.scan p c limit := by
  have same : ((c.map Key.bytes).map (Sum.inr : Bytes → Key ⊕ Bytes)).map
      (Sum.elim Key.bytes id) = c.map Key.bytes := by
    cases c <;> rfl
  have read (k : Key) : Sum.elim Key.bytes id (Sum.inl k : Key ⊕ Bytes) = k.bytes := rfl
  have mapped := Rocks.scan_map read same s.map.entries p.bytes limit
  simp only [scanFrom, mapped]
  unfold scan
  generalize Rocks.scan Key.bytes s.map.entries p.bytes c limit = page
  cases page with
  | mk entries next =>
    simp only [Page.mk.injEq, List.filterMap_map]
    constructor
    · simp [Function.comp_def]
    · cases next <;> rfl

/-- The bindings under a scan prefix after a cursor that need not be a key's. -/
def underFrom (s : Store) (p : Scan) (startAfter : Option Bytes) : List (Key × Value) :=
  s.map.entriesWhere fun k => p.covers k && startAfter.all fun b => decide (b < k.bytes)

/-- Whether an iterator that sought the cursor passes on to the key. -/
def seesFrom (startAfter : Option Bytes) (k : Key) : Bool :=
  Rocks.sees (Sum.elim Key.bytes id) (startAfter.map Sum.inr) (Sum.inl k)

theorem mem_underFrom {s : Store} {p : Scan} {c : Option Bytes} {k : Key} {v : Value} :
    (k, v) ∈ s.underFrom p c ↔ p.covers k = true ∧ (∀ b ∈ c, b < k.bytes) ∧ s.get k = some v := by
  rw [underFrom, OrderedMap.mem_entriesWhere, Bool.and_eq_true, and_assoc]
  cases c <;> simp [get]

theorem underFrom_sorted (s : Store) (p : Scan) (c : Option Bytes) :
    (s.underFrom p c).Pairwise fun a b => a.1 < b.1 := OrderedMap.entriesWhere_sorted _ _

/-- A binding among keys and bytes. -/
def wrap (e : Key × Value) : (Key ⊕ Bytes) × Value := (Sum.inl e.1, e.2)

theorem unwrap_cut (limit : Nat) (l : List (Key × Value)) :
    unwrap (Page.cut limit (l.map wrap)) = Page.cut limit l := by
  have back (l : List (Key × Value)) : (l.map wrap).filterMap
      (fun e => e.1.getLeft?.map fun k => (k, e.2)) = l := by
    simp [wrap, List.filterMap_map, Function.comp_def]
  simp only [unwrap, Page.cut, ← List.map_take, back, List.length_map, Page.mk.injEq, true_and]
  split
  · rw [List.getLast?_map, Option.map_map]
    cases List.getLast? _ <;> rfl
  · rfl

theorem wrapped_sorted (s : Store) : (s.map.entries.map wrap).Pairwise
    fun e e' => Sum.elim Key.bytes id e.1 < Sum.elim Key.bytes id e'.1 := by
  rw [List.pairwise_map]
  exact s.map.sorted

theorem after_wrapped (s : Store) (p : Scan) (c : Option Bytes) :
    Rocks.after (Sum.elim Key.bytes id) (s.map.entries.map wrap) p.bytes (c.map Sum.inr) =
      (s.underFrom p c).map wrap := by
  rw [Rocks.after, List.filter_map, underFrom, OrderedMap.entriesWhere]
  congr 1
  apply List.filter_congr
  rintro ⟨k, v⟩ _
  rw [Bool.eq_iff_iff]
  cases c with
  | none => simp [wrap, Scan.bytes_prefix_iff]
  | some b =>
    simp only [wrap, Function.comp_apply, Sum.elim_inl, Scan.bytes_prefix_iff, Option.map_some,
      Option.all_some, Sum.elim_inr, id_eq, Bool.and_eq_true, decide_eq_true_iff]
    exact and_congr_right fun _ => ⟨of_decide_eq_true, decide_eq_true⟩

/-- A page is cut from what the cursor sees of the bindings after it. -/
theorem scanFrom_eq {s : Store} {p : Scan} {c : Option Bytes} (hc : ∀ b ∈ c, p.bytes <+: b)
    {limit : Nat} (pos : 0 < limit) :
    s.scanFrom p c limit = Page.cut limit ((s.underFrom p c).takeWhile fun e => seesFrom c e.1) := by
  have starts : ∀ k ∈ c.map (Sum.inr : Bytes → Key ⊕ Bytes),
      p.bytes <+: Sum.elim Key.bytes id k := by
    intro b hb
    obtain ⟨b', hb', rfl⟩ := Option.map_eq_some_iff.mp hb
    exact hc b' hb'
  have passes : ((fun e => Rocks.sees (Sum.elim Key.bytes id) (c.map Sum.inr) e.1) ∘ wrap) =
      fun e => seesFrom c e.1 := rfl
  have cut := Rocks.scan_eq s.wrapped_sorted (Scan.bytes_ne_nil p) starts pos
  rw [s.after_wrapped, List.takeWhile_map, passes] at cut
  rw [← unwrap_cut, ← cut]
  rfl

/-- Over a prefix of one group, or of none, an iterator passes on over all of it. -/
theorem seesFrom_of_grouped {p : Scan}
    (grouped : summInDomain p.bytes = true ∨ ∀ rest, summInDomain (p.bytes ++ rest) = false)
    {c : Option Bytes} (hc : ∀ b ∈ c, p.bytes <+: b) {k : Key} (hk : p.covers k = true) :
    seesFrom c k = true := by
  have hk' : p.bytes <+: k.bytes := (Scan.bytes_prefix_iff p k).mpr hk
  cases c with
  | none => rfl
  | some b =>
    have hb : p.bytes <+: b := hc b rfl
    simp only [seesFrom, Rocks.sees, Option.map_some, Option.all_some, Sum.elim_inr, id_eq,
      Sum.elim_inl, Bool.or_eq_true, Bool.not_eq_true', Bool.and_eq_true]
    rcases grouped with h | h
    · obtain ⟨-, hbs⟩ := inDomain_extend h hb
      obtain ⟨hin, hks⟩ := inDomain_extend h hk'
      exact Or.inr ⟨hin, decide_eq_true (hks.trans hbs.symm)⟩
    · obtain ⟨rest, hrest⟩ := hb
      exact Or.inl (hrest ▸ h rest)

/-- A page of a prefix that is paged is cut from the bindings after the cursor. -/
theorem scanFrom_cut (s : Store) {p : Scan} (paged : p.paged = true) (whole : p ≠ .repoBlobs)
    {c : Option Bytes} (hc : ∀ b ∈ c, p.bytes <+: b) {limit : Nat} (pos : 0 < limit) :
    s.scanFrom p c limit = Page.cut limit (s.underFrom p c) := by
  have all : ∀ e ∈ s.underFrom p c, seesFrom c e.1 = true := fun e he =>
    seesFrom_of_grouped (Scan.paged_grouped paged whole) hc (mem_underFrom.mp he).1
  rw [scanFrom_eq hc pos, List.takeWhile_eq_self_iff.mpr all]

/-- What a scan answers depends on the keys under its prefix alone. -/
theorem scanFrom_congr {s t : Store} {p : Scan} (same : ∀ k, p.covers k = true → t.get k = s.get k)
    {c : Option Bytes} (hc : ∀ b ∈ c, p.bytes <+: b) (limit : Nat) :
    t.scanFrom p c limit = s.scanFrom p c limit := by
  have bindings : t.underFrom p c = s.underFrom p c :=
    OrderedMap.entriesWhere_congr fun k hk => same k (Bool.and_eq_true_iff.mp hk).1
  rcases Nat.eq_zero_or_pos limit with rfl | pos
  · rfl
  · rw [scanFrom_eq hc pos, scanFrom_eq hc pos, bindings]

theorem scan_congr {s t : Store} {p : Scan} (same : ∀ k, p.covers k = true → t.get k = s.get k)
    {c : Option Key} (hc : ∀ k ∈ c, p.covers k = true) (limit : Nat) :
    t.scan p c limit = s.scan p c limit := by
  rw [← scanFrom_key, ← scanFrom_key]
  apply scanFrom_congr same
  intro b hb
  obtain ⟨k, hk, rfl⟩ := Option.map_eq_some_iff.mp hb
  exact (Scan.bytes_prefix_iff p k).mpr (hc k hk)

/-- The pages from cursor `None` to the one that carries no cursor. Two pages
never serve the same key, so one request for each key stored is enough. -/
def pages (s : Store) (p : Scan) (limit : Nat) : Option (List (Page Key Value)) :=
  (Page.follow (fun s c => (s.scan p c limit, s)) (s.map.entries.length + 1) s none).map Prod.fst

/-- Every membership left when a page of the whole range ends is of the
repository the page ended in. -/
def EndsInLastRepo (s : Store) (limit : Nat) : Prop :=
  Page.Unbroken sameRepo limit (s.under .repoBlobs none)

/-- Following the cursors visits every key under the prefix once, in order, and
ends exactly when nothing is left. -/
def PagesComplete (s : Store) (p : Scan) (limit : Nat) : Prop :=
  ∃ pages, s.pages p limit = some pages ∧ Page.Serves pages (s.under p none)

theorem unbroken_iff {s : Store} {p : Scan} (paged : p.paged = true) {limit : Nat} :
    Page.Unbroken (fun k => Rocks.sees Key.bytes (some k)) limit (s.under p none) ↔
      (p = .repoBlobs → s.EndsInLastRepo limit) := by
  have covered : ∀ e ∈ s.under p none, p.covers e.1 = true := fun e he => (mem_under.mp he).1
  by_cases whole : p = .repoBlobs
  · subst whole
    simp only [forall_const, EndsInLastRepo, Page.Unbroken]
    refine forall_congr' fun i => forall_congr' fun hi => forall_congr' fun _ =>
      forall_congr' fun x => forall_congr' fun hx => ?_
    rw [sees_repoBlobs (covered _ (List.getElem_mem hi)) (covered x (List.mem_of_mem_drop hx))]
  · simp only [whole, false_imp_iff, iff_true]
    intro i hi _ x hx
    exact sees_of_paged paged whole (covered _ (List.getElem_mem hi))
      (covered x (List.mem_of_mem_drop hx))

theorem under_length (s : Store) (p : Scan) (c : Option Key) :
    (s.under p c).length < s.map.entries.length + 1 :=
  Nat.lt_succ_of_le (List.length_filter_le _ _)

/-- A run of pages ends. -/
theorem pages_serve_iff (s : Store) {p : Scan} (paged : p.paged = true) {limit : Nat}
    (pos : 0 < limit) :
    ∃ pages, s.pages p limit = some pages ∧
      (Page.Serves pages (s.under p none) ↔ (p = .repoBlobs → s.EndsInLastRepo limit)) := by
  have reads := reads_scan (p := p) pos (fun s c => (s.scan p c limit, s))
    (fun _ _ => rfl) (fun _ _ _ _ _ _ _ _ => rfl)
  obtain ⟨pages, t, run, iff⟩ := Page.follow_serves_iff pos reads s none (by simp)
    (s.under_length p none)
  refine ⟨pages, by rw [Store.pages, run]; rfl, ?_⟩
  rw [iff, unbroken_iff paged]
  exact and_iff_right fun _ _ => rfl

/-- A page of a prefix that is paged is cut from the bindings after the cursor. -/
theorem scan_cut (s : Store) {p : Scan} (paged : p.paged = true) (whole : p ≠ .repoBlobs)
    {c : Option Key} (hc : ∀ k ∈ c, p.covers k = true) {limit : Nat} (pos : 0 < limit) :
    s.scan p c limit = Page.cut limit (s.under p c) := by
  have all : ∀ e ∈ s.under p c, Rocks.sees Key.bytes c e.1 = true := by
    intro e he
    cases c with
    | none => rfl
    | some k => exact sees_of_paged paged whole (hc k rfl) (mem_under.mp he).1
  rw [scan_eq hc pos, List.takeWhile_eq_self_iff.mpr all]

/-- A listing of a prefix that is paged ends, and lists a row for every binding
that makes one. -/
theorem walk_lists {σ γ α : Type*} {ask : σ → Option γ → Option ((List α × Option γ) × σ)}
    {row : Key × Value → Option α} {cursor : Key → γ} {good : σ → Prop} {limit : Nat} (s : Store)
    {p : Scan} (paged : p.paged = true) (whole : p ≠ .repoBlobs) (pos : 0 < limit)
    (asks : ∀ r c, good r → (∀ k ∈ c, p.covers k = true ∧ s.has k = true) → ∃ r', good r' ∧
      ask r (c.map cursor) = some (((s.scan p c limit).entries.filterMap row,
        (s.scan p c limit).next.map cursor), r'))
    {r : σ} (start : good r) :
    ∃ fuel pages, Page.walk ask fuel r none = some pages ∧
      pages.flatten = (s.under p none).filterMap row := by
  let read (t : Store) (c : Option Key) : Page Key Value × Store := (t.scan p c limit, t)
  let made (r : σ) (t : Store) (c : Option Key) : Prop :=
    good r ∧ t = s ∧ ∀ k ∈ c, p.covers k = true ∧ s.has k = true
  have asks' (r : σ) (t : Store) (c : Option Key) (h : made r t c) : ∃ r',
      ask r (c.map cursor) =
          some (((read t c).1.entries.filterMap row, (read t c).1.next.map cursor), r') ∧
        ∀ n, (read t c).1.next = some n → made r' (read t c).2 (some n) := by
    obtain ⟨hr, rfl, hc⟩ := h
    obtain ⟨r', good', answer⟩ := asks r c hr hc
    refine ⟨r', answer, fun n hn => ⟨good', rfl, fun k hk => ?_⟩⟩
    cases hk
    have covered : ∀ k ∈ c, p.covers k = true := fun k hk => (hc k hk).1
    obtain ⟨e, he, rfl⟩ := scan_next_mem covered pos hn
    obtain ⟨covers, stored⟩ := scan_entries_stored covered pos he
    exact ⟨covers, Option.isSome_of_eq_some stored⟩
  obtain ⟨pages, run, iff⟩ := s.pages_serve_iff paged pos
  obtain ⟨lists, -⟩ := iff.mpr fun h => absurd h whole
  obtain ⟨⟨pages', t⟩, followed, rfl⟩ := Option.map_eq_some_iff.mp run
  refine ⟨s.map.entries.length + 1, pages'.map fun page => page.entries.filterMap row, ?_, ?_⟩
  · have walked := Page.walk_eq_follow asks' (s.map.entries.length + 1)
      (c := none) ⟨start, rfl, fun k hk => by cases hk⟩
    rw [Option.map_none, followed] at walked
    exact walked
  · rw [← lists, List.filterMap_flatMap, ← List.flatMap_def]

/-- A listing that refuses the pages with an unfit key does not end where there is one. -/
theorem fit_of_walk {σ γ α : Type*} {ask : σ → Option γ → Option ((List α × Option γ) × σ)}
    {row : Key × Value → Option α} {cursor : Key → γ} {good : σ → Prop} {fit : Key → Prop}
    {limit : Nat} (s : Store) {p : Scan} (paged : p.paged = true) (whole : p ≠ .repoBlobs)
    (pos : 0 < limit)
    (asks : ∀ r c, good r → (∀ k ∈ c, p.covers k = true ∧ fit k) →
      ask r (c.map cursor) = none ∨ (∀ e ∈ (s.scan p c limit).entries, fit e.1) ∧ ∃ r', good r' ∧
        ask r (c.map cursor) = some (((s.scan p c limit).entries.filterMap row,
          (s.scan p c limit).next.map cursor), r'))
    {r : σ} (start : good r) {fuel : Nat} {lists : List (List α)}
    (walked : Page.walk ask fuel r none = some lists) : ∀ e ∈ s.under p none, fit e.1 := by
  let read (t : Store) (c : Option Key) : Page Key Value × Store := (t.scan p c limit, t)
  let made (r : σ) (t : Store) (c : Option Key) : Prop :=
    good r ∧ t = s ∧ ∀ k ∈ c, p.covers k = true ∧ fit k
  have asks' (r : σ) (t : Store) (c : Option Key) (h : made r t c) : ask r (c.map cursor) = none ∨
      (∀ e ∈ (read t c).1.entries, fit e.1) ∧ ∃ r',
        ask r (c.map cursor) =
            some (((read t c).1.entries.filterMap row, (read t c).1.next.map cursor), r') ∧
          ∀ n, (read t c).1.next = some n → made r' (read t c).2 (some n) := by
    obtain ⟨hr, rfl, hc⟩ := h
    rcases asks r c hr hc with refused | ⟨fits, r', good', answer⟩
    · exact Or.inl refused
    · refine Or.inr ⟨fits, r', answer, fun n hn => ⟨good', rfl, fun k hk => ?_⟩⟩
      cases hk
      have covered : ∀ k ∈ c, p.covers k = true := fun k hk => (hc k hk).1
      obtain ⟨e, he, rfl⟩ := scan_next_mem covered pos hn
      exact ⟨(scan_entries_stored covered pos he).1, fits e he⟩
  obtain ⟨pages, t', run, all⟩ := Page.follow_of_walk (fun e => fit e.1) asks' (c := none)
    ⟨start, rfl, fun k hk => by cases hk⟩ walked
  obtain ⟨pages', run', iff⟩ := s.pages_serve_iff paged pos
  obtain ⟨lists', -⟩ := iff.mpr fun h => absurd h whole
  obtain ⟨⟨same, t⟩, followed, rfl⟩ := Option.map_eq_some_iff.mp run'
  obtain rfl : pages = same := congrArg Prod.fst (Page.follow_unique run followed)
  intro e he
  rw [← lists'] at he
  obtain ⟨page, hpage, mem⟩ := List.mem_flatMap.mp he
  exact all page hpage e mem

end Store

end Summ
