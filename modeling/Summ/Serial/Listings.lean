import Summ.Registry.DigestText
import Summ.Registry.Newest
import Summ.Serial.Answers

/-!
# Histories and referrers, followed page by page

A client asks for a page and then for the page after its cursor. The walk lists
what is stored, each once and in order, and ends.

A history's cursor is a time and a text, the digest or the tag of the last row.
`before` alone is no key: it is the bytes that stand before every key of an
earlier time.
-/

namespace Summ

open keys

/-! ## Requests with a client's cursor -/

namespace Registry

variable (r : Registry)

/-- `tag_history`, whose `last` is text. The `none` inside is a panic of the
digest parser. -/
def tagHistoryRaw (name : Text) (tag : Tag) (limit : Nat) (before : Option Timestamp)
    (last : Option Text) : Option (Except RegistryError TagHistory) × Registry :=
  match r.lookupRepo name with
  | (none, r) => (some (.ok { events := [], next := none }), r)
  | (some repo, r) =>
    match before, last with
    | some at_, some raw =>
      ((parseDigest raw).map fun parsed => parsed.map fun digest =>
        r.store.tagHistoryPage repo tag (some at_) (some digest) limit, r)
    | before, _ => (some (.ok (r.store.tagHistoryPage repo tag before none limit)), r)

/-- `manifest_tag_history`, as a request for a page that is served. -/
def manifestTagHistoryRaw (name : Text) (digest : Digest) (limit : Nat)
    (before : Option Timestamp) (last : Option Text) :
    Option (Except RegistryError TagHistory) × Registry :=
  let (page, r) := r.manifestTagHistory name digest before last limit
  (some (.ok page), r)

end Registry

/-- A request for a page of a history. -/
abbrev HistoryRequest :=
  Registry → Option Timestamp → Option Text → Option (Except RegistryError TagHistory) × Registry

/-- A client asks for the page after the cursor it was given. -/
def askHistory (request : HistoryRequest) (r : Registry) (c : Option HistoryCursor) :
    Option ((List TagEventEntry × Option HistoryCursor) × Registry) :=
  match request r (c.map HistoryCursor.before) (c.map HistoryCursor.last) with
  | (some (.ok page), r) => some ((page.events, page.next), r)
  | _ => none

def askReferrers (name : Text) (subject : Digest) (artifactType : Option Text) (limit : Nat)
    (r : Registry) (c : Option Digest) :
    Option ((List ReferrerEntry × Option Digest) × Registry) :=
  let (page, r) := r.referrers name subject artifactType c limit
  some ((page.entries, page.next), r)

/-! ## Rows of a history -/

/-- The row a history key stands for. -/
def historyRow : Key × Value → Option TagEventEntry
  | (.tagHistory _ tag at_ digest, .event event) => some { at_, tag, digest, event }
  | (.manifestTagHistory _ digest at_ tag, .event event) => some { at_, tag, digest, event }
  | _ => none

/-- The cursor a page that ends at a history key hands on. -/
def historyCursor : Key → HistoryCursor
  | .tagHistory _ _ at_ digest => { before := at_, last := digest.display }
  | .manifestTagHistory _ _ at_ tag => { before := at_, last := tag.text }
  | _ => { before := ⟨0, by decide⟩, last := [] }

/-- The first page of some events. -/
def firstPage (last : TagEventEntry → Text) (events : List TagEventEntry) (limit : Nat) :
    TagHistory where
  events := events.take limit
  next := Store.nextCursor (events.take limit) (decide (limit < events.length)) last

/-- The page made of a page of the store. -/
def historyPage (last : TagEventEntry → Text) (page : Page Key Value) : TagHistory where
  events := page.entries.filterMap historyRow
  next := Store.nextCursor (page.entries.filterMap historyRow) page.next.isSome last

/-- The seek key of `before` alone, under the prefix of a history. -/
def beforeBytes (p : Scan) (at_ : Timestamp) : Bytes :=
  p.bytes ++ Bytes.be 8 (2 ^ 64 - 1 - (at_.millis - 1))

/-- The events of a history: those stored, each once, newest first. -/
structure Chronicle (stored : TagEventEntry → Prop) (events : List TagEventEntry) : Prop where
  once : events.Nodup
  newestFirst : events.Pairwise fun a b => b.at_.millis ≤ a.at_.millis
  all : ∀ e, e ∈ events ↔ stored e

/-- How a history is to be paged. -/
structure HistoryPaged (r : Registry) (request : HistoryRequest) (limit : Nat)
    (last : TagEventEntry → Text) (events : List TagEventEntry) : Prop where
  /-- Following the cursor lists the events. -/
  walk : ∃ fuel pages, Page.walk (askHistory request) fuel r none = some pages ∧
    pages.flatten = events
  /-- `before` alone is answered with the first page of the events strictly older. -/
  before : (∀ e ∈ events, 1 ≤ e.at_.millis) → ∀ before,
    (request r (some before) none).1 = some (.ok (firstPage last
      (events.filter fun e => decide (e.at_.millis < before.millis)) limit))

namespace keys

theorem tagBytes_ne_nil (t : Tag) : tagBytes t ≠ [] := by
  intro h
  have valid := t.valid
  rw [Bytes.utf8_injective (s := t.text) (t := []) h] at valid
  exact absurd valid (by decide)

/-- A manifest's events in the order of their keys. -/
theorem manifestTagHistory_le {repo : RepoId} {d : Digest} {a b : Timestamp} {t u : Tag}
    (h : manifestTagHistory repo d a t ≤ manifestTagHistory repo d b u) : b.millis ≤ a.millis := by
  rw [manifestTagHistory_eq, manifestTagHistory_eq, List.append_assoc, List.append_assoc _ (descTime b),
    Bytes.append_le_append_left] at h
  by_contra lt
  have later := Bytes.append_lt_append_of_lt (by simp [descTime])
    (descTime_lt (Nat.lt_of_not_le lt)) (tagBytes u) (tagBytes t)
  exact absurd h (not_le_of_gt later)

/-- The seek key of `before` stands before a key with the time exactly when the
time is strictly earlier. -/
theorem before_lt_iff {a b : Timestamp} (pos : 1 ≤ a.millis) {rest : Bytes} (left : rest ≠ []) :
    Bytes.be 8 (2 ^ 64 - 1 - (b.millis - 1)) < descTime a ++ rest ↔ a.millis < b.millis := by
  have := a.fits
  have := b.fits
  rcases Nat.lt_trichotomy (2 ^ 64 - 1 - (b.millis - 1)) (2 ^ 64 - 1 - a.millis) with lt | eq | gt
  · have first := Bytes.append_lt_append_of_lt (by simp)
      (Bytes.be_lt_be (w := 8) (by omega) lt) [] rest
    rw [List.append_nil] at first
    exact iff_of_true first (by omega)
  · refine iff_of_true ?_ (by omega)
    obtain ⟨head, tail, rfl⟩ := List.exists_cons_of_ne_nil left
    have short := Bytes.append_lt_append_left (p := Bytes.be 8 (2 ^ 64 - 1 - a.millis))
      (a := []) (b := head :: tail)
    rw [List.append_nil] at short
    rw [descTime, eq]
    exact short.mpr (List.nil_lt_cons head tail)
  · have later := Bytes.append_lt_append_of_lt (by simp)
      (Bytes.be_lt_be (w := 8) (by omega) gt) rest []
    rw [List.append_nil] at later
    exact iff_of_false (not_lt_of_gt later) (by omega)

end keys

namespace Store

/-- A history: the prefix its keys are under, what a row is resumed after, and
the key a row is stored under. -/
structure History (s : Store) (p : Scan) (last : TagEventEntry → Text)
    (key : TagEventEntry → Key) (kept : TagEventEntry → Prop) : Prop where
  paged : p.paged = true
  whole : p ≠ .repoBlobs
  row : ∀ k v, p.covers k = true → s.get k = some v → ∃ e, historyRow (k, v) = some e ∧
    key e = k ∧ kept e ∧ { before := e.at_, last := last e } = historyCursor k
  stored : ∀ e, kept e → p.covers (key e) = true ∧
    ∃ v, s.get (key e) = some v ∧ historyRow (key e, v) = some e
  newer : ∀ e e', kept e → kept e' → key e < key e' → e'.at_.millis ≤ e.at_.millis
  bytes : ∀ e, kept e → ∃ rest, rest ≠ [] ∧ (key e).bytes = p.bytes ++ (descTime e.at_ ++ rest)

section History
variable {s : Store} {p : Scan} {last : TagEventEntry → Text} {key : TagEventEntry → Key}
  {kept : TagEventEntry → Prop} (h : s.History p last key kept)

include h

theorem History.rows {l : List (Key × Value)} (hl : ∀ e ∈ l, e ∈ s.under p none) :
    ∃ events : List TagEventEntry, l.map historyRow = events.map some ∧
      (∀ e ∈ events, kept e) ∧ l.map Prod.fst = events.map key := by
  induction l with
  | nil => exact ⟨[], rfl, (by simp), rfl⟩
  | cons e l ih =>
    obtain ⟨events, rows, all, keyed⟩ := ih fun e he => hl e (List.mem_cons_of_mem _ he)
    obtain ⟨k, v⟩ := e
    obtain ⟨covers, -, stored⟩ := mem_under.mp (hl _ List.mem_cons_self)
    obtain ⟨entry, made, hk, keeps, -⟩ := h.row k v covers stored
    refine ⟨entry :: events, ?_, ?_, ?_⟩
    · rw [List.map_cons, List.map_cons, rows, made]
    · intro e he
      rcases List.mem_cons.mp he with rfl | he
      · exact keeps
      · exact all e he
    · rw [List.map_cons, List.map_cons, keyed, hk]

theorem History.events : ∃ events : List TagEventEntry,
    (s.under p none).map historyRow = events.map some ∧
      (s.under p none).map Prod.fst = events.map key ∧ Chronicle kept events := by
  obtain ⟨events, rows, all, keyed⟩ := h.rows (l := s.under p none) fun e he => he
  have sorted : (events.map key).Pairwise (· < ·) := by
    rw [← keyed, List.pairwise_map]
    exact s.under_sorted p none
  rw [List.pairwise_map] at sorted
  refine ⟨events, rows, keyed, ?_, ?_, fun e => ⟨all e, fun keeps => ?_⟩⟩
  · exact sorted.imp fun lt => ne_of_apply_ne key (ne_of_lt lt)
  · exact sorted.imp_of_mem fun ha hb lt => h.newer _ _ (all _ ha) (all _ hb) lt
  · obtain ⟨covers, v, stored, made⟩ := h.stored e keeps
    have mem : (key e, v) ∈ s.under p none :=
      mem_under.mpr ⟨covers, fun a ha => (by cases ha), stored⟩
    have mem' := List.mem_map_of_mem (f := historyRow) mem
    rw [rows, made] at mem'
    obtain ⟨e', he', same⟩ := List.mem_map.mp mem'
    rwa [Option.some.inj same] at he'

/-- A page cut from rows of a history hands on the cursor of its last row. -/
theorem History.page {l : List (Key × Value)} (hl : ∀ e ∈ l, e ∈ s.under p none)
    {events : List TagEventEntry} (rows : l.map historyRow = events.map some) {limit : Nat}
    (pos : 0 < limit) :
    historyPage last (Page.cut limit l) = firstPage last events limit ∧
      (historyPage last (Page.cut limit l)).next =
        (Page.cut limit l).next.map historyCursor := by
  let cursorOf (e : TagEventEntry) : HistoryCursor := { before := e.at_, last := last e }
  have made : ∀ e ∈ l, ∀ a, historyRow e = some a → cursorOf a = historyCursor e.1 := by
    rintro ⟨k, v⟩ he a ha
    obtain ⟨covers, -, stored⟩ := mem_under.mp (hl _ he)
    obtain ⟨a', made, -, -, cursor⟩ := h.row k v covers stored
    cases ha.symm.trans made
    exact cursor
  have cut : historyPage last (Page.cut limit l) = firstPage last events limit := by
    rw [historyPage, Page.cut_rows rows, Page.cut_isSome pos, Page.length_of_total rows, firstPage]
  refine ⟨cut, ?_⟩
  rw [cut, Page.cut_next_rows rows made, firstPage, nextCursor]
  simp only [decide_eq_true_eq]
  rfl

/-- A history whose requests are scans of its prefix is paged as it should be:
followed by its cursors it lists every event once, newest first, and `before`
alone gives the first page of the events strictly older. -/
theorem History.pages (request : HistoryRequest) (good : Registry → Prop) {limit : Nat}
    (pos : 0 < limit)
    (resumes : ∀ r (c : Option Key), good r → (∀ k ∈ c, p.covers k = true) → ∃ r', good r' ∧
      request r ((c.map historyCursor).map HistoryCursor.before)
          ((c.map historyCursor).map HistoryCursor.last) =
        (some (.ok (historyPage last (s.scan p c limit))), r'))
    (windows : ∀ r before, good r → ∃ r',
      request r (some before) none =
        (some (.ok (historyPage last (s.scanFrom p (some (beforeBytes p before)) limit))), r'))
    {r : Registry} (start : good r) :
    ∃ events, Chronicle kept events ∧ HistoryPaged r request limit last events := by
  obtain ⟨events, rows, keyed, chronicle⟩ := h.events
  refine ⟨events, chronicle, ?_, fun times before => ?_⟩
  · have asks (r : Registry) (c : Option Key) (hr : good r)
        (hc : ∀ k ∈ c, p.covers k = true) : ∃ r', good r' ∧
          askHistory request r (c.map historyCursor) =
            some (((s.scan p c limit).entries.filterMap historyRow,
              (s.scan p c limit).next.map historyCursor), r') := by
      obtain ⟨r', good', answer⟩ := resumes r c hr hc
      refine ⟨r', good', ?_⟩
      have inside : ∀ e ∈ s.under p c, e ∈ s.under p none := by
        rintro ⟨k, v⟩ he
        obtain ⟨covers, -, stored⟩ := mem_under.mp he
        exact mem_under.mpr ⟨covers, fun a ha => (by cases ha), stored⟩
      obtain ⟨events', rows', -, -⟩ := h.rows inside
      have next := (h.page inside rows' pos).2
      rw [s.scan_cut h.paged h.whole hc pos] at answer ⊢
      rw [askHistory, answer]
      dsimp only
      rw [next]
      rfl
    obtain ⟨fuel, pages, run, lists⟩ := s.walk_lists h.paged h.whole pos
      (fun r c hr hc => asks r c hr fun k hk => (hc k hk).1) start
    exact ⟨fuel, pages, run, by rw [lists, Page.rows_of_total rows]⟩
  · -- the bytes of `before` stand before the keys of the older events, and no others
    obtain ⟨r', answer⟩ := windows r before start
    have starts : ∀ b ∈ some (beforeBytes p before), p.bytes <+: b := by
      rintro b hb
      cases hb
      exact List.prefix_append _ _
    have older : (s.underFrom p (some (beforeBytes p before))).map historyRow =
        (events.filter fun e => decide (e.at_.millis < before.millis)).map some := by
      have split : s.underFrom p (some (beforeBytes p before)) =
          (s.under p none).filter fun e => decide (beforeBytes p before < e.1.bytes) := by
        simp only [underFrom, under, OrderedMap.entriesWhere, List.filter_filter, Option.all_none,
          Bool.and_true, Option.all_some]
        exact List.filter_congr fun e _ => Bool.and_comm _ _
      rw [split]
      refine Page.filter_rows rows keyed (p := fun k => decide (beforeBytes p before < k.bytes))
        fun e he => ?_
      obtain ⟨rest, left, bytes⟩ := h.bytes e ((chronicle.all e).mp he)
      rw [decide_eq_decide, bytes, beforeBytes, Bytes.append_lt_append_left,
        before_lt_iff (times e he) left]
    have inside : ∀ e ∈ s.underFrom p (some (beforeBytes p before)), e ∈ s.under p none := by
      rintro ⟨k, v⟩ he
      obtain ⟨covers, -, stored⟩ := mem_underFrom.mp he
      exact mem_under.mpr ⟨covers, fun a ha => (by cases ha), stored⟩
    rw [answer, s.scanFrom_cut h.paged h.whole starts pos, (h.page inside older pos).1]

end History

/-- The keys of a page are under its prefix. -/
theorem scanFrom_covers {s : Store} {p : Scan} (paged : p.paged = true) (whole : p ≠ .repoBlobs)
    {c : Option Bytes} (hc : ∀ b ∈ c, p.bytes <+: b) {limit : Nat} (pos : 0 < limit)
    {e : Key × Value} (he : e ∈ (s.scanFrom p c limit).entries) : p.covers e.1 = true := by
  rw [s.scanFrom_cut paged whole hc pos] at he
  exact (mem_underFrom.mp (List.mem_of_mem_take he)).1

section Instances
variable (s : Store) (repo : RepoId)

/-- An event of a tag. -/
def TagEventOf (tag : Tag) (e : TagEventEntry) : Prop :=
  e.tag = tag ∧ s.get (.tagHistory repo tag e.at_ e.digest) = some (.event e.event)

/-- An event of a manifest. -/
def ManifestEventOf (digest : Digest) (e : TagEventEntry) : Prop :=
  e.digest = digest ∧
    s.get (.manifestTagHistory repo digest e.at_ e.tag) = some (.event e.event)

theorem history_tag (tag : Tag) : s.History (.tagHistoryOf repo tag) (fun e => e.digest.display)
    (fun e => .tagHistory repo tag e.at_ e.digest) (s.TagEventOf repo tag) where
  paged := rfl
  whole := by simp
  row k v covers stored := by
    cases k with
    | tagHistory r u at_ d =>
      obtain ⟨rfl, rfl⟩ : repo = r ∧ tag = u := by simpa [Scan.covers] using covers
      have fits := fits_of_get stored
      cases v with
      | event event => exact ⟨⟨at_, tag, d, event⟩, rfl, rfl, ⟨rfl, stored⟩, rfl⟩
      | _ => cases fits
    | _ => cases covers
  stored := by
    rintro ⟨at_, tag', d, event⟩ ⟨rfl, stored⟩
    exact ⟨by simp [Scan.covers], _, stored, rfl⟩
  newer e e' _ _ lt := by
    rcases tagHistory_le_iff.mp (le_of_lt lt) with later | ⟨same, -⟩
    · exact Nat.le_of_lt later
    · rw [same]
  bytes e _ := by
    refine ⟨e.digest.encode, List.cons_ne_nil _ _, ?_⟩
    change tagHistory repo tag e.at_ e.digest = tagHistoryOf repo tag ++ _
    simp [tagHistory_eq, tagHistoryOf_eq]

theorem history_manifest (digest : Digest) :
    s.History (.manifestTagHistoryOf repo digest) (fun e => e.tag.text)
      (fun e => .manifestTagHistory repo digest e.at_ e.tag) (s.ManifestEventOf repo digest) where
  paged := rfl
  whole := by simp
  row k v covers stored := by
    cases k with
    | manifestTagHistory r d at_ t =>
      obtain ⟨rfl, rfl⟩ : repo = r ∧ digest = d := by simpa [Scan.covers] using covers
      have fits := fits_of_get stored
      cases v with
      | event event => exact ⟨⟨at_, t, digest, event⟩, rfl, rfl, ⟨rfl, stored⟩, rfl⟩
      | _ => cases fits
    | _ => cases covers
  stored := by
    rintro ⟨at_, t, d, event⟩ ⟨rfl, stored⟩
    exact ⟨by simp [Scan.covers], _, stored, rfl⟩
  newer e e' _ _ lt := manifestTagHistory_le (le_of_lt lt)
  bytes e _ := by
    refine ⟨tagBytes e.tag, tagBytes_ne_nil e.tag, ?_⟩
    change manifestTagHistory repo digest e.at_ e.tag = manifestTagHistoryOf repo digest ++ _
    simp [manifestTagHistory_eq, manifestTagHistoryOf]

variable {limit : Nat}

/-- Under a history's prefix the rows are made by its own keys. -/
theorem historyPage_congr {p : Scan} (paged : p.paged = true) (whole : p ≠ .repoBlobs)
    {c : Option Bytes} (hc : ∀ b ∈ c, p.bytes <+: b) (pos : 0 < limit)
    {row : Key × Value → Option TagEventEntry}
    (same : ∀ k v, p.covers k = true → row (k, v) = historyRow (k, v))
    (last : TagEventEntry → Text) :
    { events := (s.scanFrom p c limit).entries.filterMap row
      next := nextCursor ((s.scanFrom p c limit).entries.filterMap row)
        (s.scanFrom p c limit).next.isSome last : TagHistory } =
      historyPage last (s.scanFrom p c limit) := by
  have rows : (s.scanFrom p c limit).entries.filterMap row =
      (s.scanFrom p c limit).entries.filterMap historyRow :=
    List.filterMap_congr fun e he => same e.1 e.2 (scanFrom_covers paged whole hc pos he)
  rw [rows, historyPage]

theorem tagHistoryPage_eq (pos : 0 < limit) (tag : Tag) (before : Option Timestamp)
    (last : Option Digest) {cursor : Option Bytes} (made : cursor = before.map fun at_ =>
      match last with
      | some digest => tagHistory repo tag at_ digest
      | none => tagHistoryBefore repo tag at_) :
    s.tagHistoryPage repo tag before last limit = historyPage (fun e => e.digest.display)
      (s.scanFrom (.tagHistoryOf repo tag) cursor limit) := by
  have starts : ∀ b ∈ cursor, (Scan.tagHistoryOf repo tag).bytes <+: b := by
    subst made
    intro b hb
    obtain ⟨at_, -, rfl⟩ := Option.map_eq_some_iff.mp hb
    cases last with
    | none => exact List.prefix_append _ _
    | some d => exact ⟨descTime at_ ++ d.encode, by simp [Scan.bytes, tagHistory_eq, tagHistoryOf_eq]⟩
  subst made
  unfold tagHistoryPage
  refine s.historyPage_congr rfl (by simp) starts pos (fun k v covers => ?_) _
  cases k with
  | tagHistory r u at_ d =>
    obtain ⟨rfl, rfl⟩ : repo = r ∧ tag = u := by simpa [Scan.covers] using covers
    cases v <;> rfl
  | _ => cases covers

theorem manifestTagHistoryPage_eq (pos : 0 < limit) (digest : Digest) (before : Option Timestamp)
    (last : Option Text) {cursor : Option Bytes} (made : cursor = before.map fun at_ =>
      match last with
      | some tag => Schema.manifestTagHistory repo digest at_ tag
      | none => manifestTagHistoryBefore repo digest at_) :
    s.manifestTagHistoryPage repo digest before last limit = historyPage (fun e => e.tag.text)
      (s.scanFrom (.manifestTagHistoryOf repo digest) cursor limit) := by
  have starts : ∀ b ∈ cursor, (Scan.manifestTagHistoryOf repo digest).bytes <+: b := by
    subst made
    intro b hb
    obtain ⟨at_, -, rfl⟩ := Option.map_eq_some_iff.mp hb
    cases last with
    | none => exact List.prefix_append _ _
    | some t =>
      refine ⟨descTime at_ ++ Bytes.utf8 t, ?_⟩
      simp [Scan.bytes, Schema.manifestTagHistory, manifestTagHistoryOf]
  subst made
  unfold manifestTagHistoryPage
  refine s.historyPage_congr rfl (by simp) starts pos (fun k v covers => ?_) _
  cases k with
  | manifestTagHistory r d at_ t =>
    obtain ⟨rfl, rfl⟩ : repo = r ∧ digest = d := by simpa [Scan.covers] using covers
    cases v <;> rfl
  | _ => cases covers

end Instances

end Store

/-! ## The requests are scans -/

namespace Registry

variable {r : Registry} {s : Store} {name : Text} {repo : RepoId} {limit : Nat}

/-- Resolving a name that is stored. -/
theorem lookupRepo_stored (cached : r.Cached) (named : r.store.repoByName name = some repo) :
    ∃ r', r.lookupRepo name = (some repo, r') ∧ r'.Cached ∧ r'.store = r.store := by
  obtain ⟨found, store, -, cached'⟩ := lookupRepo_spec cached name
  exact ⟨_, Prod.ext (found.trans named) rfl, cached', store⟩

/-- The answer to a request for a page that is served. -/
abbrev served (page : TagHistory) : Option (Except RegistryError TagHistory) := some (.ok page)

theorem tagHistoryRaw_resumes (pos : 0 < limit) (cached : r.Cached) (store : r.store = s)
    (named : s.repoByName name = some repo) (tag : Tag) {c : Option Key}
    (hc : ∀ k ∈ c, (Scan.tagHistoryOf repo tag).covers k = true) :
    ∃ r', (r'.Cached ∧ r'.store = s) ∧
      r.tagHistoryRaw name tag limit ((c.map historyCursor).map HistoryCursor.before)
          ((c.map historyCursor).map HistoryCursor.last) =
        (served (historyPage (fun e => e.digest.display)
          (s.scan (.tagHistoryOf repo tag) c limit)), r') := by
  subst store
  obtain ⟨r', found, cached', store⟩ := lookupRepo_stored cached named
  refine ⟨r', ⟨cached', store⟩, ?_⟩
  rw [← Store.scanFrom_key, ← store, tagHistoryRaw, found]
  cases c with
  | none =>
    have page := r'.store.tagHistoryPage_eq repo pos tag none none rfl
    exact congrArg (fun page => (served page, r')) page
  | some k =>
    cases k with
    | tagHistory id u at_ d =>
      obtain ⟨rfl, rfl⟩ : repo = id ∧ tag = u := by simpa [Scan.covers] using hc _ rfl
      have page := r'.store.tagHistoryPage_eq repo pos tag (some at_) (some d) rfl
      simp only [Option.map_some, historyCursor, Digest.parseDigest_display]
      exact congrArg (fun page => (served page, r')) page
    | _ => cases hc _ rfl

theorem tagHistoryRaw_before (pos : 0 < limit) (cached : r.Cached) (store : r.store = s)
    (named : s.repoByName name = some repo) (tag : Tag) (before : Timestamp) :
    ∃ r', r.tagHistoryRaw name tag limit (some before) none =
      (served (historyPage (fun e => e.digest.display) (s.scanFrom (.tagHistoryOf repo tag)
        (some (beforeBytes (.tagHistoryOf repo tag) before)) limit)), r') := by
  subst store
  obtain ⟨r', found, -, store⟩ := lookupRepo_stored cached named
  have page := r'.store.tagHistoryPage_eq repo pos tag (some before) none rfl
  rw [← store, tagHistoryRaw, found]
  exact ⟨r', congrArg (fun page => (served page, r')) page⟩

theorem manifestTagHistoryRaw_resumes (pos : 0 < limit) (cached : r.Cached) (store : r.store = s)
    (named : s.repoByName name = some repo) (digest : Digest) {c : Option Key}
    (hc : ∀ k ∈ c, (Scan.manifestTagHistoryOf repo digest).covers k = true) :
    ∃ r', (r'.Cached ∧ r'.store = s) ∧
      r.manifestTagHistoryRaw name digest limit ((c.map historyCursor).map HistoryCursor.before)
          ((c.map historyCursor).map HistoryCursor.last) =
        (served (historyPage (fun e => e.tag.text)
          (s.scan (.manifestTagHistoryOf repo digest) c limit)), r') := by
  subst store
  obtain ⟨r', found, cached', store⟩ := lookupRepo_stored cached named
  refine ⟨r', ⟨cached', store⟩, ?_⟩
  rw [← Store.scanFrom_key, ← store, manifestTagHistoryRaw, manifestTagHistory, readOr, found]
  cases c with
  | none =>
    have page := r'.store.manifestTagHistoryPage_eq repo pos digest none none rfl
    exact congrArg (fun page => (served page, r')) page
  | some k =>
    cases k with
    | manifestTagHistory id d at_ t =>
      obtain ⟨rfl, rfl⟩ : repo = id ∧ digest = d := by simpa [Scan.covers] using hc _ rfl
      have page := r'.store.manifestTagHistoryPage_eq repo pos digest (some at_)
        (some t.text) rfl
      exact congrArg (fun page => (served page, r')) page
    | _ => cases hc _ rfl

theorem manifestTagHistoryRaw_before (pos : 0 < limit) (cached : r.Cached) (store : r.store = s)
    (named : s.repoByName name = some repo) (digest : Digest) (before : Timestamp) :
    ∃ r', r.manifestTagHistoryRaw name digest limit (some before) none =
      (served (historyPage (fun e => e.tag.text) (s.scanFrom (.manifestTagHistoryOf repo digest)
        (some (beforeBytes (.manifestTagHistoryOf repo digest) before)) limit)), r') := by
  subst store
  obtain ⟨r', found, -, store⟩ := lookupRepo_stored cached named
  have page := r'.store.manifestTagHistoryPage_eq repo pos digest (some before) none rfl
  rw [← store, manifestTagHistoryRaw, manifestTagHistory, readOr, found]
  exact ⟨r', congrArg (fun page => (served page, r')) page⟩

end Registry

/-! ## Histories -/

namespace Registry

variable {r : Registry}

/-- The events stored of a history that is asked for by the repository's name. -/
def EventOf (r : Registry) (name : Text) (stored : Store → RepoId → TagEventEntry → Prop)
    (e : TagEventEntry) : Prop :=
  ∃ repo, r.store.repoByName name = some repo ∧ stored r.store repo e

/-- A history of a repository that is not there. -/
theorem unknown_paged {request : HistoryRequest} {limit : Nat} {last : TagEventEntry → Text}
    (absent : ∀ before text,
      (request r before text).1 = served { events := [], next := none }) :
    HistoryPaged r request limit last [] where
  walk := by
    have first := absent none none
    rcases answer : request r none none with ⟨page, r'⟩
    rw [answer] at first
    subst first
    refine ⟨1, [[]], ?_, rfl⟩
    simp only [Page.walk, askHistory, Option.map_none, answer]
  before _ before := by
    rw [absent, firstPage, List.filter_nil, List.take_nil]
    simp [Store.nextCursor]

/-- Histories are paged as they should be: followed by its cursors, a tag's and
a manifest's lists every event once, newest first, and `before` alone gives the
first page of the events strictly older. -/
theorem histories_paged (cached : r.Cached) (name : Text) {limit : Nat} (pos : 0 < limit) :
    (∀ tag, ∃ events,
      Chronicle (r.EventOf name fun s repo => s.TagEventOf repo tag) events ∧
        HistoryPaged r (fun r => r.tagHistoryRaw name tag limit) limit
          (fun e => e.digest.display) events) ∧
    ∀ digest, ∃ events,
      Chronicle (r.EventOf name fun s repo => s.ManifestEventOf repo digest) events ∧
        HistoryPaged r (fun r => r.manifestTagHistoryRaw name digest limit) limit
          (fun e => e.tag.text) events := by
  cases named : r.store.repoByName name with
  | none =>
    obtain ⟨found, -⟩ := lookupRepo_spec cached name
    have absent : r.lookupRepo name = (none, (r.lookupRepo name).2) :=
      Prod.ext (found.trans named) rfl
    have empty {stored : Store → RepoId → TagEventEntry → Prop} :
        Chronicle (r.EventOf name stored) [] := by
      refine ⟨List.nodup_nil, List.Pairwise.nil, fun e => ?_⟩
      refine iff_of_false List.not_mem_nil ?_
      rintro ⟨repo, named', -⟩
      cases named.symm.trans named'
    refine ⟨fun tag => ⟨[], empty, unknown_paged fun before text => ?_⟩,
      fun digest => ⟨[], empty, unknown_paged fun before text => ?_⟩⟩
    · rw [tagHistoryRaw, absent]
    · rw [manifestTagHistoryRaw, manifestTagHistory, readOr, absent]
  | some repo =>
    have known {stored : Store → RepoId → TagEventEntry → Prop} {events : List TagEventEntry}
        (h : Chronicle (stored r.store repo) events) : Chronicle (r.EventOf name stored) events := by
      refine ⟨h.once, h.newestFirst, fun e => (h.all e).trans ?_⟩
      constructor
      · exact fun kept => ⟨repo, named, kept⟩
      · rintro ⟨repo', named', kept⟩
        obtain rfl : repo = repo' := Option.some.inj (named.symm.trans named')
        exact kept
    constructor
    · intro tag
      obtain ⟨events, chronicle, paged⟩ := (r.store.history_tag repo tag).pages
        (fun r => r.tagHistoryRaw name tag limit) (fun r' => r'.Cached ∧ r'.store = r.store) pos
        (fun r' c ok hc => tagHistoryRaw_resumes pos ok.1 ok.2 named tag hc)
        (fun r' before ok => tagHistoryRaw_before pos ok.1 ok.2 named tag before)
        ⟨cached, rfl⟩
      exact ⟨events, known chronicle, paged⟩
    · intro digest
      obtain ⟨events, chronicle, paged⟩ := (r.store.history_manifest repo digest).pages
        (fun r => r.manifestTagHistoryRaw name digest limit)
        (fun r' => r'.Cached ∧ r'.store = r.store) pos
        (fun r' c ok hc => manifestTagHistoryRaw_resumes pos ok.1 ok.2 named digest hc)
        (fun r' before ok => manifestTagHistoryRaw_before pos ok.1 ok.2 named digest before)
        ⟨cached, rfl⟩
      exact ⟨events, known chronicle, paged⟩

end Registry

/-- Two events of one tag in one millisecond. -/
def oneMoment : Registry where
  store := (∅ : Store).apply [
    .put (.repoByName "app".toList) (.repoId 0) rfl,
    .put (.tagHistory 0 v1 (.fromSecs 1) (first 1)) (.event pushed) rfl,
    .put (.tagHistory 0 v1 (.fromSecs 1) (first 2)) (.event pushed) rfl]
  interner := .default
  options := {}
where
  v1 : Tag := ⟨"v1".toList, by decide⟩
  first (b : Byte) : Digest := .sha256 (.replicate 32 b)
  pushed : TagEvent := { event := .created, mediaType := DEFAULT_MEDIA_TYPE, size := 2 }

theorem histories_paged_oneMoment : ∃ events,
    Chronicle (oneMoment.EventOf "app".toList fun s repo => s.TagEventOf repo oneMoment.v1) events ∧
      HistoryPaged oneMoment (fun r => r.tagHistoryRaw "app".toList oneMoment.v1 1) 1
        (fun e => e.digest.display) events :=
  (Registry.histories_paged (r := oneMoment) (fun _ _ h => by cases h) "app".toList
    (by decide)).1 oneMoment.v1

/-! ## Referrers -/

/-- The edge a referrer key stands for. -/
def referrerEdge : Key × Value → Option ReferrerEntry
  | (.referrer _ _ digest, .referrer record) => some { digest, record }
  | _ => none

/-- The cursor a page that ends at a referrer key hands on. -/
def referrerCursor : Key → Digest
  | .referrer _ _ digest => digest
  | _ => .sha256 (.replicate 32 0)

/-- Whether the filter keeps the edge. -/
def wanted (artifactType : Option Text) (e : ReferrerEntry) : Bool :=
  artifactType.all fun type => decide (e.record.artifactType = some type)

/-- The edges of a subject: those stored, in digest order, and so each once. -/
structure EdgeList (stored : ReferrerEntry → Prop) (edges : List ReferrerEntry) : Prop where
  inOrder : edges.Pairwise fun a b => a.digest.encode < b.digest.encode
  all : ∀ e, e ∈ edges ↔ stored e

/-- What of the edges is left after a cursor. -/
def edgesAfter (edges : List ReferrerEntry) (after : Option Digest) : List ReferrerEntry :=
  edges.filter fun e => after.all fun d => decide (d.encode < e.digest.encode)

/-- A page of referrers: the matches among the first edges that are left, and a
cursor at the last of these whenever edges remain. -/
structure CutFrom (artifactType : Option Text) (limit : Nat) (left : List ReferrerEntry)
    (page : ReferrerList) : Prop where
  entries : page.entries = (left.take limit).filter (wanted artifactType)
  next : page.next =
    if limit < left.length then (left.take limit).getLast?.map ReferrerEntry.digest else none

namespace Store

variable {s : Store} {repo : RepoId} {subject : Digest}

theorem referrer_lt_iff {d e : Digest} :
    Key.referrer repo subject d < Key.referrer repo subject e ↔ d.encode < e.encode := by
  rw [Key.lt_iff]
  exact Bytes.append_lt_append_left

theorem referrers_edges (s : Store) (repo : RepoId) (subject : Digest) :
    ∃ edges : List ReferrerEntry,
      (s.under (.referrersOf repo subject) none).map referrerEdge = edges.map some ∧
        (s.under (.referrersOf repo subject) none).map Prod.fst =
          edges.map (fun e => Key.referrer repo subject e.digest) ∧
        EdgeList (fun e => s.get (.referrer repo subject e.digest) = some (.referrer e.record))
          edges := by
  have rows (l : List (Key × Value)) (hl : ∀ e ∈ l, e ∈ s.under (.referrersOf repo subject) none) :
      ∃ edges : List ReferrerEntry, l.map referrerEdge = edges.map some ∧
        l.map Prod.fst = edges.map (fun e => Key.referrer repo subject e.digest) ∧
        ∀ e ∈ edges, s.get (.referrer repo subject e.digest) = some (.referrer e.record) := by
    induction l with
    | nil => exact ⟨[], rfl, rfl, (by simp)⟩
    | cons e l ih =>
      obtain ⟨edges, rows, keyed, all⟩ := ih fun e he => hl e (List.mem_cons_of_mem _ he)
      obtain ⟨k, v⟩ := e
      obtain ⟨covers, -, stored⟩ := mem_under.mp (hl _ List.mem_cons_self)
      cases k with
      | referrer id subject' d =>
        obtain ⟨rfl, rfl⟩ : repo = id ∧ subject = subject' := by simpa [Scan.covers] using covers
        have fits := fits_of_get stored
        cases v with
        | referrer record =>
          refine ⟨⟨d, record⟩ :: edges, ?_, ?_, List.forall_mem_cons.mpr ⟨stored, all⟩⟩
          · rw [List.map_cons, List.map_cons, rows]
            rfl
          · rw [List.map_cons, List.map_cons, keyed]
        | _ => cases fits
      | _ => cases covers
  obtain ⟨edges, total, keyed, all⟩ := rows _ fun e he => he
  refine ⟨edges, total, keyed, ?_, fun e => ⟨all e, fun stored => ?_⟩⟩
  · have sorted : (edges.map fun e => Key.referrer repo subject e.digest).Pairwise (· < ·) := by
      rw [← keyed, List.pairwise_map]
      exact s.under_sorted _ none
    rw [List.pairwise_map] at sorted
    exact sorted.imp fun lt => referrer_lt_iff.mp lt
  · have mem : (Key.referrer repo subject e.digest, Value.referrer e.record) ∈
        s.under (.referrersOf repo subject) none :=
      mem_under.mpr ⟨by simp [Scan.covers], fun a ha => (by cases ha), stored⟩
    have mem' := List.mem_map_of_mem (f := referrerEdge) mem
    rw [total] at mem'
    obtain ⟨e', he', same⟩ := List.mem_map.mp mem'
    rwa [Option.some.inj same] at he'

theorem referrerPage_entries (artifactType : Option Text) (after : Option Digest) (limit : Nat) :
    (s.referrerPage repo subject artifactType after limit).entries =
      (s.scan (.referrersOf repo subject) (after.map (Key.referrer repo subject))
        limit).entries.filterMap fun e => (referrerEdge e).filter (wanted artifactType) := by
  rw [referrerPage]
  refine List.filterMap_congr fun e _ => ?_
  obtain ⟨k, v⟩ := e
  cases k <;> try rfl
  cases v <;> rfl

theorem referrerPage_next {artifactType : Option Text} {after : Option Digest} {limit : Nat}
    (pos : 0 < limit) : (s.referrerPage repo subject artifactType after limit).next =
      (s.scan (.referrersOf repo subject) (after.map (Key.referrer repo subject)) limit).next.map
        referrerCursor := by
  have covered : ∀ k ∈ after.map (Key.referrer repo subject),
      (Scan.referrersOf repo subject).covers k = true := by
    intro k hk
    obtain ⟨d, -, rfl⟩ := Option.map_eq_some_iff.mp hk
    simp [Scan.covers]
  rw [referrerPage]
  cases hn : (s.scan (.referrersOf repo subject) (after.map (Key.referrer repo subject))
      limit).next with
  | none => rfl
  | some k =>
    have covers := scan_next_covers covered pos hn
    cases k with
    | referrer => rfl
    | _ => cases covers

/-- A page is cut from what is left of the edges. -/
theorem referrerPage_cut {limit : Nat} (pos : 0 < limit) {edges : List ReferrerEntry}
    (total : (s.under (.referrersOf repo subject) none).map referrerEdge = edges.map some)
    (keyed : (s.under (.referrersOf repo subject) none).map Prod.fst =
      edges.map fun e => Key.referrer repo subject e.digest)
    (artifactType : Option Text) (after : Option Digest) :
    CutFrom artifactType limit (edgesAfter edges after)
      (s.referrerPage repo subject artifactType after limit) := by
  have covered : ∀ k ∈ after.map (Key.referrer repo subject),
      (Scan.referrersOf repo subject).covers k = true := by
    intro k hk
    obtain ⟨d, -, rfl⟩ := Option.map_eq_some_iff.mp hk
    simp [Scan.covers]
  have split : s.under (.referrersOf repo subject) (after.map (Key.referrer repo subject)) =
      (s.under (.referrersOf repo subject) none).filter fun e =>
        (after.map (Key.referrer repo subject)).all fun c => decide (c < e.1) := by
    simp only [under, OrderedMap.entriesWhere, List.filter_filter, Option.all_none, Bool.and_true]
    exact List.filter_congr fun e _ => Bool.and_comm _ _
  have left := Page.filter_rows total keyed
    (p := fun k => (after.map (Key.referrer repo subject)).all fun c => decide (c < k))
    (q := fun e => after.all fun d => decide (d.encode < e.digest.encode)) (fun e _ => by
      cases after with
      | none => rfl
      | some d => simp [referrer_lt_iff])
  rw [← split] at left
  constructor
  · have rows := Page.cut_rows left limit
    rw [referrerPage_entries, s.scan_cut rfl (by simp) covered pos, ← List.filter_filterMap, rows]
    rfl
  · rw [referrerPage_next pos, s.scan_cut rfl (by simp) covered pos]
    refine Page.cut_next_rows left ?_ limit
    rintro ⟨k, v⟩ - e made
    cases k <;> cases v <;> cases made
    rfl

end Store

namespace Registry

variable {r : Registry}

theorem referrers_paged (cached : r.Cached) (name : Text) (subject : Digest)
    (artifactType : Option Text) {limit : Nat} (pos : 0 < limit) : ∃ edges,
      EdgeList (fun e => ∃ repo, r.store.repoByName name = some repo ∧
        r.store.get (.referrer repo subject e.digest) = some (.referrer e.record)) edges ∧
      (∃ fuel pages,
        Page.walk (askReferrers name subject artifactType limit) fuel r none = some pages ∧
          pages.flatten = edges.filter (wanted artifactType)) ∧
      ∀ after, CutFrom artifactType limit (edgesAfter edges after)
        (r.referrers name subject artifactType after limit).1 := by
  cases named : r.store.repoByName name with
  | none =>
    have absent (after : Option Digest) : (r.referrers name subject artifactType after limit).1 =
        { entries := [], next := none, filterApplied := artifactType.isSome } := by
      rw [Registry.referrers, readOr_fst cached, named]
    refine ⟨[], ⟨List.Pairwise.nil, fun e => ?_⟩, ⟨1, [[]], ?_, rfl⟩, fun after => ?_⟩
    · refine iff_of_false List.not_mem_nil ?_
      rintro ⟨repo, named', -⟩
      cases named'
    · have first := absent none
      rcases answer : r.referrers name subject artifactType none limit with ⟨page, r'⟩
      rw [answer] at first
      subst first
      simp only [Page.walk, askReferrers, answer]
    · rw [absent]
      exact ⟨by simp [edgesAfter], by simp [edgesAfter]⟩
  | some repo =>
    obtain ⟨edges, total, keyed, list⟩ := r.store.referrers_edges repo subject
    have answers {r' : Registry} (cached' : r'.Cached) (store : r'.store = r.store)
        (after : Option Digest) : (r'.referrers name subject artifactType after limit).1 =
          r.store.referrerPage repo subject artifactType after limit := by
      rw [Registry.referrers, readOr_fst cached', store, named]
    have keeps {r' : Registry} (cached' : r'.Cached) (store : r'.store = r.store)
        (after : Option Digest) : (r'.referrers name subject artifactType after limit).2.Cached ∧
          (r'.referrers name subject artifactType after limit).2.store = r.store := by
      obtain ⟨r'', found, cached'', store''⟩ := lookupRepo_stored cached'
        (by rw [store, named] : r'.store.repoByName name = some repo)
      rw [Registry.referrers, readOr, found]
      exact ⟨cached'', store''.trans store⟩
    refine ⟨edges, ⟨list.inOrder, fun e => (list.all e).trans ?_⟩, ?_, fun after => ?_⟩
    · constructor
      · exact fun stored => ⟨repo, rfl, stored⟩
      · rintro ⟨repo', named', stored⟩
        cases named'
        exact stored
    · have same {c : Option Key} (hc : ∀ k ∈ c, (Scan.referrersOf repo subject).covers k = true) :
          (c.map referrerCursor).map (Key.referrer repo subject) = c := by
        cases c with
        | none => rfl
        | some k =>
          have covers := hc k rfl
          cases k with
          | referrer id subject' d =>
            obtain ⟨rfl, rfl⟩ : repo = id ∧ subject = subject' := by
              simpa [Scan.covers] using covers
            rfl
          | _ => cases covers
      have asks (r' : Registry) (c : Option Key) (good : r'.Cached ∧ r'.store = r.store)
          (hc : ∀ k ∈ c, (Scan.referrersOf repo subject).covers k = true) :
          ∃ r'', (r''.Cached ∧ r''.store = r.store) ∧
            askReferrers name subject artifactType limit r' (c.map referrerCursor) =
              some (((r.store.scan (.referrersOf repo subject) c limit).entries.filterMap fun e =>
                  (referrerEdge e).filter (wanted artifactType),
                (r.store.scan (.referrersOf repo subject) c limit).next.map referrerCursor),
                r'') := by
        have page := answers good.1 good.2 (c.map referrerCursor)
        refine ⟨_, keeps good.1 good.2 (c.map referrerCursor), ?_⟩
        rw [askReferrers]
        dsimp only
        rw [page, Store.referrerPage_entries, Store.referrerPage_next pos, same hc]
      obtain ⟨fuel, pages, run, lists⟩ := r.store.walk_lists rfl (by simp) pos
        (fun r c hr hc => asks r c hr fun k hk => (hc k hk).1) ⟨cached, rfl⟩
      refine ⟨fuel, pages, run, ?_⟩
      rw [lists, ← List.filter_filterMap, Page.rows_of_total total]
    · rw [answers cached rfl]
      exact Store.referrerPage_cut pos total keyed artifactType after

end Registry

/-- A subject with a referrer of one artifact type, and then one of another. -/
def twoReferrers : Registry where
  store := (∅ : Store).apply [
    .put (.repoByName "app".toList) (.repoId 0) rfl,
    .put (.referrer 0 (image 0) (image 1)) (.referrer (of_ "sbom".toList)) rfl,
    .put (.referrer 0 (image 0) (image 2)) (.referrer (of_ "signature".toList)) rfl]
  interner := .default
  options := {}
where
  image (b : Byte) : Digest := .sha256 (.replicate 32 b)
  of_ (type : Text) : ReferrerRecord :=
    { mediaType := DEFAULT_MEDIA_TYPE, artifactType := some type, size := 2, annotations := [] }

theorem referrers_paged_twoReferrers : ∃ edges,
    EdgeList (fun e => ∃ repo, twoReferrers.store.repoByName "app".toList = some repo ∧
      twoReferrers.store.get (.referrer repo (twoReferrers.image 0) e.digest) =
        some (.referrer e.record)) edges ∧
    (∃ fuel pages, Page.walk
        (askReferrers "app".toList (twoReferrers.image 0) (some "signature".toList) 1)
        fuel twoReferrers none = some pages ∧
      pages.flatten = edges.filter (wanted (some "signature".toList))) ∧
    ∀ after, CutFrom (some "signature".toList) 1 (edgesAfter edges after)
      (twoReferrers.referrers "app".toList (twoReferrers.image 0) (some "signature".toList)
        after 1).1 :=
  Registry.referrers_paged (r := twoReferrers) (fun _ _ h => by cases h) "app".toList
    (twoReferrers.image 0) (some "signature".toList) (by decide)

end Summ
