import Summ.Registry.Queries

/-!
# The newest event of a tag

A history key complements the time, so the first key of a tag's history is its
newest event: later times first, and the lesser digest first at one time.
-/

namespace Summ

/-- What a tag resolves to once the event has happened. -/
def TagEvent.leaves (event : TagEvent) (digest : Digest) : Option Digest :=
  match event.event with
  | .created => some digest
  | .deleted => none

namespace keys

theorem descTime_lt {a b : Timestamp} (h : b.millis < a.millis) : descTime a < descTime b := by
  have := a.fits
  have := b.fits
  exact Bytes.be_lt_be (by omega) (by omega)

/-- Events of one tag in the order of their keys. -/
theorem tagHistory_le_iff {repo : RepoId} {t : Tag} {a b : Timestamp} {d e : Digest} :
    tagHistory repo t a d ≤ tagHistory repo t b e ↔
      b.millis < a.millis ∨ a = b ∧ d.encode ≤ e.encode := by
  have cut : tagHistory repo t a d ≤ tagHistory repo t b e ↔
      descTime a ++ d.encode ≤ descTime b ++ e.encode := by
    rw [tagHistory_eq, tagHistory_eq, Bytes.append_le_append_left, Bytes.cons_le_cons]
    simp
  have later {a b : Timestamp} {d e : Digest} (h : b.millis < a.millis) :
      descTime a ++ d.encode < descTime b ++ e.encode :=
    Bytes.append_lt_append_of_lt (by simp [descTime]) (descTime_lt h) _ _
  rw [cut]
  constructor
  · intro le
    rcases Nat.lt_trichotomy b.millis a.millis with lt | same | lt
    · exact Or.inl lt
    · obtain rfl : a = b := Timestamp.ext same.symm
      exact Or.inr ⟨rfl, Bytes.append_le_append_left.mp le⟩
    · exact absurd le (not_le_of_gt (later lt))
  · rintro (lt | ⟨rfl, le⟩)
    · exact le_of_lt (later lt)
    · exact Bytes.append_le_append_left.mpr le

end keys

namespace Store

variable {s t : Store} {repo : RepoId} {tag : Tag}

/-- The first event a tag's history answers. -/
def newest (s : Store) (repo : RepoId) (tag : Tag) : Option TagEventEntry :=
  (s.tagHistoryPage repo tag none none 1).events.head?

/-- It is stored under the first key of the tag's history. -/
theorem newest_eq : s.newest repo tag =
    ((s.under (.tagHistoryOf repo tag) none).take 1).head?.bind fun
      | (.tagHistory _ _ at_ digest, .event event) => some { at_, tag, digest, event }
      | _ => none := by
  have page : s.scanFrom (.tagHistoryOf repo tag) none 1 =
      Page.cut 1 (s.under (.tagHistoryOf repo tag) none) := by
    have whole (l : List (Key × Value)) :
        (l.takeWhile fun e => Rocks.sees Key.bytes none e.1) = l :=
      List.takeWhile_eq_self_iff.mpr fun e _ => rfl
    have := s.scanFrom_key (.tagHistoryOf repo tag) none 1
    rw [Option.map_none] at this
    rw [this, scan_eq (fun k hk => by cases hk) Nat.one_pos, whole]
  simp only [newest, tagHistoryPage, Option.map_none, page, Page.cut]
  cases s.under (.tagHistoryOf repo tag) none with
  | nil => rfl
  | cons e rest =>
    obtain ⟨k, v⟩ := e
    simp only [List.take_succ_cons, List.take_zero, List.head?_cons, Option.bind_some]
    cases k <;> cases v <;> rfl

theorem mem_history {k : Key} {v : Value} (h : (k, v) ∈ s.under (.tagHistoryOf repo tag) none) :
    ∃ at_ d event, k = .tagHistory repo tag at_ d ∧ v = .event event ∧
      s.get (.tagHistory repo tag at_ d) = some (.event event) := by
  obtain ⟨covers, -, stored⟩ := mem_under.mp h
  cases k with
  | tagHistory r t at_ d =>
    obtain ⟨rfl, rfl⟩ : repo = r ∧ tag = t := by simpa [Scan.covers] using covers
    have fits := fits_of_get stored
    cases v with
    | event event => exact ⟨at_, d, event, rfl, rfl, stored⟩
    | _ => cases fits
  | _ => cases covers

theorem mem_under_history {at_ : Timestamp} {d : Digest} {v : Value}
    (h : s.get (.tagHistory repo tag at_ d) = some v) :
    (Key.tagHistory repo tag at_ d, v) ∈ s.under (.tagHistoryOf repo tag) none :=
  mem_under.mpr ⟨by simp [Scan.covers], fun a ha => (by cases ha), h⟩

theorem newest_eq_some {entry : TagEventEntry} (h : s.newest repo tag = some entry) :
    entry.tag = tag ∧
      s.get (.tagHistory repo tag entry.at_ entry.digest) = some (.event entry.event) ∧
      ∀ at_ d, s.has (.tagHistory repo tag at_ d) = true →
        Key.tagHistory repo tag entry.at_ entry.digest ≤ .tagHistory repo tag at_ d := by
  have sorted := s.under_sorted (.tagHistoryOf repo tag) none
  rw [newest_eq] at h
  cases hlist : s.under (.tagHistoryOf repo tag) none with
  | nil => simp [hlist] at h
  | cons e rest =>
    obtain ⟨k, v⟩ := e
    obtain ⟨at_, d, event, rfl, rfl, stored⟩ := mem_history (hlist ▸ List.mem_cons_self)
    obtain rfl : { at_, tag, digest := d, event } = entry := by simpa [hlist] using h
    refine ⟨rfl, stored, fun at' d' has => ?_⟩
    obtain ⟨v', stored'⟩ := Option.isSome_iff_exists.mp has
    have mem := mem_under_history stored'
    rw [hlist] at mem sorted
    rcases List.mem_cons.mp mem with first | later
    · exact le_of_eq (Prod.mk.inj first).1.symm
    · exact le_of_lt ((List.pairwise_cons.mp sorted).1 _ later)

theorem newest_eq_none : s.newest repo tag = none ↔
    ∀ at_ d, s.has (.tagHistory repo tag at_ d) = false := by
  rw [newest_eq]
  cases hlist : s.under (.tagHistoryOf repo tag) none with
  | nil =>
    refine iff_of_true rfl fun at_ d => ?_
    by_contra has
    obtain ⟨v, stored⟩ := Option.isSome_iff_exists.mp (Bool.of_not_eq_false has)
    have mem := mem_under_history stored
    rw [hlist] at mem
    cases mem
  | cons e rest =>
    obtain ⟨k, v⟩ := e
    obtain ⟨at_, d, event, rfl, rfl, stored⟩ := mem_history (hlist ▸ List.mem_cons_self)
    refine iff_of_false (by simp) fun none => ?_
    have := none at_ d
    rw [has, stored] at this
    cases this

/-- The newest event is a matter of the tag's history alone. -/
theorem newest_congr (same : ∀ at_ d,
    t.get (.tagHistory repo tag at_ d) = s.get (.tagHistory repo tag at_ d)) :
    t.newest repo tag = s.newest repo tag := by
  have covered : ∀ k, (Scan.tagHistoryOf repo tag).covers k = true → t.get k = s.get k := by
    intro k hk
    cases k with
    | tagHistory r u at_ d =>
      obtain ⟨rfl, rfl⟩ : repo = r ∧ tag = u := by simpa [Scan.covers] using hk
      exact same at_ d
    | _ => cases hk
  simp only [newest, tagHistoryPage, Option.map_none]
  rw [scanFrom_congr covered (fun b hb => by cases hb)]

/-- The event may be stored as the tag's newest: the newest event stored is not
newer, or leaves the tag as this one does; and no other event has its key. -/
structure Timely (s : Store) (repo : RepoId) (tag : Tag) (now : Timestamp) (digest : Digest)
    (event : TagEvent) : Prop where
  newest : ∀ entry ∈ s.newest repo tag,
    (entry.at_.millis < now.millis ∨ entry.at_ = now ∧ digest.encode ≤ entry.digest.encode) ∨
      entry.event.leaves entry.digest = event.leaves digest
  own : ∀ other, s.get (.tagHistory repo tag now digest) = some (.event other) → other = event

/-- What the newest event says of the tag. -/
def told (s : Store) (repo : RepoId) (tag : Tag) : Option Digest :=
  (s.newest repo tag).bind fun entry => entry.event.leaves entry.digest

/-- A timely event says what the tag resolves to. -/
theorem told_of_wrote {now : Timestamp} {digest : Digest} {event : TagEvent}
    (wrote : ∀ at_ d, t.get (.tagHistory repo tag at_ d) =
      if now = at_ ∧ digest = d then some (.event event) else s.get (.tagHistory repo tag at_ d))
    (timely : s.Timely repo tag now digest event) :
    t.told repo tag = event.leaves digest := by
  have own : t.get (.tagHistory repo tag now digest) = some (.event event) := by
    rw [wrote, if_pos ⟨rfl, rfl⟩]
  cases hnewest : t.newest repo tag with
  | none =>
    have := newest_eq_none.mp hnewest now digest
    rw [has, own] at this
    cases this
  | some entry =>
    obtain ⟨tagged, stored, least⟩ := newest_eq_some hnewest
    rw [told, hnewest, Option.bind_some]
    by_cases same : now = entry.at_ ∧ digest = entry.digest
    · rw [wrote, if_pos same] at stored
      cases stored
      rw [same.2]
    · -- the newest event was there before, and was the newest then
      rw [wrote, if_neg same] at stored
      have kept {at_ : Timestamp} {d : Digest} (h : s.has (.tagHistory repo tag at_ d) = true) :
          t.has (.tagHistory repo tag at_ d) = true := by
        rw [has, wrote]
        split
        · rfl
        · exact h
      have before : s.newest repo tag = some entry := by
        cases hold : s.newest repo tag with
        | none =>
          have := newest_eq_none.mp hold entry.at_ entry.digest
          rw [has, stored] at this
          cases this
        | some old =>
          obtain ⟨tagged', stored', least'⟩ := newest_eq_some hold
          have le := least old.at_ old.digest (kept (by rw [has, stored']; rfl))
          have ge := least' entry.at_ entry.digest (by rw [has, stored]; rfl)
          obtain ⟨-, -, hat, hd⟩ := Key.tagHistory.inj (le_antisymm ge le)
          obtain ⟨at_, u, d, e⟩ := old
          obtain ⟨at', u', d', e'⟩ := entry
          dsimp only at hat hd tagged tagged' stored stored'
          subst hat hd tagged tagged'
          rw [stored] at stored'
          cases stored'
          rfl
      rcases timely.newest entry before with first | alike
      · have le := least now digest (by rw [has, own]; rfl)
        have ge : Key.tagHistory repo tag now digest ≤ .tagHistory repo tag entry.at_ entry.digest :=
          keys.tagHistory_le_iff.mpr (first.imp id fun h => ⟨h.1.symm, h.2⟩)
        obtain ⟨-, -, hat, hd⟩ := Key.tagHistory.inj (le_antisymm ge le)
        exact absurd ⟨hat, hd⟩ same
      · exact alike

end Store

end Summ
