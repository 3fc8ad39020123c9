import Mathlib.Data.List.Infix
import Summ.Meta.Redb

/-!
# Finding repositories by name

`searchRepos` turns a name prefix and a cursor, two independent inputs, into one
scan, on either engine. `searchReposContaining` walks the names and stops at the
match one past the page or at its ceiling, whichever is first.
-/

namespace Summ

open keys Rocks

structure RepoList where
  repos : List Text
  next : Option Text
  deriving DecidableEq

/-- The engines a registry runs on. -/
inductive Engine
  | rocks
  | redb

/-- `parse_repo_name`. -/
def Key.repoName : Key → Option Text
  | .repoByName name => some name
  | _ => none

namespace Store

variable (s : Store)

/-- `MetaEngine::scan_keys` of either engine, from a cursor that need not be a key's. -/
def scanOn (engine : Engine) (p : Scan) (startAfter : Option Bytes) (limit : Nat) :
    Page Key Value :=
  match engine with
  | .rocks => s.scanFrom p startAfter limit
  | .redb => unwrap (Redb.scan (Sum.elim Key.bytes id) (s.map.entries.map wrap) p.bytes
      (startAfter.map Sum.inr) limit)

/-- `search_repos`. -/
def searchRepos (engine : Engine) (pre : Text) (startAfter : Option Text) (limit : Nat) :
    RepoList :=
  let page := s.scanOn engine (.reposNamed pre) (startAfter.map keys.repoByName) limit
  { repos := page.entries.filterMap fun e => e.1.repoName
    next := page.next.bind Key.repoName }

/-- The names stored. -/
def repoNames : List Text := (s.under .reposByName none).filterMap fun e => e.1.repoName

variable {s}

theorem repoNames_rows :
    (s.under .reposByName none).map (fun e => e.1.repoName) = s.repoNames.map some ∧
      (s.under .reposByName none).map Prod.fst = s.repoNames.map Key.repoByName := by
  have rows (l : List (Key × Value)) (hl : ∀ e ∈ l, e ∈ s.under .reposByName none) :
      l.map (fun e => e.1.repoName) = (l.filterMap fun e => e.1.repoName).map some ∧
        l.map Prod.fst = (l.filterMap fun e => e.1.repoName).map Key.repoByName := by
    induction l with
    | nil => exact ⟨rfl, rfl⟩
    | cons e l ih =>
      obtain ⟨rows, keyed⟩ := ih fun e he => hl e (List.mem_cons_of_mem _ he)
      obtain ⟨k, v⟩ := e
      have covers := (mem_under.mp (hl _ List.mem_cons_self)).1
      cases k with
      | repoByName name =>
        have head : (((Key.repoByName name, v) :: l).filterMap fun e => e.1.repoName) =
            name :: l.filterMap fun e => e.1.repoName := List.filterMap_cons_some rfl
        rw [head, List.map_cons, List.map_cons, List.map_cons, List.map_cons, ← rows, ← keyed]
        exact ⟨rfl, rfl⟩
      | _ => cases covers
  exact rows _ fun e he => he

theorem mem_repoNames {name : Text} : name ∈ s.repoNames ↔ s.has (.repoByName name) = true := by
  have keyed := (repoNames_rows (s := s)).2
  have mem : name ∈ s.repoNames ↔
      Key.repoByName name ∈ (s.under .reposByName none).map Prod.fst := by
    rw [keyed]
    simp
  rw [mem, List.mem_map, has, Option.isSome_iff_exists]
  constructor
  · rintro ⟨⟨k, v⟩, he, rfl⟩
    exact ⟨v, (mem_under.mp he).2.2⟩
  · rintro ⟨v, hv⟩
    exact ⟨(.repoByName name, v), mem_under.mpr ⟨rfl, fun a ha => (by cases ha), hv⟩, rfl⟩

theorem repoByName_lt_iff {a b : Text} :
    Key.repoByName a < Key.repoByName b ↔ Bytes.utf8 a < Bytes.utf8 b := by
  rw [Key.lt_iff]
  exact Bytes.append_lt_append_left (p := [PREFIX_REPO_BY_NAME])

/-- In byte order, and so each once. -/
theorem repoNames_sorted (s : Store) :
    s.repoNames.Pairwise fun a b => Bytes.utf8 a < Bytes.utf8 b := by
  have sorted : (s.repoNames.map Key.repoByName).Pairwise (· < ·) := by
    rw [← repoNames_rows.2, List.pairwise_map]
    exact s.under_sorted _ none
  rw [List.pairwise_map] at sorted
  exact sorted.imp fun lt => repoByName_lt_iff.mp lt

/-- The names that start with the prefix and come strictly after the cursor, in
byte order. -/
def matching (s : Store) (pre : Text) (startAfter : Option Text) : List Text :=
  s.repoNames.filter fun name => decide (Bytes.utf8 pre <+: Bytes.utf8 name) &&
    startAfter.all fun c => decide (Bytes.utf8 c < Bytes.utf8 name)

/-- What a search for a prefix is to answer. -/
structure SearchExact (s : Store) (pre : Text) (startAfter : Option Text) (limit : Nat)
    (list : RepoList) : Prop where
  repos : list.repos = (s.matching pre startAfter).take limit
  next : list.next.isSome = true ↔ limit < (s.matching pre startAfter).length

/-- A stored name lies after the cursor and before every name with the prefix,
of which there are some. -/
def CursorShort (s : Store) (pre : Text) (startAfter : Option Text) : Prop :=
  ∃ c ∈ startAfter,
    (∃ name, s.has (.repoByName name) = true ∧ Bytes.utf8 c < Bytes.utf8 name ∧
      Bytes.utf8 name < Bytes.utf8 pre) ∧
    ∃ name, s.has (.repoByName name) = true ∧ Bytes.utf8 pre <+: Bytes.utf8 name

section Search
variable {pre : Text} {startAfter : Option Text} {limit : Nat}

/-- RocksDB groups no name keys, so the engines read the same. -/
theorem scanOn_eq (engine : Engine) (pos : 0 < limit) :
    s.scanOn engine (.reposNamed pre) (startAfter.map keys.repoByName) limit =
      unwrap (Page.cut limit ((Redb.range (Sum.elim Key.bytes id) (s.map.entries.map wrap)
        (keys.repoByName pre) ((startAfter.map keys.repoByName).map Sum.inr)).takeWhile fun e =>
          decide (keys.repoByName pre <+: Sum.elim Key.bytes id e.1))) := by
  have redb := Redb.scan_from (Sum.elim Key.bytes id) (s.map.entries.map wrap)
    (keys.repoByName pre) ((startAfter.map keys.repoByName).map Sum.inr) pos
  cases engine with
  | redb => exact congrArg unwrap redb
  | rocks =>
    have free : summInDomain ((((startAfter.map keys.repoByName).map Sum.inr).map
        (Sum.elim Key.bytes id)).getD (keys.repoByName pre)) = false := by
      cases startAfter with
      | none => exact not_inDomain (by decide)
      | some c => exact not_inDomain (by decide)
    exact congrArg unwrap ((Rocks.scan_from s.wrapped_sorted free pos).trans redb)

theorem repoByName_lt {a b : Text} :
    keys.repoByName a < keys.repoByName b ↔ Bytes.utf8 a < Bytes.utf8 b :=
  Bytes.append_lt_append_left (p := [PREFIX_REPO_BY_NAME])

/-- Between two name keys there are name keys only. -/
theorem gap_iff : Redb.Gap (Sum.elim Key.bytes id) (s.map.entries.map wrap) (keys.repoByName pre)
      ((startAfter.map keys.repoByName).map Sum.inr) ↔
    ∃ c ∈ startAfter, ∃ name, s.has (.repoByName name) = true ∧
      Bytes.utf8 c < Bytes.utf8 name ∧ Bytes.utf8 name < Bytes.utf8 pre := by
  constructor
  · rintro ⟨c', hc', e, he, beyond, below⟩
    obtain ⟨b, hb, rfl⟩ := Option.map_eq_some_iff.mp hc'
    obtain ⟨c, hc, rfl⟩ := Option.map_eq_some_iff.mp hb
    obtain ⟨⟨k, v⟩, mem, rfl⟩ := List.mem_map.mp he
    have starts (name : Text) : [PREFIX_REPO_BY_NAME] <+: keys.repoByName name :=
      List.prefix_append _ _
    have named : Scan.reposByName.bytes <+: k.bytes :=
      Bytes.startsWith_convex (starts c) (starts pre) (le_of_lt beyond) (le_of_lt below)
    rw [Scan.bytes_prefix_iff] at named
    cases k with
    | repoByName name =>
      refine ⟨c, hc, name, ?_, repoByName_lt.mp beyond, repoByName_lt.mp below⟩
      rw [has, get, OrderedMap.get_eq_some.mpr mem]
      rfl
    | _ => cases named
  · rintro ⟨c, hc, name, stored, beyond, below⟩
    obtain ⟨v, hv⟩ := Option.isSome_iff_exists.mp stored
    refine ⟨Sum.inr (keys.repoByName c), ?_, wrap (.repoByName name, v),
      List.mem_map_of_mem (OrderedMap.get_eq_some.mp hv), repoByName_lt.mpr beyond,
      repoByName_lt.mpr below⟩
    rw [Option.mem_def.mp hc]
    rfl

theorem matching_rows : (s.underFrom (.reposNamed pre) (startAfter.map keys.repoByName)).map
    (fun e => e.1.repoName) = (s.matching pre startAfter).map some := by
  let passes (k : Key) : Bool := (Scan.reposNamed pre).covers k &&
    (startAfter.map keys.repoByName).all fun b => decide (b < k.bytes)
  have split : s.underFrom (.reposNamed pre) (startAfter.map keys.repoByName) =
      (s.under .reposByName none).filter fun e => passes e.1 := by
    simp only [underFrom, under, OrderedMap.entriesWhere, List.filter_filter, Option.all_none,
      Bool.and_true]
    apply List.filter_congr
    rintro ⟨k, v⟩ _
    cases k <;> first | rfl | exact (Bool.and_true _).symm
  rw [split]
  refine Page.filter_rows repoNames_rows.1 repoNames_rows.2 fun name _ => ?_
  cases startAfter with
  | none => rfl
  | some c =>
    have lt : decide (keys.repoByName c < (Key.repoByName name).bytes) =
        decide (Bytes.utf8 c < Bytes.utf8 name) := decide_eq_decide.mpr repoByName_lt
    simp only [passes, Option.map_some, Option.all_some, lt, Scan.covers]

theorem mem_matching {name : Text} : name ∈ s.matching pre startAfter ↔
    s.has (.repoByName name) = true ∧ Bytes.utf8 pre <+: Bytes.utf8 name ∧
      ∀ c ∈ startAfter, Bytes.utf8 c < Bytes.utf8 name := by
  rw [matching, List.mem_filter, mem_repoNames, Bool.and_eq_true, decide_eq_true_eq]
  cases startAfter <;> simp

variable (s pre startAfter) in
/-- With no name between the cursor and the prefix, a page is cut from the matches. -/
theorem searchRepos_no_gap (engine : Engine) (pos : 0 < limit)
    (gap : ¬∃ c ∈ startAfter, ∃ name, s.has (.repoByName name) = true ∧
      Bytes.utf8 c < Bytes.utf8 name ∧ Bytes.utf8 name < Bytes.utf8 pre) :
    s.searchRepos engine pre startAfter limit =
      { repos := (s.matching pre startAfter).take limit
        next := if limit < (s.matching pre startAfter).length then
          ((s.matching pre startAfter).take limit).getLast? else none } := by
  rw [← gap_iff] at gap
  have page : s.scanOn engine (.reposNamed pre) (startAfter.map keys.repoByName) limit =
      Page.cut limit (s.underFrom (.reposNamed pre) (startAfter.map keys.repoByName)) := by
    rw [scanOn_eq engine pos, Redb.range_no_gap s.wrapped_sorted gap, ← unwrap_cut,
      ← s.after_wrapped]
    rfl
  have named : ∀ e ∈ s.underFrom (.reposNamed pre) (startAfter.map keys.repoByName), ∀ name,
      e.1.repoName = some name → some name = e.1.repoName := fun e _ name h => h.symm
  have next := congrArg Option.join (Page.cut_next_rows matching_rows named limit)
  have bind (c : Option Key) : (c.map Key.repoName).join = c.bind Key.repoName := by
    cases c <;> rfl
  have last (c : Option Text) : (c.map some).join = c := by cases c <;> rfl
  rw [searchRepos, page, Page.cut_rows matching_rows, ← bind, next]
  split
  · rw [last]
  · rfl

/-- A search for a prefix is exact on either engine, unless a name lies between
the cursor and the names with the prefix. -/
theorem search_exact_iff (engine : Engine) (s : Store) (pre : Text) (startAfter : Option Text)
    {limit : Nat} (pos : 0 < limit) :
    s.SearchExact pre startAfter limit (s.searchRepos engine pre startAfter limit) ↔
      ¬s.CursorShort pre startAfter := by
  by_cases gap : ∃ c ∈ startAfter, ∃ name, s.has (.repoByName name) = true ∧
      Bytes.utf8 c < Bytes.utf8 name ∧ Bytes.utf8 name < Bytes.utf8 pre
  · have page : s.searchRepos engine pre startAfter limit = { repos := [], next := none } := by
      rw [searchRepos, scanOn_eq engine pos, Redb.range_gap s.wrapped_sorted (gap_iff.mpr gap),
        ← List.map_nil (f := wrap), unwrap_cut]
      simp [Page.cut]
    obtain ⟨c, hc, between⟩ := gap
    obtain ⟨x, stored, beyond, below⟩ := between
    have empty : s.matching pre startAfter = [] ↔
        ¬∃ name, s.has (.repoByName name) = true ∧ Bytes.utf8 pre <+: Bytes.utf8 name := by
      rw [List.eq_nil_iff_forall_not_mem, not_exists]
      refine forall_congr' fun name => not_congr ?_
      rw [mem_matching]
      refine ⟨fun h => ⟨h.1, h.2.1⟩, fun h => ⟨h.1, h.2, ?_⟩⟩
      -- the names with the prefix come after the cursor, since the prefix does
      intro c' hc'
      cases Option.mem_unique hc hc'
      exact lt_of_lt_of_le (lt_trans beyond below) (Bytes.prefix_le h.2)
    rw [page]
    constructor
    · rintro ⟨repos, -⟩ ⟨-, -, -, some_⟩
      have none_ : s.matching pre startAfter = [] := by
        rcases List.take_eq_nil_iff.mp repos.symm with zero | nil
        · omega
        · exact nil
      exact empty.mp none_ some_
    · intro h
      have none_ := empty.mpr fun some_ => h ⟨c, hc, ⟨x, stored, beyond, below⟩, some_⟩
      exact ⟨by rw [none_, List.take_nil], by rw [none_]; simp⟩
  · have whole : ¬s.CursorShort pre startAfter := by
      rintro ⟨c, hc, between, -⟩
      exact gap ⟨c, hc, between⟩
    refine iff_of_true ?_ whole
    rw [searchRepos_no_gap _ _ _ engine pos gap]
    refine ⟨rfl, ?_⟩
    dsimp only
    split
    · rename_i more
      refine iff_of_true ?_ more
      have full : (s.matching pre startAfter).take limit ≠ [] := by
        rw [Ne, List.take_eq_nil_iff, not_or]
        exact ⟨by omega, List.ne_nil_of_length_pos (by omega)⟩
      rw [List.getLast?_eq_some_getLast full]
      rfl
    · rename_i last
      exact iff_of_false (by simp) last

/-- Two repositories, of which the first is no match of the search for `m`. -/
def twoNames : Store := (∅ : Store).apply [
  .put (.repoByName "b".toList) (.repoId 0) rfl, .put (.repoByName "mx".toList) (.repoId 1) rfl]

theorem search_exact_iff_within :
    twoNames.SearchExact "m".toList (some "m".toList) 1
        (twoNames.searchRepos .rocks "m".toList (some "m".toList) 1) ↔
      ¬twoNames.CursorShort "m".toList (some "m".toList) :=
  search_exact_iff .rocks twoNames "m".toList (some "m".toList) (by decide)

/-- Resumed after `a`, a search for `m` ends at `b` and finds nothing. -/
theorem search_below_prefix :
    (¬∀ (s : Store) pre startAfter limit, 0 < limit →
      s.SearchExact pre startAfter limit (s.searchRepos .rocks pre startAfter limit)) ∧
    ¬∀ (s : Store) pre startAfter limit, 0 < limit →
      s.SearchExact pre startAfter limit (s.searchRepos .redb pre startAfter limit) := by
  have found : twoNames.matching "m".toList (some "a".toList) = ["mx".toList] := by
    decide +kernel
  have missed : (twoNames.searchRepos .rocks "m".toList (some "a".toList) 10).repos = [] ∧
      (twoNames.searchRepos .redb "m".toList (some "a".toList) 10).repos = [] := by
    decide +kernel
  constructor
  · intro searches
    have repos := (searches twoNames "m".toList (some "a".toList) 10 (by decide)).repos
    rw [found, missed.1] at repos
    cases repos
  · intro searches
    have repos := (searches twoNames "m".toList (some "a".toList) 10 (by decide)).repos
    rw [found, missed.2] at repos
    cases repos

end Search

end Store

/-! ## Substrings -/

def SEARCH_STEP : Nat := 512

/-- One page of a keys-only scan, of names. -/
structure NamePage where
  keys : List Text
  next : Option Text
  deriving DecidableEq

/-- `name.contains(needle)`. -/
def contains (name needle : Text) : Bool := name.tails.any fun rest => needle.isPrefixOf rest

/-- The names of one page: what is found, how many were looked at, and whether
the match one past the page was among them. -/
def examine (needle : Text) (limit : Nat) :
    List Text → (repos : List Text) → (examined : Nat) → List Text × Nat × Bool
  | [], repos, examined => (repos, examined, false)
  | name :: keys, repos, examined =>
    if !contains name needle then examine needle limit keys repos (examined + 1)
    else if repos.length = limit then (repos, examined + 1, true)
    else examine needle limit keys (repos ++ [name]) (examined + 1)

section
variable (scanKeys : Option Text → Nat → NamePage)

/-- The loop of `search_repos_containing`: its page, and how many names the
engine handed to it. -/
def searchLoop (needle : Text) (limit ceiling : Nat) :
    Nat → (cursor : Option Text) → (repos : List Text) → (examined : Nat) →
      Option (RepoList × Nat)
  | 0, _, _, _ => none
  | fuel + 1, cursor, repos, examined =>
    let step := min SEARCH_STEP (ceiling - examined)
    let page := scanKeys cursor step
    let read := examined + page.keys.length
    match examine needle limit page.keys repos examined with
    | (repos, _, true) => some ({ repos, next := repos.getLast? }, read)
    | (repos, examined, false) =>
      match page.next with
      | none => some ({ repos, next := none }, read)
      | some key =>
        if ceiling ≤ examined then some ({ repos, next := some key }, read)
        else searchLoop needle limit ceiling fuel (some key) repos examined

/-- `search_repos_containing`. A round of the loop looks at a name at least, so
the ceiling bounds them. -/
def searchReposContaining (ceiling : Nat) (needle : Text) (startAfter : Option Text)
    (limit : Nat) : Option (RepoList × Nat) :=
  if needle.isEmpty then
    let page := scanKeys startAfter limit
    some ({ repos := page.keys, next := page.next }, page.keys.length)
  else searchLoop scanKeys needle limit ceiling (ceiling + 1) startAfter [] 0

end

/-- The names after a cursor. -/
def namesAfter (names : List Text) (c : Option Text) : List Text :=
  names.filter fun name => c.all fun c => decide (Bytes.utf8 c < Bytes.utf8 name)

/-- The scan contract: the first names strictly after the cursor, and a cursor
at the last of them exactly when more follow. -/
structure Contract (names : List Text) (scanKeys : Option Text → Nat → NamePage) : Prop where
  keys : ∀ c limit, 0 < limit → (scanKeys c limit).keys = (namesAfter names c).take limit
  next : ∀ c limit, 0 < limit → (scanKeys c limit).next =
    if limit < (namesAfter names c).length then ((namesAfter names c).take limit).getLast?
    else none

theorem contains_iff {name needle : Text} : contains name needle = true ↔ needle <:+: name := by
  rw [contains, List.any_eq_true]
  constructor
  · rintro ⟨rest, hrest, h⟩
    exact (List.isPrefixOf_iff_prefix.mp h).isInfix.trans ((List.mem_tails _ _).mp hrest).isInfix
  · rintro ⟨front, back, rfl⟩
    refine ⟨needle ++ back, (List.mem_tails _ _).mpr ⟨front, by simp⟩, ?_⟩
    exact List.isPrefixOf_iff_prefix.mpr (List.prefix_append _ _)

/-! ### One call -/

/-- Where the first `m` items that pass end. -/
theorem exists_cut {α : Type*} (p : α → Bool) {l : List α} {m : Nat} (pos : 0 < m)
    (h : m ≤ (l.filter p).length) : ∃ (j : Nat) (_ : j < l.length),
      (l.take (j + 1)).filter p = (l.filter p).take m ∧
        ((l.filter p).take m).getLast? = some l[j] := by
  induction l generalizing m with
  | nil => simp at h; omega
  | cons a l ih =>
    by_cases ha : p a = true
    · rw [List.filter_cons_of_pos ha] at h ⊢
      obtain ⟨m, rfl⟩ : ∃ n, m = n + 1 := ⟨m - 1, by omega⟩
      cases m with
      | zero => exact ⟨0, by simp, by simp [ha], by simp⟩
      | succ m =>
        rw [List.length_cons] at h
        obtain ⟨j, hj, taken, last⟩ := ih (m := m + 1) (by omega) (by omega)
        refine ⟨j + 1, by simpa using hj, ?_, ?_⟩
        · rw [List.take_succ_cons, List.filter_cons_of_pos ha, taken, List.take_succ_cons]
        · rw [List.take_succ_cons, List.getLast?_cons, last]
          rfl
    · rw [List.filter_cons_of_neg ha] at h ⊢
      obtain ⟨j, hj, taken, last⟩ := ih pos h
      refine ⟨j + 1, by simpa using hj, ?_, last⟩
      rw [List.take_succ_cons, List.filter_cons_of_neg ha, taken]

section Call
variable {needle : Text} {limit : Nat}

/-- The names that contain the needle. -/
def hits (needle : Text) (names : List Text) : List Text := names.filter fun n => contains n needle

theorem hits_cons {name : Text} {names : List Text} (h : contains name needle = true) :
    hits needle (name :: names) = name :: hits needle names := List.filter_cons_of_pos h

theorem hits_cons_not {name : Text} {names : List Text} (h : ¬contains name needle = true) :
    hits needle (name :: names) = hits needle names := List.filter_cons_of_neg h

theorem hits_append (names more : List Text) :
    hits needle (names ++ more) = hits needle names ++ hits needle more := List.filter_append ..

/-- The page has room for all that is found. -/
theorem examine_within {keys repos : List Text} (examined : Nat)
    (room : repos.length + (hits needle keys).length ≤ limit) :
    examine needle limit keys repos examined =
      (repos ++ hits needle keys, examined + keys.length, false) := by
  induction keys generalizing repos examined with
  | nil => simp [examine, hits]
  | cons name keys ih =>
    rw [examine]
    by_cases found : contains name needle = true
    · rw [hits_cons found, List.length_cons] at room
      rw [if_neg (by simp [found]), if_neg (by omega), ih _ (by simp; omega),
        hits_cons found]
      simp; omega
    · rw [hits_cons_not found] at room
      rw [if_pos (by simpa using found), ih _ room, hits_cons_not found]
      simp; omega

/-- A match past the page is among the names. -/
theorem examine_past {keys repos : List Text} (examined : Nat) (fits : repos.length ≤ limit)
    (past : limit < repos.length + (hits needle keys).length) :
    ∃ n, examine needle limit keys repos examined =
      (repos ++ (hits needle keys).take (limit - repos.length), n, true) := by
  induction keys generalizing repos examined with
  | nil =>
    simp [hits] at past
    omega
  | cons name keys ih =>
    rw [examine]
    by_cases found : contains name needle = true
    · rw [hits_cons found, List.length_cons] at past
      rw [if_neg (by simp [found]), hits_cons found]
      by_cases full : repos.length = limit
      · exact ⟨examined + 1, by rw [if_pos full, full, Nat.sub_self, List.take_zero,
          List.append_nil]⟩
      · have step : limit - repos.length = limit - (repos.length + 1) + 1 := by omega
        obtain ⟨n, rest⟩ := @ih (repos ++ [name]) (examined + 1) (by simp; omega)
          (by simp; omega)
        refine ⟨n, ?_⟩
        rw [if_neg full, rest, step, List.take_succ_cons, List.append_assoc]
        simp
    · rw [hits_cons_not found] at past
      rw [if_pos (by simpa using found), hits_cons_not found]
      exact ih (examined + 1) fits past

/-- What a call makes of the names that are left: all their matches and no
cursor, or the matches up to the name that is its cursor. -/
structure Found (needle : Text) (left : List Text) (page : RepoList) : Prop where
  all : page.next = none → page.repos = hits needle left
  upTo : ∀ next ∈ page.next, ∃ (j : Nat) (_ : j < left.length), next = left[j] ∧
    page.repos = hits needle (left.take (j + 1))

variable {names : List Text} {scanKeys : Option Text → Nat → NamePage} {startAfter : Option Text}

theorem namesAfter_getElem (sorted : names.Pairwise fun a b => Bytes.utf8 a < Bytes.utf8 b)
    {i : Nat} (hi : i < (namesAfter names startAfter).length) :
    namesAfter names (some (namesAfter names startAfter)[i]) =
      (namesAfter names startAfter).drop (i + 1) := by
  have sorted' : (namesAfter names startAfter).Pairwise fun a b => Bytes.utf8 a < Bytes.utf8 b :=
    sorted.filter _
  rw [← OrderedMap.filter_lt_getElem Bytes.utf8 sorted' hi]
  have above := (List.mem_filter.mp (List.getElem_mem hi)).2
  generalize (namesAfter names startAfter)[i] = n at above
  rw [namesAfter, namesAfter, List.filter_filter]
  apply List.filter_congr
  intro name _
  cases startAfter with
  | none => simp
  | some c =>
    rw [Option.all_some, decide_eq_true_eq] at above
    by_cases lt : Bytes.utf8 n < Bytes.utf8 name
    · simp [lt, lt_trans above lt]
    · simp [lt]

/-- The loop, resumed where it has examined `k` of the names that are left. -/
theorem searchLoop_found (contract : Contract names scanKeys)
    (sorted : names.Pairwise fun a b => Bytes.utf8 a < Bytes.utf8 b) (pos : 0 < limit)
    {ceiling fuel k : Nat} {cursor : Option Text} {repos : List Text} (budget : k < ceiling)
    (enough : ceiling - k < fuel)
    (resumed : namesAfter names cursor = (namesAfter names startAfter).drop k)
    (gathered : repos = hits needle ((namesAfter names startAfter).take k))
    (fits : repos.length ≤ limit) :
    ∃ page n, searchLoop scanKeys needle limit ceiling fuel cursor repos k = some (page, n) ∧
      n ≤ ceiling ∧ page.repos.length ≤ limit ∧
        Found needle (namesAfter names startAfter) page := by
  induction fuel generalizing k cursor repos with
  | zero => omega
  | succ fuel ih =>
    set left := namesAfter names startAfter with hleft
    have step : 0 < min SEARCH_STEP (ceiling - k) := by
      rw [SEARCH_STEP]
      omega
    have small : min SEARCH_STEP (ceiling - k) ≤ ceiling - k := Nat.min_le_right _ _
    rw [searchLoop]
    generalize min SEARCH_STEP (ceiling - k) = size at step small ⊢
    have keys := contract.keys cursor size step
    have next := contract.next cursor size step
    rw [resumed] at keys next
    have read : k + (scanKeys cursor size).keys.length ≤ ceiling := by
      rw [keys, List.length_take]
      omega
    -- what the round adds to what was gathered, and what it leaves
    have upTo : repos ++ hits needle (scanKeys cursor size).keys =
        hits needle (left.take (k + size)) := by
      rw [gathered, keys, ← hits_append, List.take_add]
    have whole : hits needle left =
        hits needle (left.take (k + size)) ++ hits needle (left.drop (k + size)) := by
      rw [← hits_append, List.take_append_drop]
    by_cases room : repos.length + (hits needle (scanKeys cursor size).keys).length ≤ limit
    · rw [examine_within k room, upTo]
      have fits' : (hits needle (left.take (k + size))).length ≤ limit := by
        rw [← upTo, List.length_append]
        exact room
      by_cases more : size < (left.drop k).length
      · have hlast : k + size - 1 < left.length := by
          rw [List.length_drop] at more
          omega
        have last : (scanKeys cursor size).next = some left[k + size - 1] := by
          rw [next, if_pos more, List.getLast?_eq_getElem?, List.length_take,
            Nat.min_eq_left (Nat.le_of_lt more), List.getElem?_take_of_lt (by omega),
            List.getElem?_drop, List.getElem?_eq_getElem (by omega)]
          simp only [Nat.add_sub_assoc step]
        have count : (scanKeys cursor size).keys.length = size := by
          rw [keys, List.length_take, Nat.min_eq_left (Nat.le_of_lt more)]
        dsimp only
        rw [last, count]
        dsimp only
        by_cases spent : ceiling ≤ k + size
        · rw [if_pos spent]
          refine ⟨_, _, rfl, by omega, fits', by simp, ?_⟩
          rintro n hn
          cases hn
          exact ⟨k + size - 1, hlast, rfl, by rw [Nat.sub_add_cancel (by omega)]⟩
        · rw [if_neg spent]
          refine ih (by omega) (by omega) ?_ rfl fits'
          rw [namesAfter_getElem sorted hlast, Nat.sub_add_cancel (by omega)]
      · rw [if_neg more] at next
        dsimp only
        rw [next]
        have none_ : left.drop (k + size) = [] := by
          rw [List.length_drop] at more
          exact List.drop_eq_nil_of_le (by omega)
        have all : hits needle (left.take (k + size)) = hits needle left := by
          rw [whole, none_]
          exact (List.append_nil _).symm
        exact ⟨_, _, rfl, read, fits', fun _ => all, by simp⟩
    · -- the match one past the page is among the names of this round
      obtain ⟨n, answer⟩ := examine_past k fits (Nat.lt_of_not_le room)
      have full : repos ++ (hits needle (scanKeys cursor size).keys).take (limit - repos.length) =
          (hits needle left).take limit := by
        rw [whole, ← upTo, List.append_assoc, List.take_append, List.take_of_length_le fits,
          List.take_append_of_le_length (by omega)]
      have long : limit ≤ (hits needle left).length := by
        rw [whole, ← upTo, List.length_append, List.length_append]
        omega
      obtain ⟨j, hj, taken, last⟩ := exists_cut (fun n => contains n needle) pos long
      rw [answer, full]
      refine ⟨_, _, rfl, read, List.length_take_le _ _, ?_, ?_⟩
      · intro none_
        cases last.symm.trans none_
      · intro next' hnext
        cases last.symm.trans (Option.mem_def.mp hnext)
        exact ⟨j, hj, rfl, taken.symm⟩

theorem hits_nil (names : List Text) : hits [] names = names :=
  List.filter_eq_self.mpr fun _ _ => contains_iff.mpr List.nil_infix

/-- What one call answers. -/
theorem search_found (contract : Contract names scanKeys)
    (sorted : names.Pairwise fun a b => Bytes.utf8 a < Bytes.utf8 b) (needle : Text)
    (startAfter : Option Text) (pos : 0 < limit) {ceiling : Nat} (room : 0 < ceiling) :
    ∃ page n, searchReposContaining scanKeys ceiling needle startAfter limit = some (page, n) ∧
      (n ≤ if needle = [] then limit else ceiling) ∧
        Found needle (namesAfter names startAfter) page := by
  rw [searchReposContaining]
  cases needle with
  | nil =>
    rw [if_pos rfl]
    have keys := contract.keys startAfter limit pos
    have next := contract.next startAfter limit pos
    refine ⟨_, _, rfl, ?_, ?_, ?_⟩
    · rw [keys]
      exact List.length_take_le _ _
    · intro none_
      dsimp only at none_ ⊢
      rw [none_] at next
      rw [keys, hits_nil, List.take_of_length_le]
      by_contra more
      have full : (namesAfter names startAfter).take limit ≠ [] := by
        rw [Ne, List.take_eq_nil_iff, not_or]
        exact ⟨by omega, List.ne_nil_of_length_pos (by omega)⟩
      rw [if_pos (Nat.lt_of_not_le more), List.getLast?_eq_some_getLast full] at next
      cases next
    · intro n hn
      dsimp only at hn ⊢
      rw [next] at hn
      split at hn
      · rename_i more
        rw [List.getLast?_eq_getElem?, List.length_take, Nat.min_eq_left (Nat.le_of_lt more),
          List.getElem?_take_of_lt (by omega), List.getElem?_eq_getElem (by omega)] at hn
        cases hn
        refine ⟨limit - 1, by omega, rfl, ?_⟩
        rw [keys, hits_nil, Nat.sub_add_cancel pos]
      · cases hn
  | cons a needle =>
    rw [if_neg (by simp)]
    have gathered : ([] : List Text) =
        hits (a :: needle) ((namesAfter names startAfter).take 0) := by
      rw [List.take_zero]
      rfl
    obtain ⟨page, n, answer, budget, -, found⟩ := searchLoop_found contract sorted pos room
      (Nat.lt_succ_self _) List.drop_zero.symm gathered (Nat.zero_le limit)
    exact ⟨page, n, answer, by rwa [if_neg (List.cons_ne_nil _ _)], found⟩

/-- A client asks for the page after the cursor it was given. -/
def askSearch (scanKeys : Option Text → Nat → NamePage) (ceiling : Nat) (needle : Text)
    (limit : Nat) (_ : Unit) (c : Option Text) : Option ((List Text × Option Text) × Unit) :=
  (searchReposContaining scanKeys ceiling needle c limit).map fun r => ((r.1.repos, r.1.next), ())

theorem walk_found (contract : Contract names scanKeys)
    (sorted : names.Pairwise fun a b => Bytes.utf8 a < Bytes.utf8 b) (needle : Text)
    (pos : 0 < limit) {ceiling : Nat} (room : 0 < ceiling) {fuel : Nat} (c : Option Text)
    (enough : (namesAfter names c).length < fuel) :
    ∃ pages, Page.walk (askSearch scanKeys ceiling needle limit) fuel () c = some pages ∧
      pages.flatten = hits needle (namesAfter names c) := by
  induction fuel generalizing c with
  | zero => omega
  | succ fuel ih =>
    obtain ⟨page, n, answer, -, found⟩ := search_found contract sorted needle c pos room
    have asked : askSearch scanKeys ceiling needle limit () c =
        some ((page.repos, page.next), ()) := by
      rw [askSearch, answer]
      rfl
    cases hn : page.next with
    | none =>
      refine ⟨[page.repos], ?_, by rw [found.all hn]; simp⟩
      rw [Page.walk, asked, hn]
    | some next =>
      obtain ⟨j, hj, rfl, repos⟩ := found.upTo next hn
      have rest := namesAfter_getElem sorted hj
      obtain ⟨pages, run, lists⟩ := ih (some (namesAfter names c)[j]) (by
        rw [rest, List.length_drop]
        omega)
      refine ⟨page.repos :: pages, ?_, ?_⟩
      · rw [Page.walk, asked, hn]
        dsimp only
        rw [run]
        rfl
      · rw [List.flatten_cons, lists, rest, repos, ← hits_append, List.take_append_drop]

end Call

/-- Over an engine that meets its contract, a search for a substring followed by
its cursors lists every match once, in byte order; a page ends at a name after
its cursor, and carries none only when no match is left; and a call reads no
more names than the ceiling, or for the empty needle, which is a plain listing,
than the page holds. -/
theorem search_exhaustive {names : List Text} {scanKeys : Option Text → Nat → NamePage}
    (contract : Contract names scanKeys)
    (sorted : names.Pairwise fun a b => Bytes.utf8 a < Bytes.utf8 b) (needle : Text)
    {limit ceiling : Nat} (pos : 0 < limit) (room : 0 < ceiling) :
    (∃ fuel pages, Page.walk (askSearch scanKeys ceiling needle limit) fuel () none = some pages ∧
      pages.flatten = names.filter fun name => contains name needle) ∧
    ∀ startAfter, ∃ page read,
      searchReposContaining scanKeys ceiling needle startAfter limit = some (page, read) ∧
        (read ≤ if needle = [] then limit else ceiling) ∧
        (∀ next ∈ page.next, next ∈ names ∧ ∀ c ∈ startAfter, Bytes.utf8 c < Bytes.utf8 next) ∧
        (page.next = none → ∀ name ∈ names, contains name needle = true →
          (∀ c ∈ startAfter, Bytes.utf8 c < Bytes.utf8 name) → name ∈ page.repos) := by
  have mem {startAfter : Option Text} {name : Text} : name ∈ namesAfter names startAfter ↔
      name ∈ names ∧ ∀ c ∈ startAfter, Bytes.utf8 c < Bytes.utf8 name := by
    rw [namesAfter, List.mem_filter]
    cases startAfter <;> simp
  constructor
  · obtain ⟨pages, run, lists⟩ := walk_found contract sorted needle pos room none
      (Nat.lt_succ_self _)
    refine ⟨_, pages, run, ?_⟩
    have whole : namesAfter names none = names := List.filter_eq_self.mpr fun _ _ => rfl
    rw [lists, whole]
    rfl
  · intro startAfter
    obtain ⟨page, read, answer, budget, found⟩ :=
      search_found contract sorted needle startAfter pos room
    refine ⟨page, read, answer, budget, ?_, ?_⟩
    · intro next hnext
      obtain ⟨j, hj, rfl, -⟩ := found.upTo next hnext
      exact mem.mp (List.getElem_mem hj)
    · intro last name stored matched after
      rw [found.all last]
      exact List.mem_filter.mpr ⟨mem.mpr ⟨stored, after⟩, matched⟩

/-- The names of a store, as either engine scans them. -/
def Store.nameScan (s : Store) (engine : Engine) (c : Option Text) (limit : Nat) : NamePage :=
  let list := s.searchRepos engine [] c limit
  { keys := list.repos, next := list.next }

/-- Both engines meet the contract over the range of names. -/
theorem Store.nameScan_contract (s : Store) (engine : Engine) :
    Contract s.repoNames (s.nameScan engine) := by
  have answer (c : Option Text) {limit : Nat} (pos : 0 < limit) := by
    refine searchRepos_no_gap s [] c engine pos ?_
    rintro ⟨c, -, name, -, -, below⟩
    exact List.not_lt_nil _ below
  have same (c : Option Text) : s.matching [] c = namesAfter s.repoNames c := by
    apply List.filter_congr
    intro name _
    have starts : Bytes.utf8 [] <+: Bytes.utf8 name := List.nil_prefix
    rw [decide_eq_true starts, Bool.true_and]
  constructor <;> intro c limit pos <;> rw [nameScan, answer c pos, same]

theorem search_exhaustive_twoNames :
    (∃ fuel pages, Page.walk (askSearch (Store.twoNames.nameScan .rocks) 1 "x".toList 1) fuel ()
        none = some pages ∧
      pages.flatten = Store.twoNames.repoNames.filter fun name => contains name "x".toList) ∧
    ∀ startAfter, ∃ page read,
      searchReposContaining (Store.twoNames.nameScan .rocks) 1 "x".toList startAfter 1 =
          some (page, read) ∧
        (read ≤ if "x".toList = [] then 1 else 1) ∧
        (∀ next ∈ page.next, next ∈ Store.twoNames.repoNames ∧
          ∀ c ∈ startAfter, Bytes.utf8 c < Bytes.utf8 next) ∧
        (page.next = none → ∀ name ∈ Store.twoNames.repoNames,
          contains name "x".toList = true →
          (∀ c ∈ startAfter, Bytes.utf8 c < Bytes.utf8 name) → name ∈ page.repos) :=
  search_exhaustive (Store.twoNames.nameScan_contract .rocks) (Store.repoNames_sorted _) "x".toList
    (by decide) (by decide)

/-- The empty needle is a plain listing, which no ceiling bounds. -/
theorem listing_exceeds_ceiling :
    ¬∀ (names : List Text) (scanKeys : Option Text → Nat → NamePage), Contract names scanKeys →
      (names.Pairwise fun a b => Bytes.utf8 a < Bytes.utf8 b) →
      ∀ needle limit ceiling, 0 < limit → 0 < ceiling → ∀ startAfter page read,
        searchReposContaining scanKeys ceiling needle startAfter limit = some (page, read) →
          read ≤ ceiling := by
  intro bounds
  have both : searchReposContaining (Store.twoNames.nameScan .rocks) 1 [] none 2 =
      some ({ repos := ["b".toList, "mx".toList], next := none }, 2) := by
    decide +kernel
  have bounded := bounds _ _ (Store.twoNames.nameScan_contract .rocks)
    (Store.repoNames_sorted _) [] 2 1 (by decide) (by decide) none _ 2 both
  omega

end Summ
