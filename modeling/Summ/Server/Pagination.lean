import Summ.Server.Chunks
import Summ.Server.Headers
import Summ.Server.Routes

/-!
# Pages and the links between them

What a request's query asks of a listing, and the `Link` header that asks for
the page after it. A link's query, read as the server reads it, is the query it
was written for: `links_lead`.
-/

namespace Summ

-- What holds of all members of a list is decided along the list.
attribute [local instance (high)] List.decidableBAll

open Texts

/-- The bounds of `ServerConfig` on a page. -/
structure ServerConfig where
  defaultPageSize : UInt64
  maxPageSize : UInt64

/-- A validated page request. -/
structure PageParams where
  limit : UInt64
  last : Option Text
  explicitZero : Bool
  deriving DecidableEq

namespace pagination

/-- `parse`. -/
def parse (pairs : List (Text × Text)) (config : ServerConfig) : Except ApiError PageParams := do
  let (limit, explicitZero) ←
    match query.first pairs "n".toList with
    | none => .ok (config.defaultPageSize, false)
    | some value =>
      match parseU64 value with
      | none => .error ((ApiError.new .paginationNumberInvalid).withDetail ("n=".toList ++ value))
      | some n => .ok (minU64 n config.maxPageSize, decide (n = 0))
  let last := (query.first pairs "last".toList).filter fun s => !s.isEmpty
  return { limit, last, explicitZero }

/-- The text of `link_next`. -/
def linkText (path last : Text) (n : UInt64) : Text :=
  ['<'] ++ path ++ "?last=".toList ++ query.queryEscape last ++ "&n=".toList ++ shown n ++
    ">; rel=\"next\"".toList

/-- `link_next`. -/
def linkNext (headers : HeaderLib) (path last : Text) (n : UInt64) : Option headers.HeaderValue :=
  headers.ofText (linkText path last n)

/-- The filter of `link_next_referrers`. -/
def filterText : Option Text → Text
  | some t => "artifactType=".toList ++ query.queryEscape t ++ ['&']
  | none => []

theorem filterText_none : filterText none = [] := rfl

theorem filterText_some (t : Text) :
    filterText (some t) = "artifactType=".toList ++ query.queryEscape t ++ ['&'] := rfl

/-- The text of `link_next_referrers`. -/
def referrersText (path : Text) (artifactType : Option Text) (last : Text) (n : UInt64) : Text :=
  ['<'] ++ path ++ ['?'] ++ filterText artifactType ++ "last=".toList ++ query.queryEscape last ++
    "&n=".toList ++ shown n ++ ">; rel=\"next\"".toList

/-- `link_next_referrers`. -/
def linkNextReferrers (headers : HeaderLib) (path : Text) (artifactType : Option Text)
    (last : Text) (n : UInt64) : Option headers.HeaderValue :=
  headers.ofText (referrersText path artifactType last n)

/-- What a client reads from a `Link`: the path and the query between the brackets. -/
def linkTarget (header : Text) : Option (Text × Text) := do
  let (_, rest) ← splitOnce '<' header
  let (target, _) ← splitOnce '>' rest
  splitOnce '?' target

/-! ## Numbers and escapes -/

theorem shown_eq (n : UInt64) : shown n = Nat.toDigits 10 n.toNat := Nat.toList_repr

theorem digits_shown (n : UInt64) : Digits (shown n) := by
  intro c hc
  rw [shown_eq] at hc
  have digit : c.isDigit = true := Nat.isDigit_of_mem_toDigits (by decide) (by decide) hc
  rw [Char.isDigit, Bool.and_eq_true] at digit
  rw [isDigit, Bool.and_eq_true]
  exact digit

theorem decimal_shown (n : UInt64) : decimal (shown n) = n.toNat := by
  have read : Nat.ofDigitChars 10 (Nat.toDigits 10 n.toNat) 0 = n.toNat := Nat.ofDigitChars_ten_toDigits
  have push : pushDigit = fun k c => 10 * k + (c.toNat - '0'.toNat) := by
    funext k c
    rw [pushDigit, Nat.mul_comm]
  rw [Nat.ofDigitChars_eq_foldl] at read
  rw [decimal, shown_eq, push]
  exact read

theorem parseU64_shown (n : UInt64) : parseU64 (shown n) = some n := by
  refine (parseU64_digits (digits_shown n)).mpr ⟨?_, decimal_shown n⟩
  rw [shown_eq]
  exact Nat.toDigits_ne_nil

/-- A visible character with no meaning in a target or a query. -/
def Inert (c : Char) : Prop :=
  32 ≤ c.toNat ∧ c.toNat < 127 ∧ c ≠ '<' ∧ c ≠ '>' ∧ c ≠ '?' ∧ c ≠ '&' ∧ c ≠ '='

instance (c : Char) : Decidable (Inert c) := inferInstanceAs (Decidable (_ ∧ _))

theorem inert_of_all {t : Text} (all : (t.all fun c => decide (Inert c)) = true) :
    ∀ c ∈ t, Inert c :=
  fun c hc => of_decide_eq_true (List.all_eq_true.mp all c hc)

theorem inert_escape {s : Text} : ∀ c ∈ query.queryEscape s, Inert c := by
  have table : ∀ b : Byte, (query.escapeByte b).all (fun c => decide (Inert c)) = true := by
    decide +kernel
  intro c hc
  obtain ⟨b, -, mem⟩ := List.mem_flatMap.mp hc
  exact of_decide_eq_true (List.all_eq_true.mp (table b) c mem)

theorem inert_shown (n : UInt64) : ∀ c ∈ shown n, Inert c ∧ c ≠ '%' ∧ c ≠ '+' := by
  have table : (DIGITS.all fun c => decide (Inert c ∧ c ≠ '%' ∧ c ≠ '+')) = true := by decide
  intro c hc
  have digit := digits_shown n c hc
  have listed : c ∈ DIGITS := by
    refine (class_iff (p := isDigit) (fun c h => ?_) (by decide) (by decide) c).mp digit
    rw [isDigit, Bool.and_eq_true, decide_eq_true_eq, decide_eq_true_eq] at h
    exact Nat.lt_of_le_of_lt (toNat_le_of_le h.2) (by decide)
  exact of_decide_eq_true (List.all_eq_true.mp table c listed)

theorem inert_segment : ∀ c ∈ SEGMENT, Inert c := by decide +kernel

/-- A path is made of its version, names, words and references. -/
theorem inert_path {e : Endpoint} (valid : e.Valid) : ∀ c ∈ e.path, Inert c := by
  have of_name {name : Text} (valid : validName name = true) : ∀ c ∈ name, Inert c := by
    intro c hc
    rcases (segments_of_valid valid).chars c hc with rfl | segment
    · decide
    · exact inert_segment c segment
  have of_plain {t : Text} (plain : Plain t) : ∀ c ∈ t, Inert c := fun c hc =>
    inert_segment c (plain.chars c hc)
  have version : ∀ c ∈ "/v2/".toList, Inert c := inert_of_all (by decide)
  cases e with
  | base => exact version
  | catalog => exact inert_of_all (by decide)
  | tagList name =>
    change ∀ c ∈ "/v2/".toList ++ name ++ "/tags/list".toList, Inert c
    rw [List.forall_mem_append, List.forall_mem_append]
    exact ⟨⟨version, of_name valid⟩, inert_of_all (by decide)⟩
  | manifest name reference =>
    change ∀ c ∈ "/v2/".toList ++ name ++ "/manifests/".toList ++ reference, Inert c
    rw [List.forall_mem_append, List.forall_mem_append, List.forall_mem_append]
    exact ⟨⟨⟨version, of_name valid.1⟩, inert_of_all (by decide)⟩, of_plain (plain_reference valid.2)⟩
  | blob name digest =>
    change ∀ c ∈ "/v2/".toList ++ name ++ "/blobs/".toList ++ digest, Inert c
    rw [List.forall_mem_append, List.forall_mem_append, List.forall_mem_append]
    exact ⟨⟨⟨version, of_name valid.1⟩, inert_of_all (by decide)⟩, of_plain (plain_digest valid.2).1⟩
  | uploads name =>
    change ∀ c ∈ "/v2/".toList ++ name ++ "/blobs/uploads/".toList, Inert c
    rw [List.forall_mem_append, List.forall_mem_append]
    exact ⟨⟨version, of_name valid⟩, inert_of_all (by decide)⟩
  | upload name id =>
    change ∀ c ∈ "/v2/".toList ++ name ++ "/blobs/uploads/".toList ++ id, Inert c
    rw [List.forall_mem_append, List.forall_mem_append, List.forall_mem_append]
    exact ⟨⟨⟨version, of_name valid.1⟩, inert_of_all (by decide)⟩, of_plain (plain_uploadId valid.2)⟩
  | referrers name digest =>
    change ∀ c ∈ "/v2/".toList ++ name ++ "/referrers/".toList ++ digest, Inert c
    rw [List.forall_mem_append, List.forall_mem_append, List.forall_mem_append]
    exact ⟨⟨⟨version, of_name valid.1⟩, inert_of_all (by decide)⟩, of_plain (plain_digest valid.2).1⟩

/-! ## The query of a link -/

/-- The query that both links are written with. -/
def linkQuery (artifactType : Option Text) (last : Text) (n : UInt64) : Text :=
  filterText artifactType ++ ("last=".toList ++ query.queryEscape last) ++ '&' ::
    ("n=".toList ++ shown n)

theorem linkText_eq (path last : Text) (n : UInt64) :
    linkText path last n = referrersText path none last n := by
  have words : "?last=".toList = ['?'] ++ [] ++ "last=".toList := by decide
  rw [linkText, referrersText, words, filterText_none]
  simp only [List.append_assoc]

theorem referrersText_eq (path : Text) (artifactType : Option Text) (last : Text) (n : UInt64) :
    referrersText path artifactType last n =
      '<' :: (path ++ '?' :: linkQuery artifactType last n ++ '>' :: "; rel=\"next\"".toList) := by
  have words : "&n=".toList = '&' :: "n=".toList := by decide
  have ended : ">; rel=\"next\"".toList = '>' :: "; rel=\"next\"".toList := by decide
  rw [referrersText, linkQuery, words, ended]
  generalize "last=".toList = word
  generalize "n=".toList = number
  generalize "; rel=\"next\"".toList = rest
  simp only [List.append_assoc, List.cons_append, List.nil_append]

theorem pairs_last {key value : Text} (assign : '=' ∉ key) (keyPlain : '&' ∉ key)
    (plain : '&' ∉ value) :
    query.pairs (key ++ '=' :: value) = [(query.formDecode key, query.formDecode value)] := by
  have whole : '&' ∉ key ++ '=' :: value := by
    rw [List.mem_append, List.mem_cons]
    rintro (mem | mark | mem)
    · exact keyPlain mem
    · cases mark
    · exact plain mem
  have left : (key ++ '=' :: value).isEmpty = false := by simp
  rw [query.pairs, List.splitOn_eq_singleton whole, List.filter_singleton, left, Bool.not_false,
    cond_true, List.map_singleton, splitOnce_append assign]

theorem pairs_more {key value : Text} (assign : '=' ∉ key) (keyPlain : '&' ∉ key)
    (plain : '&' ∉ value) (rest : Text) :
    query.pairs (key ++ '=' :: value ++ '&' :: rest) =
      (query.formDecode key, query.formDecode value) :: query.pairs rest := by
  have one := pairs_last assign keyPlain plain
  have whole : '&' ∉ key ++ '=' :: value := by
    rw [List.mem_append, List.mem_cons]
    rintro (mem | mark | mem)
    · exact keyPlain mem
    · cases mark
    · exact plain mem
  rw [query.pairs, List.splitOn_eq_singleton whole] at one
  rw [query.pairs, List.splitOn_append_cons_self_of_not_mem whole, ← List.singleton_append,
    List.filter_append, List.map_append, one]
  rfl

theorem formDecode_plain {s : Text} (h : ∀ c ∈ s, c ≠ '%' ∧ c ≠ '+') : query.formDecode s = s := by
  have percent : s.contains '%' = false := by
    rw [List.contains_eq_mem, decide_eq_false_iff_not]
    exact fun mem => (h _ mem).1 rfl
  have plus : s.contains '+' = false := by
    rw [List.contains_eq_mem, decide_eq_false_iff_not]
    exact fun mem => (h _ mem).2 rfl
  rw [query.formDecode, query.percentDecode, percent, plus]
  rfl

/-- The server reads the query it wrote. -/
theorem pairs_linkQuery (artifactType : Option Text) (last : Text) (n : UInt64) :
    query.pairs (linkQuery artifactType last n) =
      (artifactType.map fun t => ("artifactType".toList, t)).toList ++
        [("last".toList, last), ("n".toList, shown n)] := by
  have escaped (s : Text) : '&' ∉ query.queryEscape s := fun mem =>
    (inert_escape _ mem).2.2.2.2.2.1 rfl
  have number : query.pairs ("n=".toList ++ shown n) = [("n".toList, shown n)] := by
    have word : "n=".toList ++ shown n = "n".toList ++ '=' :: shown n := rfl
    have plain : '&' ∉ shown n := fun mem => (inert_shown n _ mem).1.2.2.2.2.2.1 rfl
    have key : query.formDecode "n".toList = "n".toList := formDecode_plain (by decide)
    rw [word, pairs_last (by decide) (by decide) plain, key,
      formDecode_plain fun c hc => (inert_shown n c hc).2]
  have cursor (rest : Text) : query.pairs ("last=".toList ++ query.queryEscape last ++ '&' :: rest) =
      ("last".toList, last) :: query.pairs rest := by
    have word : "last=".toList ++ query.queryEscape last =
        "last".toList ++ '=' :: query.queryEscape last := rfl
    have key : query.formDecode "last".toList = "last".toList := formDecode_plain (by decide)
    rw [word, pairs_more (by decide) (by decide) (escaped last), key, query.formDecode_queryEscape]
  cases artifactType with
  | none =>
    rw [linkQuery, filterText_none, List.nil_append, cursor, number]
    rfl
  | some t =>
    have word : "artifactType=".toList ++ query.queryEscape t ++ ['&'] ++
        ("last=".toList ++ query.queryEscape last) ++ '&' :: ("n=".toList ++ shown n) =
        "artifactType".toList ++ '=' :: query.queryEscape t ++ '&' ::
          ("last=".toList ++ query.queryEscape last ++ '&' :: ("n=".toList ++ shown n)) := by
      have key : "artifactType=".toList = "artifactType".toList ++ ['='] := by decide
      rw [key]
      generalize "artifactType".toList = a
      generalize "last=".toList = b
      generalize "n=".toList = d
      simp only [List.append_assoc, List.cons_append, List.nil_append]
    have key : query.formDecode "artifactType".toList = "artifactType".toList :=
      formDecode_plain (by decide)
    rw [linkQuery, filterText_some, word, pairs_more (by decide) (by decide) (escaped t), key,
      query.formDecode_queryEscape, cursor, number]
    rfl

/-- What a target or its query may be made of. -/
theorem visible_linkQuery (artifactType : Option Text) (last : Text) (n : UInt64) :
    ∀ c ∈ linkQuery artifactType last n, 32 ≤ c.toNat ∧ c.toNat < 127 ∧ c ≠ '>' := by
  have words : ∀ c ∈ "artifactType=last=&n=".toList, 32 ≤ c.toNat ∧ c.toNat < 127 ∧ c ≠ '>' := by
    decide +kernel
  have escaped (s : Text) : ∀ c ∈ query.queryEscape s, 32 ≤ c.toNat ∧ c.toNat < 127 ∧ c ≠ '>' :=
    fun c hc => ⟨(inert_escape c hc).1, (inert_escape c hc).2.1, (inert_escape c hc).2.2.2.1⟩
  have number : ∀ c ∈ shown n, 32 ≤ c.toNat ∧ c.toNat < 127 ∧ c ≠ '>' := fun c hc =>
    ⟨(inert_shown n c hc).1.1, (inert_shown n c hc).1.2.1, (inert_shown n c hc).1.2.2.2.1⟩
  have part {t : Text} (h : t.all ("artifactType=last=&n=".toList.contains ·) = true) :
      ∀ c ∈ t, 32 ≤ c.toNat ∧ c.toNat < 127 ∧ c ≠ '>' := fun c hc =>
    words c (List.contains_iff_mem.mp (List.all_eq_true.mp h c hc))
  have filter : ∀ c ∈ filterText artifactType, 32 ≤ c.toNat ∧ c.toNat < 127 ∧ c ≠ '>' := by
    cases artifactType with
    | none => nofun
    | some t =>
      rw [filterText_some, List.forall_mem_append, List.forall_mem_append]
      exact ⟨⟨part (by decide), escaped t⟩, part (by decide)⟩
  rw [linkQuery, List.forall_mem_append, List.forall_mem_append, List.forall_mem_append,
    List.forall_mem_cons, List.forall_mem_append]
  exact ⟨⟨filter, part (by decide), escaped last⟩, by decide, part (by decide), number⟩

/-- What a link says, and where it leads. -/
theorem link_target (headers : HeaderLib) {path : Text} (inert : ∀ c ∈ path, Inert c)
    (artifactType : Option Text) (last : Text) (n : UInt64) :
    (∃ value, linkNextReferrers headers path artifactType last n = some value ∧
        headers.toStr value = some (referrersText path artifactType last n)) ∧
      linkTarget (referrersText path artifactType last n) =
        some (path, linkQuery artifactType last n) := by
  have asked := visible_linkQuery artifactType last n
  rw [linkNextReferrers, referrersText_eq]
  constructor
  · have plain (t : Text) (h : ∀ c ∈ t, 32 ≤ c.toNat ∧ c.toNat < 127) : t.all isVisible = true := by
      refine List.all_eq_true.mpr fun c hc => ?_
      rw [isVisible, decide_eq_true (h c hc).1, decide_eq_true (h c hc).2]
      rfl
    refine headers.made (plain _ ?_)
    have ended : ∀ c ∈ '>' :: "; rel=\"next\"".toList, 32 ≤ c.toNat ∧ c.toNat < 127 := by
      decide +kernel
    rw [List.forall_mem_cons, List.forall_mem_append, List.forall_mem_append, List.forall_mem_cons]
    exact ⟨by decide, ⟨fun c hc => ⟨(inert c hc).1, (inert c hc).2.1⟩, by decide,
      fun c hc => ⟨(asked c hc).1, (asked c hc).2.1⟩⟩, ended⟩
  · have close : '>' ∉ path ++ '?' :: linkQuery artifactType last n := by
      rw [List.mem_append, List.mem_cons]
      rintro (mem | mark | mem)
      · exact (inert _ mem).2.2.2.1 rfl
      · cases mark
      · exact (asked _ mem).2.2 rfl
    have mark : '?' ∉ path := fun mem => (inert _ mem).2.2.2.2.1 rfl
    have opened (rest : Text) : splitOnce '<' ('<' :: rest) = some ([], rest) :=
      splitOnce_append (a := []) (by decide) rest
    rw [linkTarget, opened]
    change (splitOnce '>' _ >>= _) = _
    rw [splitOnce_append close]
    exact splitOnce_append mark _

theorem first_cons (k v : Text) (ps : List (Text × Text)) (key : Text) :
    query.first ((k, v) :: ps) key = if k = key then some v else query.first ps key := by
  rw [query.first, List.find?_cons]
  split
  · rename_i same
    rw [if_pos (of_decide_eq_true same)]
    rfl
  · rename_i other
    rw [if_neg (of_decide_eq_false other)]
    rfl

theorem first_linkQuery (artifactType : Option Text) (last : Text) (n : UInt64) :
    query.first (query.pairs (linkQuery artifactType last n)) "artifactType".toList = artifactType ∧
      query.first (query.pairs (linkQuery artifactType last n)) "last".toList = some last ∧
      query.first (query.pairs (linkQuery artifactType last n)) "n".toList = some (shown n) := by
  have tail (key : Text) : query.first [("last".toList, last), ("n".toList, shown n)] key =
      if "last".toList = key then some last else if "n".toList = key then some (shown n) else none := by
    rw [first_cons, first_cons]
    rfl
  rw [pairs_linkQuery]
  cases artifactType with
  | none =>
    rw [Option.map_none, Option.toList_none, List.nil_append, tail, tail, tail]
    exact ⟨by rw [if_neg (by decide), if_neg (by decide)], if_pos rfl,
      by rw [if_neg (by decide), if_pos rfl]⟩
  | some t =>
    have head (key : Text) : query.first
        [("artifactType".toList, t), ("last".toList, last), ("n".toList, shown n)] key =
        if "artifactType".toList = key then some t
        else if "last".toList = key then some last
        else if "n".toList = key then some (shown n) else none := by
      rw [first_cons, tail]
    rw [Option.map_some, Option.toList_some, List.singleton_append, head, head, head]
    exact ⟨if_pos rfl, by rw [if_neg (by decide), if_pos rfl],
      by rw [if_neg (by decide), if_neg (by decide), if_pos rfl]⟩

theorem parse_linkQuery {config : ServerConfig} {n : UInt64} (within : n ≤ config.maxPageSize)
    (artifactType : Option Text) {last : Text} (left : last ≠ []) :
    parse (query.pairs (linkQuery artifactType last n)) config =
      .ok { limit := n, last := some last, explicitZero := decide (n = 0) } := by
  obtain ⟨-, cursor, number⟩ := first_linkQuery artifactType last n
  have least : minU64 n config.maxPageSize = n := if_neg (UInt64.not_lt.mpr within)
  have kept : (some last).filter (fun s => !s.isEmpty) = some last := by
    cases last with
    | nil => exact absurd rfl left
    | cons c last => rfl
  rw [parse, number, cursor]
  dsimp only
  rw [parseU64_shown, kept]
  dsimp only
  rw [least]
  rfl

/-- A link leads to the page it was made for. -/
theorem links_lead (headers : HeaderLib) (config : ServerConfig) :
    (∀ e : Endpoint, e.Valid → ∀ last ≠ [], ∀ n ≤ config.maxPageSize, ∀ artifactType : Option Text,
      (∃ value header asked, linkNext headers e.path last n = some value ∧
        headers.toStr value = some header ∧ linkTarget header = some (e.path, asked) ∧
        parse (query.pairs asked) config =
          .ok { limit := n, last := some last, explicitZero := decide (n = 0) }) ∧
      (∃ value header asked, linkNextReferrers headers e.path artifactType last n = some value ∧
        headers.toStr value = some header ∧ linkTarget header = some (e.path, asked) ∧
        query.first (query.pairs asked) "artifactType".toList = artifactType ∧
        parse (query.pairs asked) config =
          .ok { limit := n, last := some last, explicitZero := decide (n = 0) }) ∧
      route e.path = .ok e) ∧
    ∀ s, query.formDecode (query.queryEscape s) = s := by
  refine ⟨fun e valid last left n within artifactType => ⟨?_, ?_, route_path valid⟩,
    query.formDecode_queryEscape⟩
  · obtain ⟨⟨value, produced, shown⟩, leads⟩ := link_target headers (inert_path valid) none last n
    refine ⟨value, _, _, ?_, shown, leads, parse_linkQuery within none left⟩
    rw [linkNext, linkText_eq]
    exact produced
  · obtain ⟨⟨value, produced, shown⟩, leads⟩ :=
      link_target headers (inert_path valid) artifactType last n
    exact ⟨value, _, _, produced, shown, leads, (first_linkQuery artifactType last n).1,
      parse_linkQuery within artifactType left⟩

theorem escaped_cursor_leads : ∃ value header asked,
    linkNext textHeaders "/v2/_catalog".toList "a&n=9 ü".toList 2 = some value ∧
      textHeaders.toStr value = some header ∧
      linkTarget header = some ("/v2/_catalog".toList, asked) ∧
      parse (query.pairs asked) { defaultPageSize := 100, maxPageSize := 500 } =
        .ok { limit := 2, last := some "a&n=9 ü".toList, explicitZero := false } :=
  ((links_lead textHeaders { defaultPageSize := 100, maxPageSize := 500 }).1 .catalog trivial
    "a&n=9 ü".toList (by decide) 2 (by decide) none).1

end pagination

end Summ
