import Summ.Server.Grammars
import Summ.Server.Query
import Summ.Server.Ranges
import Summ.Storage.UploadIds

/-!
# Routes

Paths are split into segments and matched from the right; the API's are matched
from the left. Rendering an endpoint and routing the path gives it back
(`routes_invert`), whatever words its name is made of.
-/

namespace Summ

-- What holds of all members of a list is decided along the list.
attribute [local instance (high)] List.decidableBAll

/-- One `/v2/` operation, with the repository name already split out. -/
inductive Endpoint
  | base
  | catalog
  | tagList (name : Text)
  | manifest (name reference : Text)
  | blob (name digest : Text)
  | uploads (name : Text)
  | upload (name id : Text)
  | referrers (name digest : Text)
  deriving DecidableEq

inductive RouteError
  | invalidName (name : Text)
  | noMatch
  deriving DecidableEq

/-- `name_of`: the name is everything to the left of the matched suffix. -/
def nameOf (segments : List Text) (count : Nat) : Except RouteError Text :=
  if count = 0 ∨ segments.length < count then .error .noMatch
  else
    let name := ['/'].intercalate (segments.take count)
    if validName name then .ok name else .error (.invalidName name)

/-- `strip_suffix` of an empty segment. -/
def popEmpty (segments : List Text) : List Text :=
  if segments.getLast? = some [] then segments.dropLast else segments

/-- What `route` makes of the decoded segments. -/
def routeSegments (segments : List Text) : Except RouteError Endpoint :=
  if segments.any List.isEmpty then .error .noMatch
  else
    let n := segments.length
    let at_ (i : Nat) : Option Text := segments[n - i]?
    let last := (at_ 1).getD []
    if n = 1 ∧ segments[0]? = some "_catalog".toList then .ok .catalog
    else if 4 ≤ n ∧ at_ 3 = some "blobs".toList ∧ at_ 2 = some "uploads".toList then
      (nameOf segments (n - 3)).map fun name => .upload name last
    else if 3 ≤ n ∧ at_ 2 = some "blobs".toList ∧ at_ 1 = some "uploads".toList then
      (nameOf segments (n - 2)).map .uploads
    else if 3 ≤ n ∧ at_ 2 = some "manifests".toList then
      (nameOf segments (n - 2)).map fun name => .manifest name last
    else if 3 ≤ n ∧ at_ 2 = some "blobs".toList then
      (nameOf segments (n - 2)).map fun name => .blob name last
    else if 3 ≤ n ∧ at_ 2 = some "tags".toList ∧ at_ 1 = some "list".toList then
      (nameOf segments (n - 2)).map .tagList
    else if 3 ≤ n ∧ at_ 2 = some "referrers".toList then
      (nameOf segments (n - 2)).map fun name => .referrers name last
    else .error .noMatch

/-- `route`. -/
def route (path : Text) : Except RouteError Endpoint :=
  match stripPrefix "/v2".toList path with
  | none => .error .noMatch
  | some rest =>
    if rest = [] ∨ rest = ['/'] then .ok .base
    else
      match stripPrefix ['/'] rest with
      | none => .error .noMatch
      | some rest => routeSegments (popEmpty ((rest.splitOn '/').map query.pathDecode))

/-- The read API's operations. -/
inductive ApiEndpoint
  | repositories
  | repository (name : Text)
  | tags (name : Text)
  | manifests (name : Text)
  | manifest (name reference : Text)
  | tagHistory (name reference : Text)
  | pullCounts (name : Text) (reference : Option Text)
  | purge
  deriving DecidableEq

/-- `name_of` of the API. -/
def apiNameOf (raw : Text) : Except RouteError Text :=
  let name := ['/'].intercalate ((raw.splitOn '/').map query.pathDecode)
  if name = [] then .error .noMatch
  else if validName name then .ok name else .error (.invalidName name)

/-- `strip_suffix('/')`, if it is there. -/
def stripSlash (t : Text) : Text := if t.getLast? = some '/' then t.dropLast else t

/-- What `api_route` makes of a resource and what follows it. -/
def apiResource (resource remainder : Text) : Except RouteError ApiEndpoint :=
  if resource = "repositories".toList then
    if remainder = [] then .ok .repositories else (apiNameOf remainder).map .repository
  else if resource = "tags".toList then (apiNameOf remainder).map .tags
  else if resource = "manifests".toList then
    match rsplitOnce '@' remainder with
    | some (name, reference) =>
      (apiNameOf name).map fun name => .manifest name (query.pathDecode reference)
    | none => (apiNameOf remainder).map .manifests
  else if resource = "tag-history".toList then
    match rsplitOnce '@' remainder with
    | some (name, reference) =>
      (apiNameOf name).map fun name => .tagHistory name (query.pathDecode reference)
    | none => .error .noMatch
  else if resource = "pull-counts".toList then
    match rsplitOnce '@' remainder with
    | some (name, reference) =>
      (apiNameOf name).map fun name => .pullCounts name (some (query.pathDecode reference))
    | none => (apiNameOf remainder).map fun name => .pullCounts name none
  else if resource = "purge".toList ∧ remainder = [] then .ok .purge
  else .error .noMatch

/-- `api_route`. -/
def apiRoute (path : Text) : Except RouteError ApiEndpoint :=
  match stripPrefix "/api/v1/".toList path with
  | none => .error .noMatch
  | some rest =>
    let (resource, remainder) := (splitOnce '/' rest).getD (rest, [])
    apiResource resource (stripSlash remainder)

/-! ## Paths -/

/-- The path of an endpoint, as its documentation writes it. -/
def Endpoint.path : Endpoint → Text
  | base => "/v2/".toList
  | catalog => "/v2/_catalog".toList
  | tagList name => "/v2/".toList ++ name ++ "/tags/list".toList
  | manifest name reference => "/v2/".toList ++ name ++ "/manifests/".toList ++ reference
  | blob name digest => "/v2/".toList ++ name ++ "/blobs/".toList ++ digest
  | uploads name => "/v2/".toList ++ name ++ "/blobs/uploads/".toList
  | upload name id => "/v2/".toList ++ name ++ "/blobs/uploads/".toList ++ id
  | referrers name digest => "/v2/".toList ++ name ++ "/referrers/".toList ++ digest

def ApiEndpoint.path : ApiEndpoint → Text
  | repositories => "/api/v1/repositories".toList
  | repository name => "/api/v1/repositories/".toList ++ name
  | tags name => "/api/v1/tags/".toList ++ name
  | manifests name => "/api/v1/manifests/".toList ++ name
  | manifest name reference => "/api/v1/manifests/".toList ++ name ++ '@' :: reference
  | tagHistory name reference => "/api/v1/tag-history/".toList ++ name ++ '@' :: reference
  | pullCounts name none => "/api/v1/pull-counts/".toList ++ name
  | pullCounts name (some reference) => "/api/v1/pull-counts/".toList ++ name ++ '@' :: reference
  | purge => "/api/v1/purge".toList

/-- A digest the server's parser takes. -/
def ValidDigest (t : Text) : Prop := ∃ d, parseDigestStrict t = some (.ok d)

/-- A tag or a digest. -/
def ValidReference (t : Text) : Prop := validTag t = true ∨ ValidDigest t

def Endpoint.Valid : Endpoint → Prop
  | base | catalog => True
  | tagList name | uploads name => validName name = true
  | manifest name reference => validName name = true ∧ ValidReference reference
  | blob name digest | referrers name digest => validName name = true ∧ ValidDigest digest
  | upload name id => validName name = true ∧ (UploadId.new id).isSome = true

def ApiEndpoint.Valid : ApiEndpoint → Prop
  | repositories | purge => True
  | repository name | tags name | manifests name | pullCounts name none => validName name = true
  | manifest name reference | tagHistory name reference | pullCounts name (some reference) =>
    validName name = true ∧ ValidReference reference

/-! ## The segments of a path -/

/-- The characters of a segment that is written as it is. -/
def SEGMENT : Text := LOWER ++ UPPER ++ DIGITS ++ ['.', '_', '-', '~', ':']

theorem segment_plain : ∀ c ∈ SEGMENT, c ≠ '/' ∧ c ≠ '%' ∧ c ≠ '@' := by decide +kernel

/-- Letters, digits and what stands between them, as the classes list them. -/
theorem mem_segment_of_class {c : Char} {marks : Text} (h : c ∈ LOWER ++ UPPER ++ DIGITS ++ marks)
    (all : ∀ x ∈ marks, x ∈ ['.', '_', '-', '~', ':']) : c ∈ SEGMENT := by
  rcases List.mem_append.mp h with letters | mark
  · exact List.mem_append_left _ letters
  · exact List.mem_append_right _ (all c mark)

theorem alnum_segment {c : Char} (h : c ∈ LOWER ++ DIGITS) : c ∈ SEGMENT := by
  rcases List.mem_append.mp h with lower | digit
  · exact List.mem_append_left _ (List.mem_append_left _ (List.mem_append_left _ lower))
  · exact List.mem_append_left _ (List.mem_append_right _ digit)

/-- The components of a valid name, as segments. -/
structure Segments (name : Text) : Prop where
  joined : ['/'].intercalate (name.splitOn '/') = name
  left : name.splitOn '/' ≠ []
  whole : ∀ s ∈ name.splitOn '/', s ≠ []
  chars : ∀ c ∈ name, c = '/' ∨ c ∈ SEGMENT
  decoded : (name.splitOn '/').map query.pathDecode = name.splitOn '/'

theorem nameExpression_chars {name : Text} (h : name ∈ nameExpression.matches') :
    ∀ c ∈ name, c = '/' ∨ c ∈ SEGMENT := by
  have run (a : Text) (ha : a ∈ (Regular.many (Regular.oneOf (LOWER ++ DIGITS))).matches') :
      ∀ c ∈ a, c = '/' ∨ c ∈ SEGMENT := by
    exact fun c hc => Or.inr (alnum_segment ((isNameAlnum_iff c).mp ((mem_alnum_run.mp ha).2 c hc)))
  have between (b : Text) (hb : b ∈ nameSeparator.matches') : ∀ c ∈ b, c = '/' ∨ c ∈ SEGMENT := by
    have table (c : Char) (h : c ∈ ['.', '_', '-']) : c ∈ SEGMENT :=
      mem_segment_of_class (List.mem_append_right _ h) (by simp)
    rcases mem_nameSeparator.mp hb with rfl | rfl | rfl | ⟨-, all⟩
    · exact fun c hc => Or.inr (table c (by simp_all))
    · exact fun c hc => Or.inr (table c (by simp_all))
    · exact fun c hc => Or.inr (table c (by simp_all))
    · exact fun c hc => Or.inr (table c (by simp [all c hc]))
  have component (a : Text) (ha : a ∈ nameComponent.matches') : ∀ c ∈ a, c = '/' ∨ c ∈ SEGMENT := by
    refine Regular.separated_induction (P := fun a => ∀ c ∈ a, c = '/' ∨ c ∈ SEGMENT) run ?_ ha
    intro a ha b hb t _ ht
    rw [List.forall_mem_append, List.forall_mem_append]
    exact ⟨run a ha, between b hb, ht⟩
  refine Regular.separated_induction (P := fun a => ∀ c ∈ a, c = '/' ∨ c ∈ SEGMENT) component ?_ h
  intro a ha b hb t _ ht
  rw [List.forall_mem_append, List.forall_mem_append, slash_mem.mp hb]
  exact ⟨component a ha, fun c hc => Or.inl (List.mem_singleton.mp hc), ht⟩

/-- A name has no escapes, and no mark between it and a reference. -/
theorem Segments.plain {name : Text} (h : Segments name) : ∀ c ∈ name, c ≠ '%' ∧ c ≠ '@' := by
  intro c hc
  rcases h.chars c hc with rfl | segment
  · decide
  · exact (segment_plain c segment).2

theorem mem_of_splitOn {name s : Text} {c : Char} (hs : s ∈ name.splitOn '/') (hc : c ∈ s) :
    c ∈ name := by
  have joined : ['/'].intercalate (name.splitOn '/') = name := List.intercalate_splitOn '/'
  have inside (pieces : List Text) (h : s ∈ pieces) : c ∈ ['/'].intercalate pieces := by
    induction pieces with
    | nil => cases h
    | cons piece pieces ih =>
      cases pieces with
      | nil =>
        rw [List.mem_singleton] at h
        rw [List.intercalate_singleton, ← h]
        exact hc
      | cons next pieces =>
        rw [List.intercalate_cons_cons, List.mem_append, List.mem_append]
        rcases List.mem_cons.mp h with rfl | h
        · exact Or.inl (Or.inl hc)
        · exact Or.inr (ih h)
  rw [← joined]
  exact inside _ hs

theorem segments_of_valid {name : Text} (valid : validName name = true) : Segments name := by
  have expression := ((validName_iff name).mp valid).1
  have chars := nameExpression_chars expression
  have components := (splitOn_components name).mpr expression
  rw [List.all_eq_true] at components
  refine ⟨List.intercalate_splitOn '/', List.splitOn_ne_nil _ _, fun s hs => ?_, chars, ?_⟩
  · obtain ⟨c, rest, rfl, -⟩ := validNameComponent_head (components s hs)
    exact List.cons_ne_nil c rest
  · refine (List.map_congr_left fun s hs => ?_).trans (List.map_id _)
    refine query.pathDecode_plain fun percent => ?_
    rcases chars _ (mem_of_splitOn hs percent) with slash | segment
    · cases slash
    · exact (segment_plain _ segment).2.1 rfl

theorem nameOf_segments {name : Text} (valid : validName name = true) (more : List Text) :
    nameOf (name.splitOn '/' ++ more) (name.splitOn '/').length = .ok name := by
  have segments := segments_of_valid valid
  have some_ : ¬((name.splitOn '/').length = 0 ∨
      (name.splitOn '/' ++ more).length < (name.splitOn '/').length) := by
    rw [List.length_eq_zero_iff, List.length_append]
    rintro (none | less)
    · exact segments.left none
    · omega
  rw [nameOf, if_neg some_, List.take_left]
  dsimp only
  rw [segments.joined, if_pos valid]

theorem segments_full {name : Text} (valid : validName name = true) (more : List Text)
    (full : ∀ s ∈ more, s ≠ []) : ¬(name.splitOn '/' ++ more).any List.isEmpty = true := by
  rw [List.any_eq_true]
  rintro ⟨s, hs, empty⟩
  rw [List.isEmpty_iff] at empty
  rcases List.mem_append.mp hs with hs | hs
  · exact (segments_of_valid valid).whole s hs empty
  · exact full s hs empty

theorem routeSegments_pair {name a b : Text} (valid : validName name = true) (ha : a ≠ [])
    (hb : b ≠ []) (other : a ≠ "uploads".toList) :
    routeSegments (name.splitOn '/' ++ [a, b]) =
      if a = "blobs".toList ∧ b = "uploads".toList then .ok (.uploads name)
      else if a = "manifests".toList then .ok (.manifest name b)
      else if a = "blobs".toList then .ok (.blob name b)
      else if a = "tags".toList ∧ b = "list".toList then .ok (.tagList name)
      else if a = "referrers".toList then .ok (.referrers name b)
      else .error .noMatch := by
  have segments := segments_of_valid valid
  have named := nameOf_segments valid [a, b]
  have full := segments_full valid [a, b] (by simp [ha, hb])
  have nonempty : 0 < (name.splitOn '/').length := List.length_pos_iff.mpr segments.left
  generalize name.splitOn '/' = segs at *
  have length : (segs ++ [a, b]).length = segs.length + 2 := by simp
  have last : (segs ++ [a, b])[segs.length + 2 - 1]? = some b := by simp
  have before : (segs ++ [a, b])[segs.length]? = some a := by simp
  have many_ : 3 ≤ segs.length + 2 := by omega
  have one : ¬segs.length + 2 = 1 := by omega
  have name_ : segs.length + 2 - 2 = segs.length := by omega
  rw [routeSegments, if_neg full]
  simp only [length, last, before, name_, named, Option.some.injEq, Option.getD_some, other, many_, one,
    true_and, false_and, and_false, if_false, Except.map]

theorem routeSegments_upload {name id : Text} (valid : validName name = true) (hid : id ≠ []) :
    routeSegments (name.splitOn '/' ++ ["blobs".toList, "uploads".toList, id]) =
      .ok (.upload name id) := by
  have segments := segments_of_valid valid
  have named := nameOf_segments valid ["blobs".toList, "uploads".toList, id]
  have full := segments_full valid ["blobs".toList, "uploads".toList, id] (by simp [hid])
  have nonempty : 0 < (name.splitOn '/').length := List.length_pos_iff.mpr segments.left
  generalize name.splitOn '/' = segs at *
  have length : (segs ++ ["blobs".toList, "uploads".toList, id]).length = segs.length + 3 := by simp
  have last : (segs ++ ["blobs".toList, "uploads".toList, id])[segs.length + 3 - 1]? = some id := by
    simp
  have uploads : (segs ++ ["blobs".toList, "uploads".toList, id])[segs.length + 3 - 2]? =
      some "uploads".toList := by simp
  have blobs : (segs ++ ["blobs".toList, "uploads".toList, id])[segs.length]? =
      some "blobs".toList := by simp
  have many_ : 4 ≤ segs.length + 3 := by omega
  have one : ¬segs.length + 3 = 1 := by omega
  have name_ : segs.length + 3 - 3 = segs.length := by omega
  rw [routeSegments, if_neg full]
  simp only [length, last, uploads, blobs, name_, named, Option.getD_some, many_, one, true_and,
    false_and, if_true, if_false, Except.map]

/-! ## References, digests and ids -/

/-- A text that is one segment as it is. -/
structure Plain (t : Text) : Prop where
  left : t ≠ []
  chars : ∀ c ∈ t, c ∈ SEGMENT

theorem Plain.whole {t : Text} (h : Plain t) : ∀ c ∈ t, c ≠ '/' ∧ c ≠ '%' ∧ c ≠ '@' :=
  fun c hc => segment_plain c (h.chars c hc)

theorem Plain.splitOn {t : Text} (h : Plain t) : t.splitOn '/' = [t] :=
  List.splitOn_eq_singleton fun slash => (h.whole _ slash).1 rfl

theorem Plain.pathDecode {t : Text} (h : Plain t) : query.pathDecode t = t :=
  query.pathDecode_plain fun percent => (h.whole _ percent).2.1 rfl

theorem Plain.reverse_at {t : Text} (h : Plain t) : '@' ∉ t.reverse := fun at_ =>
  (h.whole _ (List.mem_reverse.mp at_)).2.2 rfl

theorem plain_word {t : Text} (left : t ≠ []) (all : t.all isNameAlnum = true) : Plain t :=
  ⟨left, fun c hc => alnum_segment ((isNameAlnum_iff c).mp (List.all_eq_true.mp all c hc))⟩

theorem plain_tag {t : Text} (valid : validTag t = true) : Plain t := by
  have expression := (validTag_iff t).mp valid
  cases t with
  | nil => cases valid
  | cons first chars =>
    obtain ⟨head, -, tail⟩ := mem_tagExpression.mp expression
    refine ⟨List.cons_ne_nil first chars, List.forall_mem_cons.mpr ⟨?_, fun c hc => ?_⟩⟩
    · exact mem_segment_of_class ((tagFirst_iff first).mp head) (by simp)
    · exact mem_segment_of_class ((isTagChar_iff c).mp (tail c hc)) (by simp)

theorem plain_digest {t : Text} (valid : ValidDigest t) : Plain t ∧ t ≠ "uploads".toList := by
  have expression := (Digest.parseDigestStrict_iff t).2.mp valid
  obtain ⟨algo, hex, split, lower, grammar⟩ := Digest.mem_digestExpression.mp expression
  have names : algo = "sha256".toList ∨ algo = "sha512".toList := by
    obtain ⟨hex', -, ⟨whole, -⟩ | ⟨whole, -⟩⟩ := grammar
    · have cut := splitOnce_append (c := ':') (a := "sha256".toList) (by decide) hex'
      have same : t = "sha256".toList ++ ':' :: hex' := whole
      rw [same, cut] at split
      cases split
      exact Or.inl rfl
    · have cut := splitOnce_append (c := ':') (a := "sha512".toList) (by decide) hex'
      have same : t = "sha512".toList ++ ':' :: hex' := whole
      rw [same, cut] at split
      cases split
      exact Or.inr rfl
  have whole := (of_splitOnce split).1
  have left : Plain algo := by
    rcases names with rfl | rfl
    · exact plain_word (by decide) (by decide)
    · exact plain_word (by decide) (by decide)
  have colon : ':' ∈ t := by
    rw [whole]
    exact List.mem_append_right _ (List.mem_cons_self ..)
  refine ⟨⟨List.ne_nil_of_mem colon, ?_⟩, ?_⟩
  · rw [whole, List.forall_mem_append, List.forall_mem_cons]
    exact ⟨left.chars, mem_segment_of_class (List.mem_append_right _ (List.mem_singleton_self ':'))
      (by simp), fun c hc => alnum_segment ((isNameAlnum_iff c).mp (lower c hc))⟩
  · rintro rfl
    exact absurd colon (by decide)

theorem plain_reference {t : Text} (valid : ValidReference t) : Plain t := by
  rcases valid with tag | digest
  · exact plain_tag tag
  · exact (plain_digest digest).1

theorem unreserved_segment {c : Char}
    (h : (c.isAlphanum || ['-', '_', '.', '~'].contains c) = true) : c ∈ SEGMENT := by
  rcases Bool.or_eq_true_iff.mp h with alnum | mark
  · have ascii : isAsciiAlphanumeric c = true := by
      change ((decide ('A' ≤ c ∧ c ≤ 'Z') || (decide ('a' ≤ c) && decide (c ≤ 'z'))) ||
        (decide ('0' ≤ c) && decide (c ≤ '9'))) = true at alnum
      simp only [Bool.or_eq_true, Bool.and_eq_true, decide_eq_true_eq] at alnum
      simp only [isAsciiAlphanumeric, Bool.or_eq_true, Bool.and_eq_true, decide_eq_true_eq]
      rcases alnum with (upper | lower) | digit
      · exact Or.inl (Or.inr upper)
      · exact Or.inr lower
      · exact Or.inl (Or.inl digit)
    exact mem_segment_of_class ((tagFirst_iff c).mp (by rw [ascii, Bool.true_or])) (by simp)
  · exact mem_segment_of_class (List.mem_append_right _ (List.contains_iff_mem.mp mark)) (by simp)

theorem plain_uploadId {t : Text} (valid : (UploadId.new t).isSome = true) : Plain t := by
  obtain ⟨id, taken⟩ := Option.isSome_iff_exists.mp valid
  have same := UploadId.text_of_new taken
  exact ⟨same ▸ id.plain.1, fun c hc => unreserved_segment (id.unreserved c (same ▸ hc))⟩

/-! ## The registry's router -/

theorem route_segments {t : Text} (left : t ≠ []) :
    route ("/v2/".toList ++ t) = routeSegments (popEmpty ((t.splitOn '/').map query.pathDecode)) := by
  have version : stripPrefix "/v2".toList ("/v2/".toList ++ t) = some ('/' :: t) := rfl
  have slash : stripPrefix ['/'] ('/' :: t) = some t := rfl
  have other : ¬('/' :: t = [] ∨ '/' :: t = ['/']) := by
    rintro (none | base)
    · cases none
    · exact left (List.cons.inj base).2
  rw [route, version]
  dsimp only
  rw [if_neg other, slash]

/-- The segments of a name and two words after it. -/
theorem route_pair {name a b : Text} (valid : validName name = true) (ha : Plain a) (hb : Plain b) :
    route ("/v2/".toList ++ (name ++ '/' :: (a ++ '/' :: b))) =
      routeSegments (name.splitOn '/' ++ [a, b]) := by
  have cut : (name ++ '/' :: (a ++ '/' :: b)).splitOn '/' = name.splitOn '/' ++ [a, b] := by
    rw [List.splitOn_append_cons_self, List.splitOn_append_cons_self, ha.splitOn, hb.splitOn]
    rfl
  have last : ¬(name.splitOn '/' ++ [a, b]).getLast? = some [] := by
    have shown : (name.splitOn '/' ++ [a, b]).getLast? = some b := by simp
    rw [shown]
    exact fun h => hb.left (Option.some.inj h)
  rw [route_segments (by simp), cut, List.map_append, (segments_of_valid valid).decoded,
    List.map_cons, List.map_cons, ha.pathDecode, hb.pathDecode, List.map_nil, popEmpty, if_neg last]

/-- A path with one more word between slashes. -/
theorem slashes (version name word rest : Text) :
    version ++ name ++ '/' :: (word ++ ['/']) ++ rest =
      version ++ (name ++ '/' :: (word ++ '/' :: rest)) := by
  simp

theorem splitOn_uploads (name : Text) (rest : Text) :
    (name ++ '/' :: ("blobs/uploads".toList ++ '/' :: rest)).splitOn '/' =
      name.splitOn '/' ++ ("blobs".toList :: "uploads".toList :: rest.splitOn '/') := by
  have words : ("blobs/uploads".toList : Text).splitOn '/' = ["blobs".toList, "uploads".toList] := by
    decide
  rw [List.splitOn_append_cons_self, List.splitOn_append_cons_self, words]
  rfl

theorem plain_blobs : Plain "blobs".toList := plain_word (by decide) (by decide)

theorem plain_uploads : Plain "uploads".toList := plain_word (by decide) (by decide)

theorem uploads_word : "/blobs/uploads/".toList = '/' :: ("blobs/uploads".toList ++ ['/']) := by
  decide

theorem route_upload {name id : Text} (valid : validName name = true) (hid : Plain id) :
    route (Endpoint.upload name id).path = .ok (.upload name id) := by
  have last : ¬(name.splitOn '/' ++ ["blobs".toList, "uploads".toList, id]).getLast? = some [] := by
    have shown (a b : Text) : (name.splitOn '/' ++ [a, b, id]).getLast? = some id := by simp
    rw [shown]
    exact fun h => hid.left (Option.some.inj h)
  change route ("/v2/".toList ++ name ++ "/blobs/uploads/".toList ++ id) = _
  rw [uploads_word, slashes, route_segments (by simp), splitOn_uploads, hid.splitOn,
    List.map_append, (segments_of_valid valid).decoded, List.map_cons, List.map_cons, List.map_cons,
    plain_blobs.pathDecode, plain_uploads.pathDecode, hid.pathDecode, List.map_nil, popEmpty,
    if_neg last]
  exact routeSegments_upload valid hid.left

/-- The trailing slash leaves an empty segment, which is taken off. -/
theorem route_uploads {name : Text} (valid : validName name = true) :
    route (Endpoint.uploads name).path = .ok (.uploads name) := by
  have popped (segs : List Text) (a b : Text) :
      popEmpty (segs ++ [a, b, []]) = segs ++ [a, b] := by
    have parted : segs ++ [a, b, []] = (segs ++ [a, b]) ++ [[]] := by simp
    rw [parted, popEmpty, if_pos (by simp), List.dropLast_concat]
  have empty : query.pathDecode [] = [] := query.pathDecode_plain (by decide)
  have ended : "/v2/".toList ++ name ++ '/' :: ("blobs/uploads".toList ++ ['/']) =
      "/v2/".toList ++ name ++ '/' :: ("blobs/uploads".toList ++ ['/']) ++ [] :=
    (List.append_nil _).symm
  change route ("/v2/".toList ++ name ++ "/blobs/uploads/".toList) = _
  rw [uploads_word, ended, slashes, route_segments (by simp), splitOn_uploads,
    List.splitOn_nil, List.map_append, (segments_of_valid valid).decoded, List.map_cons,
    List.map_cons, plain_blobs.pathDecode, plain_uploads.pathDecode, List.map_cons, empty,
    List.map_nil, popped, routeSegments_pair valid plain_blobs.left plain_uploads.left (by decide),
    if_pos ⟨rfl, rfl⟩]

theorem route_path {e : Endpoint} (valid : e.Valid) : route e.path = .ok e := by
  have manifests : Plain "manifests".toList := plain_word (by decide) (by decide)
  have tags : Plain "tags".toList := plain_word (by decide) (by decide)
  have list : Plain "list".toList := plain_word (by decide) (by decide)
  have referrers : Plain "referrers".toList := plain_word (by decide) (by decide)
  cases e with
  | base => rfl
  | catalog => decide +kernel
  | tagList name =>
    have word : "/tags/list".toList = '/' :: ("tags".toList ++ '/' :: "list".toList) := by decide
    change route ("/v2/".toList ++ name ++ "/tags/list".toList) = _
    rw [word, List.append_assoc, route_pair valid tags list,
      routeSegments_pair valid tags.left list.left (by decide)]
    rfl
  | manifest name reference =>
    have plain := plain_reference valid.2
    have word : "/manifests/".toList = '/' :: ("manifests".toList ++ ['/']) := by decide
    change route ("/v2/".toList ++ name ++ "/manifests/".toList ++ reference) = _
    rw [word, slashes, route_pair valid.1 manifests plain,
      routeSegments_pair valid.1 manifests.left plain.left (by decide),
      if_neg fun h => absurd h.1 (by decide), if_pos rfl]
  | blob name digest =>
    obtain ⟨plain, other⟩ := plain_digest valid.2
    have word : "/blobs/".toList = '/' :: ("blobs".toList ++ ['/']) := by decide
    change route ("/v2/".toList ++ name ++ "/blobs/".toList ++ digest) = _
    rw [word, slashes, route_pair valid.1 plain_blobs plain,
      routeSegments_pair valid.1 plain_blobs.left plain.left (by decide), if_neg fun h => other h.2,
      if_neg (by decide), if_pos rfl]
  | uploads name => exact route_uploads valid
  | upload name id => exact route_upload valid.1 (plain_uploadId valid.2)
  | referrers name digest =>
    have plain := (plain_digest valid.2).1
    have word : "/referrers/".toList = '/' :: ("referrers".toList ++ ['/']) := by decide
    change route ("/v2/".toList ++ name ++ "/referrers/".toList ++ digest) = _
    rw [word, slashes, route_pair valid.1 referrers plain,
      routeSegments_pair valid.1 referrers.left plain.left (by decide),
      if_neg fun h => absurd h.1 (by decide), if_neg (by decide), if_neg (by decide),
      if_neg fun h => absurd h.1 (by decide), if_pos rfl]

/-! ## The API's router -/

theorem apiNameOf_valid {name : Text} (valid : validName name = true) : apiNameOf name = .ok name := by
  have segments := segments_of_valid valid
  have left : ¬name = [] := by
    rintro rfl
    cases valid
  rw [apiNameOf, segments.decoded, segments.joined, if_neg left, if_pos valid]

/-- A name does not end in a slash. -/
theorem stripSlash_name {name : Text} (valid : validName name = true) : stripSlash name = name := by
  have last : ¬name.getLast? = some '/' := by
    intro slash
    obtain ⟨rest, rfl⟩ := List.getLast?_eq_some_iff.mp slash
    have segments := segments_of_valid valid
    have empty : [] ∈ (rest ++ ['/']).splitOn '/' := by
      rw [List.splitOn_append_cons_self, List.splitOn_nil]
      exact List.mem_append_right _ (List.mem_singleton_self _)
    exact segments.whole [] empty rfl
  rw [stripSlash, if_neg last]

theorem stripSlash_reference {name reference : Text} (plain : Plain reference) :
    stripSlash (name ++ '@' :: reference) = name ++ '@' :: reference := by
  have last : ¬(name ++ '@' :: reference).getLast? = some '/' := by
    intro slash
    rw [List.getLast?_append, List.getLast?_cons] at slash
    obtain ⟨c, ended⟩ := List.getLast?_isSome.mpr plain.left |> Option.isSome_iff_exists.mp
    rw [ended, Option.getD_some, Option.some_or] at slash
    exact (plain.whole c (List.mem_of_getLast? ended)).1 (Option.some.inj slash)
  rw [stripSlash, if_neg last]

theorem rsplitOnce_reference {name reference : Text} (plain : Plain reference) :
    rsplitOnce '@' (name ++ '@' :: reference) = some (name, reference) := by
  have turned : (name ++ '@' :: reference).reverse = reference.reverse ++ '@' :: name.reverse := by
    simp
  rw [rsplitOnce, turned, splitOnce_append plain.reverse_at]
  simp

theorem splitOnce_none {c : Char} {t : Text} (h : c ∉ t) : splitOnce c t = none := by
  cases cut : splitOnce c t with
  | none => rfl
  | some parts =>
    have whole := (of_splitOnce (a := parts.1) (b := parts.2) cut).1
    refine absurd ?_ h
    rw [whole]
    exact List.mem_append_right _ (List.mem_cons_self ..)

theorem rsplitOnce_name {name : Text} (valid : validName name = true) : rsplitOnce '@' name = none := by
  have plain := (segments_of_valid valid).plain
  have none_ : '@' ∉ name.reverse := fun at_ => (plain _ (List.mem_reverse.mp at_)).2 rfl
  rw [rsplitOnce, splitOnce_none none_]
  rfl

theorem stripPrefix_append (pre t : Text) : stripPrefix pre (pre ++ t) = some t := by
  have starts : pre.isPrefixOf (pre ++ t) = true := List.isPrefixOf_iff_prefix.mpr ⟨t, rfl⟩
  rw [stripPrefix, if_pos starts, List.drop_left]

theorem apiRoute_resource (word rest : Text) (plain : '/' ∉ word) :
    apiRoute ("/api/v1/".toList ++ (word ++ ['/']) ++ rest) = apiResource word (stripSlash rest) := by
  have joined : "/api/v1/".toList ++ (word ++ ['/']) ++ rest =
      "/api/v1/".toList ++ (word ++ '/' :: rest) := by
    rw [List.append_assoc, List.append_assoc]
    rfl
  rw [apiRoute, joined, stripPrefix_append]
  dsimp only
  rw [splitOnce_append plain]
  rfl

theorem apiRoute_path {e : ApiEndpoint} (valid : e.Valid) : apiRoute e.path = .ok e := by
  cases e with
  | repositories => decide +kernel
  | purge => decide +kernel
  | repository name =>
    have left : ¬name = [] := by
      rintro rfl
      cases valid
    have word : "/api/v1/repositories/".toList =
        "/api/v1/".toList ++ ("repositories".toList ++ ['/']) := by decide
    change apiRoute ("/api/v1/repositories/".toList ++ name) = _
    rw [word, apiRoute_resource _ _ (by decide), stripSlash_name valid, apiResource, if_pos rfl,
      if_neg left, apiNameOf_valid valid]
    rfl
  | tags name =>
    have word : "/api/v1/tags/".toList = "/api/v1/".toList ++ ("tags".toList ++ ['/']) := by decide
    change apiRoute ("/api/v1/tags/".toList ++ name) = _
    rw [word, apiRoute_resource _ _ (by decide), stripSlash_name valid, apiResource,
      if_neg (by decide), if_pos rfl, apiNameOf_valid valid]
    rfl
  | manifests name =>
    have word : "/api/v1/manifests/".toList =
        "/api/v1/".toList ++ ("manifests".toList ++ ['/']) := by decide
    change apiRoute ("/api/v1/manifests/".toList ++ name) = _
    rw [word, apiRoute_resource _ _ (by decide), stripSlash_name valid, apiResource,
      if_neg (by decide), if_neg (by decide), if_pos rfl, rsplitOnce_name valid]
    dsimp only
    rw [apiNameOf_valid valid]
    rfl
  | manifest name reference =>
    have plain := plain_reference valid.2
    have word : "/api/v1/manifests/".toList =
        "/api/v1/".toList ++ ("manifests".toList ++ ['/']) := by decide
    change apiRoute ("/api/v1/manifests/".toList ++ name ++ '@' :: reference) = _
    rw [word, List.append_assoc _ name, apiRoute_resource _ _ (by decide),
      stripSlash_reference plain, apiResource, if_neg (by decide), if_neg (by decide), if_pos rfl,
      rsplitOnce_reference plain]
    dsimp only
    rw [apiNameOf_valid valid.1, plain.pathDecode]
    rfl
  | tagHistory name reference =>
    have plain := plain_reference valid.2
    have word : "/api/v1/tag-history/".toList =
        "/api/v1/".toList ++ ("tag-history".toList ++ ['/']) := by decide
    change apiRoute ("/api/v1/tag-history/".toList ++ name ++ '@' :: reference) = _
    rw [word, List.append_assoc _ name, apiRoute_resource _ _ (by decide),
      stripSlash_reference plain, apiResource, if_neg (by decide), if_neg (by decide),
      if_neg (by decide), if_pos rfl, rsplitOnce_reference plain]
    dsimp only
    rw [apiNameOf_valid valid.1, plain.pathDecode]
    rfl
  | pullCounts name reference =>
    have word : "/api/v1/pull-counts/".toList =
        "/api/v1/".toList ++ ("pull-counts".toList ++ ['/']) := by decide
    have resource (rest : Text) : apiResource "pull-counts".toList rest =
        match rsplitOnce '@' rest with
        | some (name, reference) =>
          (apiNameOf name).map fun name => .pullCounts name (some (query.pathDecode reference))
        | none => (apiNameOf rest).map fun name => .pullCounts name none := by
      rw [apiResource, if_neg (by decide), if_neg (by decide), if_neg (by decide),
        if_neg (by decide), if_pos rfl]
    cases reference with
    | none =>
      change apiRoute ("/api/v1/pull-counts/".toList ++ name) = _
      rw [word, apiRoute_resource _ _ (by decide), stripSlash_name valid, resource,
        rsplitOnce_name valid]
      dsimp only
      rw [apiNameOf_valid valid]
      rfl
    | some reference =>
      have plain := plain_reference valid.2
      change apiRoute ("/api/v1/pull-counts/".toList ++ name ++ '@' :: reference) = _
      rw [word, List.append_assoc _ name, apiRoute_resource _ _ (by decide),
        stripSlash_reference plain, resource, rsplitOnce_reference plain]
      dsimp only
      rw [apiNameOf_valid valid.1, plain.pathDecode]
      rfl

/-- Routing undoes rendering, so that no two endpoints share a path. -/
theorem routes_invert :
    (∀ e : Endpoint, e.Valid → route e.path = .ok e ∧ ∀ f : Endpoint, f.Valid → f.path = e.path → f = e) ∧
      ∀ e : ApiEndpoint, e.Valid →
        apiRoute e.path = .ok e ∧ ∀ f : ApiEndpoint, f.Valid → f.path = e.path → f = e := by
  refine ⟨fun e he => ⟨route_path he, fun f hf same => ?_⟩, fun e he =>
    ⟨apiRoute_path he, fun f hf same => ?_⟩⟩
  · have routed := route_path hf
    rw [same, route_path he] at routed
    exact (Except.ok.inj routed).symm
  · have routed := apiRoute_path hf
    rw [same, apiRoute_path he] at routed
    exact (Except.ok.inj routed).symm

theorem nested_words :
    route "/v2/foo/blobs/uploads/list/manifests/v1".toList =
        .ok (.manifest "foo/blobs/uploads/list".toList "v1".toList) ∧
      apiRoute "/api/v1/manifests/foo/tags@v1".toList =
        .ok (.manifest "foo/tags".toList "v1".toList) := by
  have text : "/v2/foo/blobs/uploads/list/manifests/v1".toList =
      (Endpoint.manifest "foo/blobs/uploads/list".toList "v1".toList).path := by decide +kernel
  have apiText : "/api/v1/manifests/foo/tags@v1".toList =
      (ApiEndpoint.manifest "foo/tags".toList "v1".toList).path := by decide +kernel
  rw [text, apiText]
  exact ⟨(routes_invert.1 (.manifest _ _) ⟨by decide +kernel, Or.inl (by decide +kernel)⟩).1,
    (routes_invert.2 (.manifest _ _) ⟨by decide +kernel, Or.inl (by decide +kernel)⟩).1⟩

end Summ
