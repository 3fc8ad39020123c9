import Summ.Server.Access
import Summ.Server.Headers

/-!
# Keys and the requests that carry them

A key a constructor accepts is any text that is not blank. A request can carry
it as `Basic` whatever it is made of, and as `Bearer` when a header value can
hold it and nothing is trimmed off: `keys_presented_iff`.
-/

namespace Summ

-- What holds of all members of a list is decided along the list.
attribute [local instance (high)] List.decidableBAll

open Base64 (digit)

/-- A key in a policy that a constructor built, and what it is for. -/
inductive Accepted (key : Text) : AuthPolicy → Access → Prop
  | publicPull {fresh : ApiKey} {policy : AuthPolicy} {generated : Generated}
    (built : AuthPolicy.forPublicPull (some key) fresh = .ok (policy, generated)) :
    Accepted key policy .write
  | read {write : Option Text} {freshRead freshWrite : ApiKey} {policy : AuthPolicy}
    {generated : Generated}
    (built : AuthPolicy.forPrivate (some key) write freshRead freshWrite = .ok (policy, generated)) :
    Accepted key policy .read
  | write {read : Option Text} {freshRead freshWrite : ApiKey} {policy : AuthPolicy}
    {generated : Generated}
    (built : AuthPolicy.forPrivate read (some key) freshRead freshWrite = .ok (policy, generated)) :
    Accepted key policy .write

/-- The header text of a `Basic` request. -/
def basicText (user key : Text) : Text :=
  "Basic".toList ++ ' ' :: Base64.encode (Bytes.utf8 (user ++ ':' :: key))

/-- The header text of a `Bearer` request. -/
def bearerText (key : Text) : Text := "Bearer".toList ++ ' ' :: key

theorem basicText_eq (user key : Text) :
    basicText user key = "Basic".toList ++ ' ' :: Base64.encode (Bytes.utf8 (user ++ ':' :: key)) :=
  rfl

theorem bearerText_eq (key : Text) : bearerText key = "Bearer".toList ++ ' ' :: key := rfl

/-- A request with this header has the key extracted from it, and is admitted for
what the key is for. -/
def Presents (lib : HeaderLib) (policy : AuthPolicy) (access : Access) (key header : Text) : Prop :=
  ∃ value, lib.ofText header = some value ∧ (lib.toStr value).bind credential = some key ∧
    ∀ method, (access = .read → Access.of method = .read) →
      policy.authorize lib.toStr method (some value) = .ok ()

/-! ## Accepted keys -/

theorem nonempty_ok {label : String} {key : Text} (h : nonempty label (some key) = .ok ()) :
    key ≠ [] := by
  rintro rfl
  cases h

/-- What the policy of an accepted key has in the key's place. -/
theorem accepted_policy {key : Text} {policy : AuthPolicy} {access : Access}
    (accepted : Accepted key policy access) : key ≠ [] ∧
      (access = .write ∧ (policy = .publicPull ⟨key⟩ ∨ ∃ read, policy = .private_ read ⟨key⟩) ∨
        access = .read ∧ ∃ write, policy = .private_ ⟨key⟩ write) := by
  cases accepted with
  | publicPull built =>
    rw [AuthPolicy.forPublicPull] at built
    cases checked : nonempty "write" (some key) with
    | error e =>
      rw [checked] at built
      cases built
    | ok =>
      rw [checked] at built
      cases built
      exact ⟨nonempty_ok checked, .inl ⟨rfl, .inl rfl⟩⟩
  | @read write _ _ _ _ built =>
    rw [AuthPolicy.forPrivate] at built
    cases checked : nonempty "read" (some key) with
    | error e =>
      rw [checked] at built
      cases built
    | ok =>
      cases other : nonempty "write" write with
      | error e =>
        rw [checked, other] at built
        cases built
      | ok =>
        rw [checked, other] at built
        cases built
        exact ⟨nonempty_ok checked, .inr ⟨rfl, _, rfl⟩⟩
  | @write read _ _ _ _ built =>
    rw [AuthPolicy.forPrivate] at built
    cases other : nonempty "read" read with
    | error e =>
      rw [other] at built
      cases built
    | ok =>
      cases checked : nonempty "write" (some key) with
      | error e =>
        rw [other, checked] at built
        cases built
      | ok =>
        rw [other, checked] at built
        cases built
        exact ⟨nonempty_ok checked, .inl ⟨rfl, .inr ⟨_, rfl⟩⟩⟩

/-- A key that is extracted is admitted. -/
theorem accepted_admits {HeaderValue : Type} (toStr : HeaderValue → Option Text) {key : Text}
    {policy : AuthPolicy} {access : Access} (accepted : Accepted key policy access)
    {value : HeaderValue} (extracted : (toStr value).bind credential = some key) (method : Method)
    (allowed : access = .read → Access.of method = .read) :
    policy.authorize toStr method (some value) = .ok () := by
  obtain ⟨left, shape⟩ := accepted_policy accepted
  have same (k : ApiKey) (h : k.text = key) : k.matches_ key = true :=
    (ApiKey.matches_iff k key).mpr ⟨by rw [h]; exact left, h.symm⟩
  rcases shape with ⟨rfl, rfl | ⟨read, rfl⟩⟩ | ⟨rfl, write, rfl⟩
  · simp only [AuthPolicy.authorize, AuthPolicy.authorizeKeys, extracted, same ⟨key⟩ rfl, if_true]
  · simp only [AuthPolicy.authorize, AuthPolicy.authorizeKeys, extracted, same ⟨key⟩ rfl, if_true]
  · simp only [AuthPolicy.authorize, AuthPolicy.authorizeKeys, extracted, same ⟨key⟩ rfl, if_true,
      allowed rfl, ite_self]

/-! ## Header texts -/

theorem visible_encode (bytes : Bytes) : ∀ c ∈ Base64.encode bytes,
    isVisible c = true ∧ Texts.isWhitespace c = false := by
  have table : ∀ v < 64, isVisible (digit v) = true ∧ Texts.isWhitespace (digit v) = false := by
    decide +kernel
  have pads : ∀ pad ∈ [[], ['='], ['=', '=']], ∀ c ∈ (pad : Text),
      isVisible c = true ∧ Texts.isWhitespace c = false := by
    decide +kernel
  rw [Base64.encode, List.forall_mem_append]
  refine ⟨fun c hc => ?_, pads _ (Base64.padding_mem bytes)⟩
  obtain ⟨v, hv, rfl⟩ := List.mem_map.mp hc
  exact table v (Base64.values_lt bytes v hv)

theorem trim_plain {t : Text} (plain : ∀ c ∈ t, Texts.isWhitespace c = false) : Texts.trim t = t :=
  Texts.Trimmed.trim_eq ⟨fun c hc => plain c (List.mem_of_mem_head? hc),
    fun c hc => plain c (List.mem_of_mem_getLast? hc)⟩

theorem basic_visible (user key : Text) : (basicText user key).all isVisible = true := by
  have scheme : ("Basic".toList : Text).all isVisible = true := by decide
  rw [basicText_eq, List.all_append, scheme, List.all_cons, Bool.true_and]
  refine Bool.and_eq_true_iff.mpr ⟨by decide, List.all_eq_true.mpr fun c hc => ?_⟩
  exact (visible_encode _ c hc).1

theorem bearer_visible (key : Text) : (bearerText key).all isVisible = key.all isVisible := by
  have scheme : ("Bearer".toList : Text).all isVisible = true := by decide
  have space : isVisible ' ' = true := by decide
  rw [bearerText_eq, List.all_append, scheme, List.all_cons, space, Bool.true_and, Bool.true_and]

/-- The key is the password, colons in it and all. -/
theorem basic_extracts {user : Text} (plain : ':' ∉ user) {key : Text} (left : key ≠ []) :
    credential (basicText user key) = some key := by
  refine (credential_iff _ _).mpr ⟨"Basic".toList, _, rfl, by decide, left, .inr ⟨by decide, ?_⟩⟩
  refine ⟨user, key, ?_, plain, (if_neg left).symm⟩
  rw [trim_plain fun c hc => (visible_encode _ c hc).2]
  exact Base64.reads_encode _

/-- What is left of the key once it is trimmed. -/
theorem bearer_extracts {key : Text} (left : key ≠ []) :
    credential (bearerText key) = some key ↔ Texts.trim key = key := by
  rw [credential_iff]
  constructor
  · rintro ⟨scheme, rest, whole, first, -, found⟩
    have cut := splitOnce_append first rest
    rw [← whole, bearerText_eq, splitOnce_append (by decide)] at cut
    cases cut
    rcases found with ⟨-, same⟩ | ⟨basic, -⟩
    · exact same.symm
    · exact absurd basic (by decide)
  · intro trimmed
    exact ⟨"Bearer".toList, key, rfl, by decide, left, .inl ⟨by decide, trimmed.symm⟩⟩

/-! ## Requests -/

section
variable (lib : HeaderLib) {policy : AuthPolicy} {access : Access} {key : Text}

theorem presents_iff (accepted : Accepted key policy access) (header : Text) :
    Presents lib policy access key header ↔
      header.all isVisible = true ∧ credential header = some key := by
  have read := lib.reads header
  constructor
  · rintro ⟨value, made, extracted, -⟩
    obtain ⟨text, shown, found⟩ := Option.bind_eq_some_iff.mp extracted
    rw [made, Option.bind_some, shown] at read
    split at read
    · rename_i visible
      cases read
      exact ⟨visible, found⟩
    · cases read
  · rintro ⟨visible, found⟩
    obtain ⟨value, made, shown⟩ := lib.made visible
    have extracted : (lib.toStr value).bind credential = some key := by
      rw [shown, Option.bind_some, found]
    exact ⟨value, made, extracted, accepted_admits lib.toStr accepted extracted⟩

/-- A key the server accepts is extracted from both kinds of request and admitted
exactly when it is visible ASCII with no white space around it. -/
theorem keys_presented_iff (accepted : Accepted key policy access) :
    (∀ user, ':' ∉ user → Presents lib policy access key (basicText user key) ∧
      Presents lib policy access key (bearerText key)) ↔
      key.all isVisible = true ∧ Texts.trim key = key := by
  have left := (accepted_policy accepted).1
  constructor
  · intro all
    obtain ⟨visible, found⟩ := (presents_iff lib accepted _).mp (all [] (by decide)).2
    rw [bearer_visible] at visible
    exact ⟨visible, (bearer_extracts left).mp found⟩
  · rintro ⟨visible, trimmed⟩ user plain
    constructor
    · exact (presents_iff lib accepted _).mpr ⟨basic_visible user key, basic_extracts plain left⟩
    · refine (presents_iff lib accepted _).mpr ⟨?_, (bearer_extracts left).mpr trimmed⟩
      rw [bearer_visible]
      exact visible

/-- As `Basic` every accepted key can be presented. -/
theorem basic_presents (accepted : Accepted key policy access) {user : Text} (plain : ':' ∉ user) :
    Presents lib policy access key (basicText user key) :=
  (presents_iff lib accepted _).mpr
    ⟨basic_visible user key, basic_extracts plain (accepted_policy accepted).1⟩

end

theorem key_presented : Presents textHeaders (.publicPull ⟨"k:1".toList⟩) .write "k:1".toList
    (bearerText "k:1".toList) :=
  have built : AuthPolicy.forPublicPull (some "k:1".toList) ⟨"k".toList⟩ =
      .ok (.publicPull ⟨"k:1".toList⟩, { read := false, write := false }) := rfl
  ((keys_presented_iff textHeaders (.publicPull built)).mpr (by decide) [] (by decide)).2

/-- A key read from a file with its newline. -/
theorem newline_key : ¬∀ (lib : HeaderLib) (key : Text) (policy : AuthPolicy) (access : Access),
    Accepted key policy access → ∀ user, ':' ∉ user →
      Presents lib policy access key (basicText user key) ∧
        Presents lib policy access key (bearerText key) := by
  intro all
  have accepted : Accepted "secret\n".toList (.publicPull ⟨"secret\n".toList⟩) .write :=
    have built : AuthPolicy.forPublicPull (some "secret\n".toList) ⟨"k".toList⟩ =
        .ok (.publicPull ⟨"secret\n".toList⟩, { read := false, write := false }) := rfl
    .publicPull built
  have shown := ((presents_iff textHeaders accepted _).mp
    (all textHeaders _ _ _ accepted [] (by decide)).2).2
  exact absurd ((bearer_extracts (by decide)).mp shown) (by decide)

end Summ
