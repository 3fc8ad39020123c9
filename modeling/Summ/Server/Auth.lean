import Summ.Core.Digest
import Summ.Lib.Texts

/-!
# Who may do what

The policies and their constructors, the comparison with a key, the decoding of
an `Authorization` value, and the decision on a request. `toStr` is what the
HTTP library makes of a header value: its text, where it is one.
-/

namespace Summ

/-- `str::eq_ignore_ascii_case`. -/
def eqIgnoreAsciiCase (s t : Text) : Bool := s.map Char.toLower = t.map Char.toLower

/-- The methods of the HTTP library. -/
inductive Method
  | options
  | get
  | post
  | put
  | delete
  | head
  | trace
  | connect
  | patch
  | extension (token : Text)

/-- What a request needs in order to be served. -/
inductive Access
  | read
  | write
  deriving DecidableEq

/-- An unknown method is a write. -/
def Access.of : Method → Access
  | .get | .head | .options => .read
  | _ => .write

structure ApiKey where
  text : Text
  deriving DecidableEq

namespace ApiKey

/-- 32 random bytes, those of two version-4 UUIDs, in lower-case hex. -/
def generate (first second : List.Vector Byte 16) : ApiKey where
  text := (first.toList ++ second.toList).flatMap fun b =>
    [Digest.hexChar (b.val / 16), Digest.hexChar (b.val % 16)]

/-- The fold over the longer of the two, indices wrapped, the difference in
length mixed in. -/
def matches_ (key : ApiKey) (presented : Text) : Bool :=
  let expected := Bytes.utf8 key.text
  let got := Bytes.utf8 presented
  if expected.isEmpty || got.isEmpty then false
  else
    let diff := (List.range (max expected.length got.length)).foldl
      (fun diff i => diff ||| (expected.getD (i % expected.length) 0).val ^^^
        (got.getD (i % got.length) 0).val)
      (expected.length ^^^ got.length)
    diff == 0

end ApiKey

inductive AuthPolicy
  | open_
  | publicPull (write : ApiKey)
  | private_ (read write : ApiKey)

inductive AuthError
  | missing
  | malformed
  | invalid
  | insufficient
  deriving DecidableEq

/-- Which keys had to be invented. -/
structure Generated where
  read : Bool
  write : Bool

/-- An empty key would be no key. -/
def nonempty (label : String) (key : Option Text) : Except String Unit :=
  match key with
  | some key => if (Texts.trim key).isEmpty then .error s!"the {label} API key is empty" else .ok ()
  | none => .ok ()

/-! ## The credential -/

/-- The value of a base64 character. -/
def sextet (byte : Byte) : Option Nat :=
  if 65 ≤ byte ∧ byte ≤ 90 then some (byte.val - 65)
  else if 97 ≤ byte ∧ byte ≤ 122 then some (byte.val - 97 + 26)
  else if 48 ≤ byte ∧ byte ≤ 57 then some (byte.val - 48 + 52)
  else if byte = 43 then some 62
  else if byte = 47 then some 63
  else none

/-- `slice.strip_suffix`. -/
def stripEnd (s back : Bytes) : Option Bytes :=
  if back <:+ s then some (s.take (s.length - back.length)) else none

/-- `slice.chunks(4)`. -/
def chunks4 : Bytes → List Bytes
  | a :: b :: c :: d :: rest => [a, b, c, d] :: chunks4 rest
  | [] => []
  | short => [short]

/-- The bytes of one chunk: a short one is shifted up to a whole group. -/
def decodeChunk (chunk : Bytes) : Option Bytes := do
  let acc ← chunk.foldlM (fun acc byte => (sextet byte).map fun v => (acc <<< 6) ||| v) 0
  let acc := acc <<< (6 * (4 - chunk.length))
  return (List.range (chunk.length - 1)).map fun i =>
    Fin.ofNat 256 ((acc >>> (16 - 8 * i)) &&& 0xff)

/-- `base64_decode`: standard base64, padding optional. -/
def base64Decode (input : Text) : Option Bytes :=
  let input := Bytes.utf8 input
  let input := ((stripEnd input [61, 61]).or (stripEnd input [61])).getD input
  if input.length % 4 = 1 then none
  else ((chunks4 input).mapM decodeChunk).map List.flatten

/-- `credential`: the key in an `Authorization` value. -/
def credential (value : Text) : Option Text := do
  let (scheme, rest) ← splitOnce ' ' value
  let rest := Texts.trim rest
  if eqIgnoreAsciiCase scheme "bearer".toList then
    if rest.isEmpty then none else some rest
  else if eqIgnoreAsciiCase scheme "basic".toList then
    let decoded ← base64Decode rest
    let decoded ← Bytes.ofUtf8 decoded
    let (user, password) ← splitOnce ':' decoded
    let key := if password.isEmpty then user else password
    if key.isEmpty then none else some key
  else none

namespace AuthPolicy

def forPublicPull (write : Option Text) (fresh : ApiKey) : Except String (AuthPolicy × Generated) := do
  nonempty "write" write
  return (.publicPull ((write.map ApiKey.mk).getD fresh), { read := false, write := write.isNone })

def forPrivate (read write : Option Text) (freshRead freshWrite : ApiKey) :
    Except String (AuthPolicy × Generated) := do
  nonempty "read" read
  nonempty "write" write
  return (.private_ ((read.map ApiKey.mk).getD freshRead) ((write.map ApiKey.mk).getD freshWrite),
    { read := read.isNone, write := write.isNone })

section
variable {HeaderValue : Type} (toStr : HeaderValue → Option Text)

/-- The two guarded modes: no key is needed to read where `read` is `none`. -/
def authorizeKeys (read : Option ApiKey) (write : ApiKey) (method : Method)
    (header : Option HeaderValue) : Except AuthError Unit :=
  match header with
  | none =>
    match Access.of method, read with
    | .read, none => .ok ()
    | _, _ => .error .missing
  | some raw =>
    match (toStr raw).bind credential with
    | none => .error .malformed
    | some presented =>
      if write.matches_ presented then .ok ()
      else
        match read with
        | none => .error .invalid
        | some read =>
          if read.matches_ presented then
            match Access.of method with
            | .read => .ok ()
            | .write => .error .insufficient
          else .error .invalid

/-- `AuthPolicy::authorize`, on the request's `Authorization` header. -/
def authorize (policy : AuthPolicy) (method : Method) (header : Option HeaderValue) :
    Except AuthError Unit :=
  match policy with
  | .open_ => .ok ()
  | .publicPull write => authorizeKeys toStr none write method header
  | .private_ read write => authorizeKeys toStr (some read) write method header

end

/-- What the constructors build, and `open`. -/
inductive Built : AuthPolicy → Prop
  | open_ : Built .open_
  | forPublicPull {write : Option Text} {a b : List.Vector Byte 16} {policy : AuthPolicy}
      {generated : Generated}
      (built : forPublicPull write (.generate a b) = .ok (policy, generated)) : Built policy
  | forPrivate {read write : Option Text} {a b c d : List.Vector Byte 16} {policy : AuthPolicy}
      {generated : Generated}
      (built : forPrivate read write (.generate a b) (.generate c d) = .ok (policy, generated)) :
      Built policy

end AuthPolicy

example : base64Decode "dXNlcjprZXk".toList = base64Decode "dXNlcjprZXk=".toList := by decide

end Summ
