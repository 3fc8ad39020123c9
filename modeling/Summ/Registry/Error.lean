import Summ.Core.Types

/-! The registry's failures and the code each one answers with. -/

namespace Summ

inductive RegistryError
  | nameUnknown (repo : Text)
  | tagInvalid (tag : Text) (reason : String)
  | manifestInvalid (reason : String)
  | manifestUnknown (repo reference : Text)
  | manifestBlobUnknown (repo : Text) (digest : Digest)
  | digestInvalid (reason : String)
  | blobUnknown (repo : Text) (digest : Digest)
  | store (error : SummError)
  deriving DecidableEq

namespace RegistryError

def code : RegistryError → String
  | nameUnknown _ => "NAME_UNKNOWN"
  | tagInvalid .. => "NAME_INVALID"
  | manifestInvalid _ => "MANIFEST_INVALID"
  | manifestUnknown .. => "MANIFEST_UNKNOWN"
  | manifestBlobUnknown .. => "MANIFEST_BLOB_UNKNOWN"
  | digestInvalid _ => "DIGEST_INVALID"
  | blobUnknown .. => "BLOB_UNKNOWN"
  | store _ => "UNKNOWN"

def invalid (reason : String) : RegistryError := manifestInvalid reason

def corrupt (what : String) : RegistryError :=
  store (.invalidData s!"malformed stored record: {what}")

end RegistryError

end Summ
