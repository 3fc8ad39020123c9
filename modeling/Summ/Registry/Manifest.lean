import Summ.Registry.Error

/-!
# Parsing a pushed manifest document

JSON decoding, the OCI document types' own checks and the hash functions are
other packages' code: `Oci` is what this program uses of them. The rest is the
module's own: which shape a body is, and the projection onto what the key
schema stores.
-/

namespace Summ

/-- A descriptor; the digest grammar its type checks is ASCII. -/
structure Descriptor where
  mediaType : Text
  digest : Text
  ascii : IsAscii digest
  size : Nat
  urls : Option (List Text)
  platform : Option Platform

structure ImageManifest where
  schemaVersion : Nat
  artifactType : Option Text
  config : Descriptor
  layers : List Descriptor
  subject : Option Descriptor
  annotations : Option Annotations

structure ImageIndex where
  schemaVersion : Nat
  artifactType : Option Text
  manifests : List Descriptor
  subject : Option Descriptor
  annotations : Option Annotations

/-- Just enough of a manifest to decide its shape. -/
structure Shape where
  mediaType : Option Text
  manifests : Bool
  config : Bool

/-- The packages the registry calls: `serde_json` into each document type, with
the text of its failure, and the two hash functions. -/
structure Oci where
  shape : Bytes → Except String Shape
  imageManifest : Bytes → Except String ImageManifest
  imageIndex : Bytes → Except String ImageIndex
  sha256 : Bytes → List.Vector Byte 32
  sha512 : Bytes → List.Vector Byte 64

def DEFAULT_MEDIA_TYPE : Text := "application/vnd.oci.image.manifest.v1+json".toList
def OCI_INDEX : Text := "application/vnd.oci.image.index.v1+json".toList
def DOCKER_MANIFEST_LIST : Text :=
  "application/vnd.docker.distribution.manifest.list.v2+json".toList
def OCI_MANIFEST : Text := "application/vnd.oci.image.manifest.v1+json".toList
def DOCKER_MANIFEST : Text := "application/vnd.docker.distribution.manifest.v2+json".toList

structure BlobDesc where
  digest : Digest
  size : Nat
  foreign : Bool
  deriving DecidableEq

inductive ManifestKind
  | image
  | index
  deriving DecidableEq

/-- A manifest projected onto what the key schema stores. -/
structure ParsedManifest where
  kind : ManifestKind
  mediaType : Text
  artifactType : Option Text
  referrerArtifactType : Option Text
  annotations : Annotations
  subject : Option Digest
  blobs : List BlobDesc
  children : List ChildRef
  deriving DecidableEq

/-- The stored bytes a manifest refers to; the sum wraps as the machine's does. -/
def ParsedManifest.totalLayerSize (p : ParsedManifest) : Nat :=
  ((p.blobs.filter fun b => !b.foreign).map BlobDesc.size).sum % 2 ^ 64

namespace Manifest

def classify (shape : Shape) : Except RegistryError ManifestKind :=
  if shape.mediaType = some OCI_INDEX ∨ shape.mediaType = some DOCKER_MANIFEST_LIST then
    .ok .index
  else if shape.mediaType = some OCI_MANIFEST ∨ shape.mediaType = some DOCKER_MANIFEST then
    .ok .image
  else
    match shape.manifests, shape.config with
    | true, false => .ok .index
    | false, true => .ok .image
    | true, true => .error (.invalid
        "has both 'manifests' and 'config'; neither an image manifest nor an index")
    | false, false => .error (.invalid "has neither 'manifests' nor 'config'")

def checkSchemaVersion (v : Nat) : Except RegistryError Unit :=
  if v = 2 then .ok () else .error (.invalid s!"schemaVersion must be 2, got {v}")

def descriptorDigest (d : Descriptor) : Except RegistryError Digest :=
  ((Digest.fromStr d.digest).get (Digest.fromStr_isSome d.ascii)).mapError fun e =>
    .invalid s!"descriptor digest: {e.display}"

def blobDesc (d : Descriptor) : Except RegistryError BlobDesc := do
  let digest ← descriptorDigest d
  return { digest, size := d.size, foreign := d.urls.any fun u => !u.isEmpty }

def childRef (d : Descriptor) : Except RegistryError ChildRef := do
  let digest ← descriptorDigest d
  return { digest, platform := d.platform }

def parseImage (oci : Oci) (body : Bytes) (mediaType : Text) :
    Except RegistryError ParsedManifest := do
  let m ← (oci.imageManifest body).mapError fun e => .invalid s!"not an image manifest: {e}"
  checkSchemaVersion m.schemaVersion
  let config ← blobDesc m.config
  let layers ← m.layers.mapM blobDesc
  let subject ← m.subject.mapM descriptorDigest
  return {
    kind := .image
    mediaType
    artifactType := m.artifactType
    referrerArtifactType := m.artifactType.or (some m.config.mediaType)
    annotations := m.annotations.getD []
    subject
    blobs := config :: layers
    children := [] }

def parseIndex (oci : Oci) (body : Bytes) (mediaType : Text) :
    Except RegistryError ParsedManifest := do
  let ix ← (oci.imageIndex body).mapError fun e => .invalid s!"not an image index: {e}"
  checkSchemaVersion ix.schemaVersion
  let children ← ix.manifests.mapM childRef
  let subject ← ix.subject.mapM descriptorDigest
  return {
    kind := .index
    mediaType
    artifactType := ix.artifactType
    referrerArtifactType := ix.artifactType
    annotations := ix.annotations.getD []
    subject
    blobs := []
    children }

/-- `manifest::parse`. The body's own media type wins over the header's. -/
def parse (oci : Oci) (body : Bytes) (contentType : Option Text) :
    Except RegistryError ParsedManifest := do
  let shape ← (oci.shape body).mapError fun e => .invalid s!"not a JSON object: {e}"
  let mediaType := (shape.mediaType.or contentType).getD DEFAULT_MEDIA_TYPE
  match ← classify shape with
  | .index => parseIndex oci body mediaType
  | .image => parseImage oci body mediaType

end Manifest

/-! ## Documents whose decoding and digest are known -/

structure Document where
  body : Bytes
  sha256 : List.Vector Byte 32
  image : Option ImageManifest := none
  index : Option ImageIndex := none

def Document.digest (doc : Document) : Digest := .sha256 doc.sha256

/-- The packages' answers for the documents listed, none of which states a
media type of its own; no other body decodes. -/
def Oci.ofDocuments (docs : List Document) : Oci where
  shape body :=
    match docs.find? fun doc => doc.body = body with
    | some doc => .ok {
        mediaType := none
        manifests := doc.index.isSome
        config := doc.image.isSome }
    | none => .error "expected value at line 1 column 1"
  imageManifest body :=
    match (docs.find? fun doc => doc.body = body).bind Document.image with
    | some image => .ok image
    | none => .error "missing field `config`"
  imageIndex body :=
    match (docs.find? fun doc => doc.body = body).bind Document.index with
    | some index => .ok index
    | none => .error "missing field `manifests`"
  sha256 body :=
    match docs.find? fun doc => doc.body = body with
    | some doc => doc.sha256
    | none => List.Vector.replicate 32 0
  sha512 _ := List.Vector.replicate 64 0

end Summ
