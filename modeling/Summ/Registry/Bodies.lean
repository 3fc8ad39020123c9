import Summ.Registry.Push

/-!
# What a body determines

Two pushes of one body differ in nothing but the media type, so as far as the
hash functions tell bodies apart, pushes of one digest list the same.
-/

namespace Summ

namespace Manifest

variable {oci : Oci}

theorem parseIndex_mediaType (body : Bytes) (mediaType mediaType' : Text) :
    parseIndex oci body mediaType' =
      (parseIndex oci body mediaType).map fun p => { p with mediaType := mediaType' } := by
  simp only [parseIndex, bind, Except.bind, pure, Except.pure]
  cases hix : (oci.imageIndex body).mapError fun e =>
      RegistryError.invalid s!"not an image index: {e}" with
  | error e => rfl
  | ok ix =>
  cases hversion : checkSchemaVersion ix.schemaVersion with
  | error e => simp [hversion, Except.map]
  | ok _ =>
  cases hchildren : ix.manifests.mapM childRef with
  | error e => simp [hversion, hchildren, Except.map]
  | ok children =>
  cases hsubject : ix.subject.mapM descriptorDigest with
  | error e => simp [hversion, hchildren, hsubject, Except.map]
  | ok subject => simp [hversion, hchildren, hsubject, Except.map]

theorem parseImage_mediaType (body : Bytes) (mediaType mediaType' : Text) :
    parseImage oci body mediaType' =
      (parseImage oci body mediaType).map fun p => { p with mediaType := mediaType' } := by
  simp only [parseImage, bind, Except.bind, pure, Except.pure]
  cases hm : (oci.imageManifest body).mapError fun e =>
      RegistryError.invalid s!"not an image manifest: {e}" with
  | error e => rfl
  | ok m =>
  cases hversion : checkSchemaVersion m.schemaVersion with
  | error e => simp [hversion, Except.map]
  | ok _ =>
  cases hconfig : blobDesc m.config with
  | error e => simp [hversion, hconfig, Except.map]
  | ok config =>
  cases hlayers : m.layers.mapM blobDesc with
  | error e => simp [hversion, hconfig, hlayers, Except.map]
  | ok layers =>
  cases hsubject : m.subject.mapM descriptorDigest with
  | error e => simp [hversion, hconfig, hlayers, hsubject, Except.map]
  | ok subject => simp [hversion, hconfig, hlayers, hsubject, Except.map]

theorem parseIndex_own {body : Bytes} {mediaType : Text} {p : ParsedManifest}
    (h : parseIndex oci body mediaType = .ok p) : p.mediaType = mediaType := by
  have renamed : parseIndex oci body mediaType =
      (parseIndex oci body mediaType).map fun p => { p with mediaType } :=
    parseIndex_mediaType body mediaType mediaType
  rw [h] at renamed
  exact congrArg ParsedManifest.mediaType (Except.ok.inj renamed)

theorem parseImage_own {body : Bytes} {mediaType : Text} {p : ParsedManifest}
    (h : parseImage oci body mediaType = .ok p) : p.mediaType = mediaType := by
  have renamed : parseImage oci body mediaType =
      (parseImage oci body mediaType).map fun p => { p with mediaType } :=
    parseImage_mediaType body mediaType mediaType
  rw [h] at renamed
  exact congrArg ParsedManifest.mediaType (Except.ok.inj renamed)

theorem parse_body {body : Bytes} {contentType contentType' : Option Text}
    {p p' : ParsedManifest} (h : parse oci body contentType = .ok p)
    (h' : parse oci body contentType' = .ok p') : p' = { p with mediaType := p'.mediaType } := by
  simp only [parse, bind, Except.bind] at h h'
  cases hshape : (oci.shape body).mapError fun e =>
      RegistryError.invalid s!"not a JSON object: {e}" with
  | error e => simp [hshape] at h
  | ok shape =>
  cases hclass : classify shape with
  | error e => simp [hshape, hclass] at h
  | ok kind =>
  simp only [hshape, hclass] at h h'
  cases kind with
  | index =>
    dsimp only at h h'
    rw [parseIndex_mediaType body _ _, h] at h'
    cases h'
    rfl
  | image =>
    dsimp only at h h'
    rw [parseImage_mediaType body _ _, h] at h'
    cases h'
    rfl

/-- What a document parses to it parses to again under the media type it was
given: the type the body states, or the one it was pushed with. -/
theorem parse_again {body : Bytes} {contentType : Option Text} {p : ParsedManifest}
    (h : parse oci body contentType = .ok p) : parse oci body (some p.mediaType) = .ok p := by
  simp only [parse, bind, Except.bind] at h ⊢
  cases hshape : (oci.shape body).mapError fun e =>
      RegistryError.invalid s!"not a JSON object: {e}" with
  | error e => simp [hshape] at h
  | ok shape =>
  cases hclass : classify shape with
  | error e => simp [hshape, hclass] at h
  | ok kind =>
  simp only [hshape, hclass] at h ⊢
  have own : p.mediaType = (shape.mediaType.or contentType).getD DEFAULT_MEDIA_TYPE := by
    cases kind with
    | index =>
      dsimp only at h
      exact parseIndex_own h
    | image =>
      dsimp only at h
      exact parseImage_own h
  have kept : (shape.mediaType.or (some p.mediaType)).getD DEFAULT_MEDIA_TYPE =
      (shape.mediaType.or contentType).getD DEFAULT_MEDIA_TYPE := by
    cases hstated : shape.mediaType with
    | none =>
      rw [hstated] at own
      exact own
    | some stated => rfl
  rw [kept]
  exact h

end Manifest

/-- Pushes that are given one digest have one body. -/
def Oci.CollisionFree (oci : Oci) (puts : List ManifestPut) : Prop :=
  ∀ a ∈ puts, ∀ b ∈ puts,
    digestBody oci a.body a.reference.asDigest = digestBody oci b.body b.reference.asDigest →
    a.body = b.body

instance (oci : Oci) (puts : List ManifestPut) : Decidable (oci.CollisionFree puts) :=
  inferInstanceAs (Decidable (∀ a ∈ puts, ∀ b ∈ puts, _))

section Checked
variable {oci : Oci} {options : RegistryOptions} {put put' : ManifestPut} {c c' : CheckedPut}

theorem checkPut_ok (h : checkPut oci options put = .ok c) :
    c.put = put ∧ c.digest = digestBody oci put.body put.reference.asDigest ∧
      Manifest.parse oci put.body put.contentType = .ok c.parsed := by
  unfold checkPut at h
  simp only [bind, Except.bind, pure, Except.pure, throw, throwThe, MonadExceptOf.throw] at h
  repeat' split at h
  all_goals cases h
  all_goals exact ⟨rfl, rfl, by assumption⟩

/-- Two pushes that are given one digest list the same blobs and children and
name the same subject. -/
theorem checkPut_again {puts : List ManifestPut} (free : oci.CollisionFree puts)
    (listed : put ∈ puts) (listed' : put' ∈ puts) (checked : checkPut oci options put = .ok c)
    (checked' : checkPut oci options put' = .ok c') (same : c'.digest = c.digest) :
    c'.parsed = { c.parsed with mediaType := c'.parsed.mediaType } := by
  obtain ⟨-, digest, parsed⟩ := checkPut_ok checked
  obtain ⟨-, digest', parsed'⟩ := checkPut_ok checked'
  have body : put'.body = put.body :=
    free put' listed' put listed (digest'.symm.trans (same.trans digest))
  rw [body] at parsed'
  exact Manifest.parse_body parsed parsed'

end Checked

end Summ
