import Summ.Registry.Tags

/-!
# Manifest push

`planManifestPutTagged` checks the body, interns the repository and builds the
one batch of the push. `Store.planPush` is what it does once the id is known;
`planPush_batch` names the writes of every push that is accepted.
-/

namespace Summ

/-- `PUT /v2/<name>/manifests/<reference>`. -/
structure ManifestPut where
  repo : Text
  reference : Reference
  body : Bytes
  contentType : Option Text
  now : Timestamp
  deriving DecidableEq

structure PushOutcome where
  digest : Digest
  mediaType : Text
  size : Nat
  subject : Option Digest
  tag : Option Text
  displaced : Option Digest

/-- `digest_body`: sha512 only for a push that named a sha512 digest. -/
def digestBody (oci : Oci) (body : Bytes) (like : Option Digest) : Digest :=
  match like with
  | some (.sha512 _) => .sha512 (oci.sha512 body)
  | _ => .sha256 (oci.sha256 body)

/-- A push whose body has been digested and parsed. -/
structure CheckedPut where
  put : ManifestPut
  digest : Digest
  parsed : ParsedManifest
  deriving DecidableEq

/-- The checks a push makes before it interns the repository. -/
def checkPut (oci : Oci) (options : RegistryOptions) (put : ManifestPut) :
    Except RegistryError CheckedPut := do
  if options.maxManifestBytes < put.body.length then
    throw (.invalid
      s!"manifest is {put.body.length} bytes, limit is {options.maxManifestBytes}")
  let digest := digestBody oci put.body put.reference.asDigest
  if let some claimed := put.reference.asDigest then
    if claimed ≠ digest then
      throw (.digestInvalid (s!"body digests to {String.ofList digest.display}, " ++
        s!"not the {String.ofList claimed.display} it was pushed as"))
  let parsed ← Manifest.parse oci put.body put.contentType
  return { put, digest, parsed }

namespace CheckedPut

variable (c : CheckedPut)

def record (repo : RepoId) : ManifestRecord where
  repo
  digest := c.digest
  mediaType := c.parsed.mediaType
  size := c.put.body.length
  totalLayerSize := c.parsed.totalLayerSize
  platform := none
  layers := c.parsed.blobs.map BlobDesc.digest
  children := c.parsed.children
  subject := c.parsed.subject
  artifactType := c.parsed.artifactType
  annotations := c.parsed.annotations
  pushedAt := c.put.now.secs

def target : TagTarget where
  digest := c.digest
  mediaType := c.parsed.mediaType
  size := c.put.body.length
  referrer := {
    mediaType := c.parsed.mediaType
    artifactType := c.parsed.referrerArtifactType
    size := c.put.body.length
    annotations := c.parsed.annotations }

/-- The tags of a push in the order they are applied. -/
def tags (extraTags : List Text) : List Text := c.put.reference.asTag.toList ++ extraTags

/-- Those of the tags that are in the grammar. -/
def validTags (extraTags : List Text) : List Tag :=
  (c.tags extraTags).filterMap fun t => (validateTag t).toOption

theorem mem_validTags {c : CheckedPut} {extraTags : List Text} {t : Tag} :
    t ∈ c.validTags extraTags ↔ t.text ∈ c.tags extraTags := by
  rw [validTags, List.mem_filterMap]
  constructor
  · rintro ⟨text, htext, ht⟩
    cases hv : validateTag text with
    | error e => simp [hv, Except.toOption] at ht
    | ok t' =>
      obtain rfl : t' = t := by simpa [hv, Except.toOption] using ht
      rwa [validateTag_eq_ok.mp hv]
  · intro ht
    exact ⟨t.text, ht, by rw [validateTag_eq_ok.mpr rfl]; rfl⟩

end CheckedPut

namespace Store

variable (s : Store)

/-- The writes for one blob that is recorded. -/
def blobOps (repo : RepoId) (manifest : Digest) (desc : BlobDesc) (now : Timestamp) :
    WriteBatch :=
  let known := s.blobRecord desc.digest
  let size := (known.map BlobRecord.size).getD desc.size
  (if known.isNone then [MetaOp.put (.blob desc.digest) (.blob { size }) rfl] else []) ++
  (if s.existsPrefix (.repoBlob repo desc.digest) then []
    else [MetaOp.put (.repoBlob repo desc.digest) (.repoBlob { size, addedAt := now.secs }) rfl]) ++
  [MetaOp.set (.blobRef desc.digest repo manifest) rfl, MetaOp.delete (.blobMark desc.digest)]

/-- Whether the repository already has the blob and may serve it. -/
def holdsBlob (repo : RepoId) (digest : Digest) : Bool :=
  (s.blobRecord digest).isSome && s.blobIsServableId repo digest

/-- One round of `stage_blobs`. -/
def stageBlob (options : RegistryOptions) (name : Text) (repo : RepoId) (manifest : Digest)
    (now : Timestamp) (desc : BlobDesc) : Except RegistryError WriteBatch :=
  let held := s.holdsBlob repo desc.digest
  if desc.foreign && !held then .ok []
  else if options.validateReferences && !held then
    .error (.manifestBlobUnknown name desc.digest)
  else .ok (s.blobOps repo manifest desc now)

/-- One round of `stage_children`. -/
def stageChild (options : RegistryOptions) (name : Text) (repo : RepoId) (manifest : Digest)
    (child : ChildRef) : Except RegistryError WriteBatch :=
  if options.validateReferences && !s.existsPrefix (.manifest repo child.digest) then
    .error (.manifestBlobUnknown name child.digest)
  else .ok [.set (.childParent repo child.digest manifest) rfl]

/-- The tag loop of a push: a tag already applied is skipped. -/
def stageTags (repo : RepoId) (target : TagTarget) (now : Timestamp) :
    (applied : List Text) → List Text → Except RegistryError (List (WriteBatch × Option Digest))
  | _, [] => .ok []
  | applied, tag :: tags =>
    if tag ∈ applied then stageTags repo target now applied tags
    else do
      let first ← s.stageSetTag repo tag target now
      let rest ← stageTags repo target now (applied ++ [tag]) tags
      return first :: rest

/-- The record, the body and the edge to the subject. -/
def recordOps (repo : RepoId) (c : CheckedPut) : WriteBatch :=
  [MetaOp.put (.manifest repo c.digest) (.manifest (c.record repo)) rfl,
    MetaOp.put (.manifestBody repo c.digest) (.manifestBody c.put.body) rfl] ++
  (c.parsed.subject.map fun subject =>
    MetaOp.put (.referrer repo subject c.digest) (.referrer c.target.referrer) rfl).toList

/-- `plan_manifest_put_tagged`, once the repository has an id. -/
def planPush (options : RegistryOptions) (repo : RepoId) (c : CheckedPut)
    (extraTags : List Text) : Except RegistryError (Planned PushOutcome) := do
  let blobs ← c.parsed.blobs.mapM (s.stageBlob options c.put.repo repo c.digest c.put.now)
  let children ← c.parsed.children.mapM (s.stageChild options c.put.repo repo c.digest)
  let tags ← s.stageTags repo c.target c.put.now [] (c.tags extraTags)
  return {
    outcome := {
      digest := c.digest
      mediaType := c.parsed.mediaType
      size := c.put.body.length
      subject := c.parsed.subject
      tag := c.put.reference.asTag
      displaced := tags.head?.bind Prod.snd }
    batch := blobs.flatten ++ children.flatten ++ recordOps repo c ++
      (tags.map Prod.fst).flatten }

end Store

namespace Registry

variable (r : Registry)

def planManifestPutTagged (oci : Oci) (put : ManifestPut) (extraTags : List Text) :
    Except RegistryError (Planned PushOutcome) × Registry :=
  match checkPut oci r.options put with
  | .error e => (.error e, r)
  | .ok c => r.planInterned put.repo fun s repo => s.planPush r.options repo c extraTags

/-- `put_manifest`, with the `?tag=` parameters of the push. -/
def putManifest (oci : Oci) (put : ManifestPut) (extraTags : List Text) :
    Except RegistryError PushOutcome × Registry :=
  commit (r.planManifestPutTagged oci put extraTags)

end Registry

/-! ## The writes of an accepted push -/

/-- The kinds of key a recorded blob's writes touch. -/
def Key.aboutBlobs : Key → Bool
  | .blob _ | .repoBlob .. | .blobRef .. | .blobMark _ => true
  | _ => false

/-- A fallible loop that succeeds ran each of its rounds to success. -/
theorem mapM_ok {α β : Type} {f : α → Except RegistryError β} {P : α → Prop} {g : α → β}
    (spec : ∀ x y, f x = .ok y → P x ∧ y = g x) {xs : List α} {ys : List β}
    (h : xs.mapM f = .ok ys) : (∀ x ∈ xs, P x) ∧ ys = xs.map g := by
  induction xs generalizing ys with
  | nil =>
    cases h
    exact ⟨by simp, rfl⟩
  | cons x xs ih =>
    rw [List.mapM_cons] at h
    cases hx : f x with
    | error e => simp [hx, bind, Except.bind] at h
    | ok y =>
      cases hxs : xs.mapM f with
      | error e => simp [hx, hxs, bind, Except.bind] at h
      | ok zs =>
        simp only [hx, hxs, bind, Except.bind, pure, Except.pure, Except.ok.injEq] at h
        obtain ⟨first, rfl⟩ := spec x y hx
        obtain ⟨rest, rfl⟩ := ih hxs
        exact ⟨List.forall_mem_cons.mpr ⟨first, rest⟩, h.symm⟩

namespace Store

variable {s : Store} {options : RegistryOptions} {repo : RepoId} {c : CheckedPut}

/-- The blobs a push records: all but the foreign ones the repository has not. -/
def recorded (s : Store) (repo : RepoId) (c : CheckedPut) : List BlobDesc :=
  c.parsed.blobs.filter fun desc => !desc.foreign || s.holdsBlob repo desc.digest

theorem stageBlob_ok {name : Text} {manifest : Digest} {now : Timestamp} {desc : BlobDesc}
    {b : WriteBatch} (h : s.stageBlob options name repo manifest now desc = .ok b) :
    (options.validateReferences = true → desc.foreign = true ∨ s.holdsBlob repo desc.digest = true) ∧
      b = if !desc.foreign || s.holdsBlob repo desc.digest then s.blobOps repo manifest desc now
        else [] := by
  unfold stageBlob at h
  cases hf : desc.foreign <;> cases hh : s.holdsBlob repo desc.digest <;>
    cases hv : options.validateReferences <;> simp_all

theorem stageChild_ok {name : Text} {manifest : Digest} {child : ChildRef} {b : WriteBatch}
    (h : s.stageChild options name repo manifest child = .ok b) :
    (options.validateReferences = true → s.existsPrefix (.manifest repo child.digest) = true) ∧
      b = [.set (.childParent repo child.digest manifest) rfl] := by
  unfold stageChild at h
  split at h
  · cases h
  · rename_i hn
    refine ⟨?_, (Except.ok.inj h).symm⟩
    intro hv
    simpa [hv] using hn

theorem stageTags_ok {target : TagTarget} {now : Timestamp} {applied tags : List Text}
    {out : List (WriteBatch × Option Digest)}
    (h : s.stageTags repo target now applied tags = .ok out) :
    ∃ ts : List Tag, (∀ t, t ∈ ts ↔ t.text ∈ tags ∧ t.text ∉ applied) ∧
      out = ts.map fun t =>
        (setTagOps repo t (s.tagDigest repo t) target now, s.tagDigest repo t) := by
  induction tags generalizing applied out with
  | nil =>
    cases h
    exact ⟨[], by simp, rfl⟩
  | cons tag tags ih =>
    rw [stageTags] at h
    split at h
    · rename_i hin
      obtain ⟨ts, hts, rfl⟩ := ih h
      refine ⟨ts, ?_, rfl⟩
      intro t
      rw [hts, List.mem_cons]
      constructor
      · rintro ⟨ht, hn⟩
        exact ⟨Or.inr ht, hn⟩
      · rintro ⟨rfl | ht, hn⟩
        · exact absurd hin hn
        · exact ⟨ht, hn⟩
    · rename_i hnew
      cases htag : validateTag tag with
      | error e => simp [stageSetTag, htag, bind, Except.bind] at h
      | ok t =>
        cases hrest : s.stageTags repo target now (applied ++ [tag]) tags with
        | error e => simp [stageSetTag, htag, hrest, bind, Except.bind, pure, Except.pure] at h
        | ok rest =>
          simp only [stageSetTag, htag, hrest, bind, Except.bind, pure, Except.pure,
            Except.ok.injEq] at h
          obtain ⟨ts, hts, rfl⟩ := ih hrest
          have htext : t.text = tag := validateTag_eq_ok.mp htag
          refine ⟨t :: ts, ?_, h.symm⟩
          intro u
          rw [List.mem_cons, hts, List.mem_cons, List.mem_append, List.mem_singleton, Tag.ext_iff,
            htext]
          constructor
          · rintro (rfl | ⟨hu, hn⟩)
            · exact ⟨Or.inl rfl, hnew⟩
            · exact ⟨Or.inr hu, fun hin => hn (Or.inl hin)⟩
          · rintro ⟨hu | hu, hn⟩
            · exact Or.inl hu
            · by_cases heq : u.text = tag
              · exact Or.inl heq
              · exact Or.inr ⟨hu, fun hin => hin.elim hn heq⟩

/-- The one batch of a push, for the tags it applies. -/
def pushBatch (s : Store) (repo : RepoId) (c : CheckedPut) (ts : List Tag) : WriteBatch :=
  (s.recorded repo c).flatMap (fun desc => s.blobOps repo c.digest desc c.put.now) ++
  c.parsed.children.map (fun child =>
    MetaOp.set (.childParent repo child.digest c.digest) rfl) ++
  recordOps repo c ++
  ts.flatMap fun t => setTagOps repo t (s.tagDigest repo t) c.target c.put.now

/-- The writes of a push that is accepted, and what it checked. -/
theorem planPush_ok {extraTags : List Text} {p : Planned PushOutcome}
    (h : s.planPush options repo c extraTags = .ok p) :
    (options.validateReferences = true →
      (∀ desc ∈ c.parsed.blobs, desc.foreign = true ∨ s.holdsBlob repo desc.digest = true) ∧
      ∀ child ∈ c.parsed.children, s.existsPrefix (.manifest repo child.digest) = true) ∧
    ∃ ts : List Tag, (∀ t, t ∈ ts ↔ t.text ∈ c.tags extraTags) ∧
      p.batch = s.pushBatch repo c ts := by
  unfold planPush at h
  cases hb : c.parsed.blobs.mapM (s.stageBlob options c.put.repo repo c.digest c.put.now) with
  | error e => simp [hb, bind, Except.bind] at h
  | ok blobs =>
  cases hc : c.parsed.children.mapM (s.stageChild options c.put.repo repo c.digest) with
  | error e => simp [hb, hc, bind, Except.bind] at h
  | ok children =>
  cases ht : s.stageTags repo c.target c.put.now [] (c.tags extraTags) with
  | error e => simp [hb, hc, ht, bind, Except.bind] at h
  | ok tags =>
  simp only [hb, hc, ht, bind, Except.bind, pure, Except.pure, Except.ok.injEq] at h
  subst h
  obtain ⟨blobsOk, rfl⟩ := mapM_ok (fun _ _ hx => stageBlob_ok hx) hb
  obtain ⟨childrenOk, rfl⟩ := mapM_ok (fun _ _ hx => stageChild_ok hx) hc
  obtain ⟨ts, hts, rfl⟩ := stageTags_ok ht
  refine ⟨fun hv => ⟨fun d hd => blobsOk d hd hv, fun ch hch => childrenOk ch hch hv⟩, ts,
    fun t => by simp [hts], ?_⟩
  have recordedOps (descs : List BlobDesc) :
      (descs.map fun desc =>
          if !desc.foreign || s.holdsBlob repo desc.digest then
            s.blobOps repo c.digest desc c.put.now
          else []).flatten =
        (descs.filter fun desc => !desc.foreign || s.holdsBlob repo desc.digest).flatMap
          fun desc => s.blobOps repo c.digest desc c.put.now := by
    induction descs with
    | nil => rfl
    | cons desc descs ih =>
      rw [List.map_cons, List.flatten_cons, ih, List.filter_cons]
      split <;> rfl
  have childOps (children : List ChildRef) :
      (children.map fun child =>
          [MetaOp.set (.childParent repo child.digest c.digest) rfl]).flatten =
        children.map fun child => MetaOp.set (.childParent repo child.digest c.digest) rfl := by
    induction children with
    | nil => rfl
    | cons child children ih => rw [List.map_cons, List.flatten_cons, ih]; rfl
  simp only [recordedOps, childOps, pushBatch, recorded, List.map_map, List.flatMap_def,
    Function.comp_def]

/-! ## What a push leaves -/

theorem blobOps_other {manifest : Digest} {desc : BlobDesc} {now : Timestamp} {k : Key}
    (h : k.aboutBlobs = false) :
    WriteBatch.effect (s.blobOps repo manifest desc now) k = none := by
  rw [WriteBatch.effect_eq_none]
  intro op hop
  simp only [blobOps, List.mem_append, List.mem_cons, List.not_mem_nil, or_false] at hop
  rcases hop with (hop | hop) | rfl | rfl
  · split at hop
    · obtain rfl := List.mem_singleton.mp hop
      cases k <;> first | rfl | cases h
    · cases hop
  · split at hop
    · cases hop
    · obtain rfl := List.mem_singleton.mp hop
      cases k <;> first | rfl | cases h
  · cases k <;> first | rfl | cases h
  · cases k <;> first | rfl | cases h

section PushBatch
variable {ts : List Tag}

theorem pushBatch_blobs {k : Key} (h : k.aboutBlobs = true) :
    WriteBatch.effect (s.pushBatch repo c ts) k =
      WriteBatch.effect ((s.recorded repo c).flatMap fun desc =>
        s.blobOps repo c.digest desc c.put.now) k := by
  have tags : WriteBatch.effect (ts.flatMap fun t =>
      setTagOps repo t (s.tagDigest repo t) c.target c.put.now) k = none := by
    apply WriteBatch.effect_flatMap_none
    intro t _
    apply setTagOps_other
    cases k <;> first | rfl | cases h
  have record : WriteBatch.effect (recordOps repo c) k = none := by
    unfold recordOps
    cases k <;> cases h <;> cases c.parsed.subject <;> simp [MetaOp.effect]
  have children : WriteBatch.effect (c.parsed.children.map fun child =>
      MetaOp.set (.childParent repo child.digest c.digest) rfl) k = none := by
    rw [WriteBatch.effect_map_set (fun child : ChildRef =>
      Key.childParent repo child.digest c.digest) (fun _ => rfl), if_neg]
    cases k <;> cases h <;> simp
  simp only [pushBatch, WriteBatch.effect_append, tags, record, children, Option.none_or]

/-- A push writes a reference to each blob it records. -/
theorem pushBatch_blobRef (b : Digest) (r : RepoId) (m : Digest) :
    WriteBatch.effect (s.pushBatch repo c ts) (.blobRef b r m) =
      if repo = r ∧ c.digest = m ∧ ∃ desc ∈ s.recorded repo c, desc.digest = b then
        some (some .edge)
      else none := by
  have piece (desc : BlobDesc) :
      WriteBatch.effect (s.blobOps repo c.digest desc c.put.now) (.blobRef b r m) =
        if repo = r ∧ c.digest = m ∧ desc.digest = b then some (some .edge) else none := by
    unfold blobOps
    simp only [WriteBatch.effect_append]
    have hkey : (desc.digest = b ∧ repo = r ∧ c.digest = m) =
        (repo = r ∧ c.digest = m ∧ desc.digest = b) := by
      rw [eq_iff_iff]
      tauto
    split <;> split <;> simp [MetaOp.effect, MetaOp.set, hkey]
  rw [pushBatch_blobs rfl]
  split
  · rename_i h
    obtain ⟨hr, hm, desc, hdesc, hb⟩ := h
    rw [WriteBatch.effect_flatMap_const]
    · exact ⟨desc, hdesc, by rw [piece, if_pos ⟨hr, hm, hb⟩]⟩
    · intro other _
      rw [piece]
      split
      · exact Or.inr rfl
      · exact Or.inl rfl
  · rename_i h
    apply WriteBatch.effect_flatMap_none
    intro desc hdesc
    rw [piece, if_neg]
    rintro ⟨hr, hm, hb⟩
    exact h ⟨hr, hm, desc, hdesc, hb⟩

theorem pushBatch_records {k : Key} (h : k.aboutBlobs = false) :
    WriteBatch.effect (s.pushBatch repo c ts) k =
      ((WriteBatch.effect (ts.flatMap fun t =>
          setTagOps repo t (s.tagDigest repo t) c.target c.put.now) k).or
        (WriteBatch.effect (recordOps repo c) k)).or
        (if k ∈ c.parsed.children.map (fun child => .childParent repo child.digest c.digest) then
          some (some .edge)
        else none) := by
  have blobs : WriteBatch.effect ((s.recorded repo c).flatMap fun desc =>
      s.blobOps repo c.digest desc c.put.now) k = none :=
    WriteBatch.effect_flatMap_none fun _ _ => blobOps_other h
  simp only [pushBatch, WriteBatch.effect_append, blobs, Option.or_none, Option.or_assoc,
    WriteBatch.effect_map_set (fun child : ChildRef =>
      Key.childParent repo child.digest c.digest) (fun _ => rfl)]

theorem pushTags_other {k : Key} (h : k.aboutTags = false) :
    WriteBatch.effect (ts.flatMap fun t =>
      setTagOps repo t (s.tagDigest repo t) c.target c.put.now) k = none :=
  WriteBatch.effect_flatMap_none fun _ _ => setTagOps_other h

theorem pushBatch_manifest (r : RepoId) (d : Digest) :
    WriteBatch.effect (s.pushBatch repo c ts) (.manifest r d) =
      if repo = r ∧ c.digest = d then some (some (.manifest (c.record repo))) else none := by
  rw [pushBatch_records rfl, pushTags_other rfl]
  cases hs : c.parsed.subject <;> simp [recordOps, MetaOp.effect, hs]

theorem pushBatch_manifestBody (r : RepoId) (d : Digest) :
    WriteBatch.effect (s.pushBatch repo c ts) (.manifestBody r d) =
      if repo = r ∧ c.digest = d then some (some (.manifestBody c.put.body)) else none := by
  rw [pushBatch_records rfl, pushTags_other rfl]
  cases hs : c.parsed.subject <;> simp [recordOps, MetaOp.effect, hs]

theorem pushBatch_childParent (r : RepoId) (child parent : Digest) :
    WriteBatch.effect (s.pushBatch repo c ts) (.childParent r child parent) =
      if repo = r ∧ c.digest = parent ∧ child ∈ c.parsed.children.map ChildRef.digest then
        some (some .edge)
      else none := by
  rw [pushBatch_records rfl, pushTags_other rfl]
  have record : WriteBatch.effect (recordOps repo c) (.childParent r child parent) = none := by
    cases hs : c.parsed.subject <;> simp [recordOps, MetaOp.effect, hs]
  rw [record, Option.none_or, Option.none_or]
  congr 1
  simp only [List.mem_map, Key.childParent.injEq, eq_iff_iff]
  constructor
  · rintro ⟨ch, hch, rfl, rfl, rfl⟩
    exact ⟨rfl, rfl, ch, hch, rfl⟩
  · rintro ⟨rfl, rfl, ch, hch, rfl⟩
    exact ⟨ch, hch, rfl, rfl, rfl⟩

theorem pushBatch_tag (r : RepoId) (t : Tag) :
    WriteBatch.effect (s.pushBatch repo c ts) (.tag r t) =
      if repo = r ∧ t ∈ ts then
        some (some (.tag { digest := c.digest, taggedAt := c.put.now.secs }))
      else none := by
  rw [pushBatch_records rfl]
  have record : WriteBatch.effect (recordOps repo c) (.tag r t) = none := by
    cases hs : c.parsed.subject <;> simp [recordOps, MetaOp.effect, hs]
  rw [record, Option.or_none, if_neg (by simp), Option.or_none]
  split
  · rename_i h
    obtain ⟨rfl, ht⟩ := h
    rw [WriteBatch.effect_flatMap_const]
    · exact ⟨t, ht, by simp [setTagOps_tag, CheckedPut.target]⟩
    · intro u _
      rw [setTagOps_tag]
      by_cases hu : u = t <;> simp [hu, CheckedPut.target]
  · rename_i h
    apply WriteBatch.effect_flatMap_none
    intro u hu
    rw [setTagOps_tag, if_neg]
    rintro ⟨rfl, rfl⟩
    exact h ⟨rfl, hu⟩

theorem push_tagDigest (r : RepoId) (t : Tag) :
    (s.apply (s.pushBatch repo c ts)).tagDigest r t =
      if repo = r ∧ t ∈ ts then some c.digest else s.tagDigest r t := by
  simp only [tagDigest_eq, get_apply, pushBatch_tag]
  split <;> rfl

theorem push_manifestRecord (r : RepoId) (d : Digest) :
    (s.apply (s.pushBatch repo c ts)).manifestRecord r d =
      if repo = r ∧ c.digest = d then some (c.record repo) else s.manifestRecord r d := by
  unfold manifestRecord
  rw [get_apply, pushBatch_manifest]
  by_cases h : repo = r ∧ c.digest = d
  · rw [if_pos h, if_pos h]
    rfl
  · rw [if_neg h, if_neg h]
    rfl

/-- A push writes the reverse edge of each tag it applies, and retracts the one
the tag had. -/
theorem pushBatch_manifestTag (r : RepoId) (d : Digest) (t : Tag) :
    WriteBatch.effect (s.pushBatch repo c ts) (.manifestTag r d t) =
      if repo = r ∧ t ∈ ts then
        if c.digest = d then some (some .edge)
        else if s.tagDigest repo t = some d then some none else none
      else none := by
  rw [pushBatch_records rfl]
  have record : WriteBatch.effect (recordOps repo c) (.manifestTag r d t) = none := by
    cases hs : c.parsed.subject <;> simp [recordOps, MetaOp.effect, hs]
  rw [record, Option.or_none, if_neg (by simp), Option.or_none]
  by_cases h : repo = r ∧ t ∈ ts
  · rw [if_pos h]
    obtain ⟨rfl, ht⟩ := h
    have piece (u : Tag) : WriteBatch.effect
        (setTagOps repo u (s.tagDigest repo u) c.target c.put.now) (.manifestTag repo d t) =
        if u = t then
          if c.digest = d then some (some .edge)
          else if s.tagDigest repo t = some d then some none else none
        else none := by
      rw [setTagOps_manifestTag]
      by_cases hu : u = t
      · subst hu
        rw [if_pos ⟨rfl, rfl⟩, if_pos rfl]
        rfl
      · rw [if_neg fun h => hu h.2, if_neg hu]
    by_cases hd : c.digest = d
    · rw [if_pos hd, WriteBatch.effect_flatMap_const]
      · exact ⟨t, ht, by simp [piece, hd]⟩
      · intro u _
        by_cases hu : u = t <;> simp [piece, hu, hd]
    · rw [if_neg hd]
      by_cases hold : s.tagDigest repo t = some d
      · rw [if_pos hold, WriteBatch.effect_flatMap_const]
        · exact ⟨t, ht, by rw [piece, if_pos rfl, if_neg hd, if_pos hold]⟩
        · intro u _
          rw [piece, if_neg hd, if_pos hold]
          by_cases hu : u = t <;> simp [hu]
      · rw [if_neg hold]
        apply WriteBatch.effect_flatMap_none
        intro u _
        by_cases hu : u = t <;> simp [piece, hu, hd, hold]
  · rw [if_neg h]
    apply WriteBatch.effect_flatMap_none
    intro u hu
    rw [setTagOps_manifestTag, if_neg]
    rintro ⟨rfl, rfl⟩
    exact h ⟨rfl, hu⟩

/-- A push writes an edge to its own manifest for its subject and for the
subject of each artifact tag it applies. -/
theorem pushBatch_referrer_self (r : RepoId) (subject : Digest) :
    WriteBatch.effect (s.pushBatch repo c ts) (.referrer r subject c.digest) =
      if repo = r ∧ (c.parsed.subject = some subject ∨
          ∃ t ∈ ts, subjectOfArtifactTag t.text = some subject) then
        some (some (.referrer c.target.referrer))
      else none := by
  rw [pushBatch_records rfl, if_neg (by simp), Option.or_none]
  have piece (u : Tag) : WriteBatch.effect
      (setTagOps repo u (s.tagDigest repo u) c.target c.put.now) (.referrer r subject c.digest) =
      if repo = r ∧ subjectOfArtifactTag u.text = some subject then
        some (some (.referrer c.target.referrer))
      else none := by
    rw [setTagOps_referrer, if_pos (show c.target.digest = c.digest from rfl)]
  have record : WriteBatch.effect (recordOps repo c) (.referrer r subject c.digest) =
      if repo = r ∧ c.parsed.subject = some subject then
        some (some (.referrer c.target.referrer))
      else none := by
    cases hs : c.parsed.subject <;> simp [recordOps, MetaOp.effect, hs]
  rw [record]
  by_cases htag : repo = r ∧ ∃ t ∈ ts, subjectOfArtifactTag t.text = some subject
  · have wrote : WriteBatch.effect (ts.flatMap fun t =>
        setTagOps repo t (s.tagDigest repo t) c.target c.put.now)
        (.referrer r subject c.digest) = some (some (.referrer c.target.referrer)) := by
      obtain ⟨hr, t, ht, hsub⟩ := htag
      rw [WriteBatch.effect_flatMap_const]
      · exact ⟨t, ht, by rw [piece, if_pos ⟨hr, hsub⟩]⟩
      · intro u _
        rw [piece]
        split
        · exact Or.inr rfl
        · exact Or.inl rfl
    rw [wrote, Option.some_or, if_pos ⟨htag.1, Or.inr htag.2⟩]
  · have untouched : WriteBatch.effect (ts.flatMap fun t =>
        setTagOps repo t (s.tagDigest repo t) c.target c.put.now)
        (.referrer r subject c.digest) = none := by
      apply WriteBatch.effect_flatMap_none
      intro u hu
      rw [piece, if_neg fun h => htag ⟨h.1, u, hu, h.2⟩]
    rw [untouched, Option.none_or]
    congr 1
    rw [eq_iff_iff]
    constructor
    · rintro ⟨hr, hsub⟩
      exact ⟨hr, Or.inl hsub⟩
    · rintro ⟨hr, hsub | hsub⟩
      · exact ⟨hr, hsub⟩
      · exact absurd ⟨hr, hsub⟩ htag

/-- Of another manifest's edges a push retracts those to the subjects of the
artifact tags it takes from it. -/
theorem pushBatch_referrer_other {subject d : Digest} (hd : c.digest ≠ d) (r : RepoId) :
    WriteBatch.effect (s.pushBatch repo c ts) (.referrer r subject d) =
      if repo = r ∧ ∃ t ∈ ts, subjectOfArtifactTag t.text = some subject ∧
          s.tagDigest repo t = some d then some none
      else none := by
  rw [pushBatch_records rfl, if_neg (by simp), Option.or_none]
  have record : WriteBatch.effect (recordOps repo c) (.referrer r subject d) = none := by
    cases hs : c.parsed.subject <;> simp [recordOps, MetaOp.effect, hs, hd]
  rw [record, Option.or_none]
  have piece (u : Tag) : WriteBatch.effect
      (setTagOps repo u (s.tagDigest repo u) c.target c.put.now) (.referrer r subject d) =
      if repo = r ∧ subjectOfArtifactTag u.text = some subject ∧ s.tagDigest repo u = some d then
        some none
      else none := by
    rw [setTagOps_referrer]
    by_cases hr : repo = r ∧ subjectOfArtifactTag u.text = some subject
    · simp [hr, show c.target.digest ≠ d from hd]
    · rw [if_neg hr, if_neg fun h => hr ⟨h.1, h.2.1⟩]
  split
  · rename_i h
    obtain ⟨rfl, t, ht, hsub, hold⟩ := h
    rw [WriteBatch.effect_flatMap_const]
    · exact ⟨t, ht, by rw [piece, if_pos ⟨rfl, hsub, hold⟩]⟩
    · intro u _
      rw [piece]
      split
      · exact Or.inr rfl
      · exact Or.inl rfl
  · rename_i h
    apply WriteBatch.effect_flatMap_none
    intro u hu
    rw [piece, if_neg fun h' => h ⟨h'.1, u, hu, h'.2⟩]

end PushBatch

end Store

end Summ
