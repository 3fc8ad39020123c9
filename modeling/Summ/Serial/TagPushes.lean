import Summ.Registry.Bodies
import Summ.Serial.Histories

/-!
# A push by tag is a push by digest and then the tags

A tagged push stages all of its tags in one batch, each from what the tag
pointed at before the push and from the parsed body. `set_tag` stages one tag
from the stored record, and of an artifact tag from the stored body parsed
again. The two agree on every write (`tagTarget_pushed`, `setTagOps_agree`), and
a tag set twice at one instant is set once (`setTagOps_again`), so the two ways
leave one store.
-/

namespace Summ

/-! ## Setting tags in turn -/

namespace Registry

/-- `set_tag` for each of the tags, until one is refused. -/
def setTags (oci : Oci) (name : Text) (digest : Digest) (now : Timestamp) :
    List Text → Registry → Except RegistryError Unit × Registry
  | [], r => (.ok (), r)
  | tag :: tags, r =>
    match r.setTag oci name tag digest now with
    | (.ok _, r) => setTags oci name digest now tags r
    | (.error e, r) => (.error e, r)

/-- A push by the body's sha256 digest, and then the tags. -/
def putThenTag (r : Registry) (oci : Oci) (put : ManifestPut) (tags : List Text) :
    Except RegistryError Unit × Registry :=
  let digest : Digest := .sha256 (oci.sha256 put.body)
  match r.putManifest oci { put with reference := .digest digest } [] with
  | (.ok _, r) => r.setTags oci put.repo digest put.now tags
  | (.error e, r) => (.error e, r)

end Registry

/-! ## One name, looked up again -/

namespace RepoInterner

variable {c : RepoInterner} {s : Store} {name : Text} {id : RepoId}

theorem lookup_of_cached (cached : c.byName.peek name = some id) :
    (c.lookup s name).1 = some id ∧ (c.lookup s name).2.byName.peek name = some id := by
  have hit : c.byName.get name = (some id, c.byName.put name id) := by
    unfold Lru.get
    rw [cached]
  unfold lookup
  rw [hit]
  exact ⟨rfl, Lru.peek_put _ _ _⟩

theorem lookup_caches (h : (c.lookup s name).1 = some id) :
    (c.lookup s name).2.byName.peek name = some id := by
  cases cached : c.byName.peek name with
  | some known =>
    have again := lookup_of_cached (s := s) cached
    rw [again.1] at h
    rw [again.2, h]
  | none =>
    have miss : c.byName.get name = (none, c.byName) := by
      unfold Lru.get
      rw [cached]
    unfold lookup at h ⊢
    simp only [miss] at h ⊢
    cases stored : s.repoByName name with
    | none => simp [stored] at h
    | some known =>
      simp only [stored, Option.some.injEq] at h ⊢
      rw [← h]
      exact Lru.peek_put _ _ _

theorem intern_caches (h : (c.intern s name).1 = .ok id) :
    (c.intern s name).2.1.byName.peek name = some id := by
  unfold intern at h ⊢
  cases looked : c.lookup s name with
  | mk found c₁ =>
  have first : (c.lookup s name).1 = some id →
      (c.lookup s name).2.byName.peek name = some id := lookup_caches
  rw [looked] at first
  cases found with
  | some known =>
    simp only [looked, Except.ok.injEq] at h ⊢
    exact first (congrArg some h)
  | none =>
    simp only [looked] at h ⊢
    cases again : c₁.lookup s name with
    | mk found c₂ =>
    have second : (c₁.lookup s name).1 = some id →
        (c₁.lookup s name).2.byName.peek name = some id := lookup_caches
    rw [again] at second
    cases found with
    | some known =>
      simp only [again, Except.ok.injEq] at h ⊢
      exact second (congrArg some h)
    | none =>
      simp only [again] at h ⊢
      by_cases full : MAX_REPO_ID < s.nextId
      · simp [full] at h
      · rw [if_neg full] at h ⊢
        rw [← Except.ok.inj h]
        exact Lru.peek_put _ _ _

end RepoInterner

theorem Registry.internRepo_caches {r r' : Registry} {name : Text} {id : RepoId}
    (interned : r.internRepo name = (.ok id, r')) : r'.interner.byName.peek name = some id := by
  have known : (r.interner.intern r.store name).1 = .ok id →
      (r.interner.intern r.store name).2.1.byName.peek name = some id :=
    RepoInterner.intern_caches
  unfold internRepo at interned
  cases interns : r.interner.intern r.store name with
  | mk found rest =>
  rw [interns] at known interned
  obtain ⟨answer, rfl⟩ := Prod.mk.inj interned
  apply known
  cases found with
  | error e => cases answer
  | ok found => exact congrArg _ (Except.ok.inj answer)

/-! ## The writes of one tag -/

section SetTag
variable {repo : RepoId} {tag tag' : Tag} {previous : Option Digest} {target : TagTarget}
  {now : Timestamp} {k : Key} {v v' : Option Value}

theorem setTagOps_manifestTagHistory (r : RepoId) (d : Digest) (at_ : Timestamp) (t : Tag) :
    WriteBatch.effect (setTagOps repo tag previous target now) (.manifestTagHistory r d at_ t) =
      if repo = r ∧ tag = t ∧ now = at_ ∧ target.digest = d then
        some (some (.event
          { event := .created, mediaType := target.mediaType, size := target.size }))
      else none := by
  rw [← setTagOps_mirrored, setTagOps_tagHistory]

/-- Tags put at one digest and instant leave the same value at each key they
share: what one writes of that digest no other changes. -/
theorem setTagOps_agree
    (h : WriteBatch.effect (setTagOps repo tag (some target.digest) target now) k = some v)
    (h' : WriteBatch.effect (setTagOps repo tag' previous target now) k = some v') : v' = v := by
  cases k with
  | tag r t =>
    rw [setTagOps_tag] at h h'
    split at h <;> split at h' <;> simp_all
  | manifestTag r d t =>
    rw [setTagOps_manifestTag] at h h'
    by_cases hd : target.digest = d
    · simp only [if_pos hd] at h h'
      split at h <;> split at h' <;> simp_all
    · have other : some target.digest ≠ some d := fun he => hd (Option.some.inj he)
      simp only [if_neg hd, if_neg other, ite_self] at h
      cases h
  | referrer r subject d =>
    rw [setTagOps_referrer] at h h'
    by_cases hd : target.digest = d
    · simp only [if_pos hd] at h h'
      split at h <;> split at h' <;> simp_all
    · have other : some target.digest ≠ some d := fun he => hd (Option.some.inj he)
      simp only [if_neg hd, if_neg other, ite_self] at h
      cases h
  | tagHistory r t at_ d =>
    rw [setTagOps_tagHistory] at h h'
    split at h <;> split at h' <;> simp_all
  | manifestTagHistory r d at_ t =>
    rw [setTagOps_manifestTagHistory] at h h'
    split at h <;> split at h' <;> simp_all
  | _ =>
    rw [setTagOps_other rfl] at h
    cases h

/-- A tag that points at the digest already is written as one that does not,
less the retraction. -/
theorem setTagOps_again
    (h : WriteBatch.effect (setTagOps repo tag (some target.digest) target now) k = some v) :
    WriteBatch.effect (setTagOps repo tag previous target now) k = some v := by
  cases h' : WriteBatch.effect (setTagOps repo tag previous target now) k with
  | some v' => rw [setTagOps_agree h h']
  | none =>
    have written : setTagOps repo tag previous target now =
        retractOps repo tag previous target.digest ++
          setTagOps repo tag (some target.digest) target now := by
      simp [setTagOps, retractOps]
    rw [written, WriteBatch.effect_append, h] at h'
    cases h'

variable (target) in
/-- Only an artifact tag's writes name the referrer record. -/
theorem setTagOps_referrerOf (plain : subjectOfArtifactTag tag.text = none)
    (referrer : ReferrerRecord) :
    setTagOps repo tag previous { target with referrer } now =
      setTagOps repo tag previous target now := by
  simp [setTagOps, forSubject, plain]

end SetTag

namespace Store

/-- What a batch would write is there. -/
def Holds (s : Store) (b : WriteBatch) : Prop :=
  ∀ k v, b.effect k = some v → s.get k = v

theorem apply_of_holds {s : Store} {b : WriteBatch} (held : s.Holds b) : s.apply b = s := by
  apply ext_get
  intro k
  rw [get_apply]
  cases h : b.effect k with
  | none => rfl
  | some v => exact (held k v h).symm

section Tags
variable {s : Store} {repo : RepoId} {tag tag' : Tag} {target : TagTarget} {now : Timestamp}

variable (target) in
/-- A tag that was set is held. -/
theorem holds_setTag (previous : Option Digest) :
    (s.apply (setTagOps repo tag previous target now)).Holds
      (setTagOps repo tag (some target.digest) target now) := by
  intro k v h
  rw [get_apply, setTagOps_again h]
  rfl

variable (target) in
/-- And stays held while more tags are set at the same digest and instant. -/
theorem holds_kept (held : s.Holds (setTagOps repo tag (some target.digest) target now))
    (previous : Option Digest) :
    (s.apply (setTagOps repo tag' previous target now)).Holds
      (setTagOps repo tag (some target.digest) target now) := by
  intro k v h
  rw [get_apply]
  cases h' : WriteBatch.effect (setTagOps repo tag' previous target now) k with
  | none => exact held k v h
  | some v' => exact setTagOps_agree h h'

variable (target) in
theorem tagDigest_of_holds (held : s.Holds (setTagOps repo tag (some target.digest) target now)) :
    s.tagDigest repo tag = some target.digest := by
  rw [tagDigest_eq, held (.tag repo tag) _ (by rw [setTagOps_tag, if_pos ⟨rfl, rfl⟩])]
  rfl

end Tags

/-! ## The target of a tag, from the parsed body and from the stored record -/

/-- The manifest of a push is stored. -/
structure HoldsManifest (s : Store) (repo : RepoId) (c : CheckedPut) : Prop where
  record : s.manifestRecord repo c.digest = some (c.record repo)
  body : s.manifestBody repo c.digest = some c.put.body

section Target
variable {s : Store} {oci : Oci} {repo : RepoId} {c : CheckedPut} {tag : Tag} {now : Timestamp}

theorem holdsManifest_push (ts : List Tag) :
    (s.apply (s.pushBatch repo c ts)).HoldsManifest repo c where
  record := by rw [push_manifestRecord, if_pos ⟨rfl, rfl⟩]
  body := by
    unfold manifestBody
    rw [get_apply, pushBatch_manifestBody, if_pos ⟨rfl, rfl⟩]
    rfl

theorem HoldsManifest.setTag (held : s.HoldsManifest repo c) {previous : Option Digest}
    {target : TagTarget} :
    (s.apply (setTagOps repo tag previous target now)).HoldsManifest repo c where
  record := by
    rw [manifestRecord_congr (get_apply_of_effect (setTagOps_other rfl))]
    exact held.record
  body := by
    have kept : (s.apply (setTagOps repo tag previous target now)).get
        (.manifestBody repo c.digest) = s.get (.manifestBody repo c.digest) :=
      get_apply_of_effect (setTagOps_other rfl)
    unfold manifestBody
    rw [kept]
    exact held.body

variable (tag now) in
/-- The stored record gives each tag the writes the parsed body gives it. -/
theorem tagTarget_pushed (held : s.HoldsManifest repo c) {contentType : Option Text}
    (parsed : Manifest.parse oci c.put.body contentType = .ok c.parsed) :
    ∃ target, s.tagTarget oci repo c.digest tag (c.record repo) = .ok target ∧
      ∀ previous, setTagOps repo tag previous target now =
        setTagOps repo tag previous c.target now := by
  cases subject : subjectOfArtifactTag tag.text with
  | none =>
    have artifactType : s.tagArtifactType oci repo c.digest tag (c.record repo) =
        .ok c.parsed.artifactType := by
      unfold tagArtifactType
      rw [subject]
      rfl
    refine ⟨_, by rw [tagTarget, artifactType]; rfl, ?_⟩
    intro previous
    exact setTagOps_referrerOf c.target subject _
  | some d =>
    have artifactType : s.tagArtifactType oci repo c.digest tag (c.record repo) =
        .ok c.parsed.referrerArtifactType := by
      have again : Manifest.parse oci c.put.body (some (c.record repo).mediaType) = .ok c.parsed :=
        Manifest.parse_again parsed
      unfold tagArtifactType
      rw [subject, held.body]
      dsimp only
      rw [again]
      rfl
    exact ⟨c.target, by rw [tagTarget, artifactType]; rfl, fun _ => rfl⟩

theorem planSetTag_pushed (held : s.HoldsManifest repo c) {contentType : Option Text}
    (parsed : Manifest.parse oci c.put.body contentType = .ok c.parsed) (name : Text) :
    s.planSetTag oci name repo tag c.digest now = .ok {
      outcome := { displaced := s.tagDigest repo tag }
      batch := setTagOps repo tag (s.tagDigest repo tag) c.target now } := by
  obtain ⟨target, found, writes⟩ := tagTarget_pushed tag now held parsed
  have valid : validateTag tag.text = .ok tag := validateTag_eq_ok.mpr rfl
  simp only [planSetTag, held.record, found, stageSetTag, valid, writes, bind, Except.bind, pure,
    Except.pure]

end Target

end Store

/-! ## The tags of a push, in one batch and in turn -/

namespace Registry

section Run
variable {r : Registry} {oci : Oci} {name : Text} {repo : RepoId} {c : CheckedPut} {now : Timestamp}
  {contentType : Option Text}

variable (now) in
/-- A tag set after the push: its writes, from what it points at by then. -/
theorem setTag_pushed (cached : r.interner.byName.peek name = some repo)
    (held : r.store.HoldsManifest repo c)
    (parsed : Manifest.parse oci c.put.body contentType = .ok c.parsed) (tag : Tag) :
    ∃ set r', r.setTag oci name tag.text c.digest now = (.ok set, r') ∧
      r'.interner.byName.peek name = some repo ∧
      r'.store =
        r.store.apply (setTagOps repo tag (r.store.tagDigest repo tag) c.target now) := by
  have valid : validateTag tag.text = .ok tag := validateTag_eq_ok.mpr rfl
  obtain ⟨found, again⟩ := RepoInterner.lookup_of_cached (s := r.store) cached
  have looked : r.lookupRepo name =
      (some repo, { r with interner := (r.interner.lookup r.store name).2 }) := by
    unfold lookupRepo
    rw [← found]
  have required : r.requireRepo name =
      (.ok repo, { r with interner := (r.interner.lookup r.store name).2 }) := by
    unfold requireRepo
    rw [looked]
  have planned : r.planSetTag oci name tag.text c.digest now =
      (r.store.planSetTag oci name repo tag c.digest now,
        { r with interner := (r.interner.lookup r.store name).2 }) := by
    unfold planSetTag planIn
    rw [valid]
    dsimp only
    rw [required]
  unfold setTag
  rw [planned, Store.planSetTag_pushed held parsed]
  exact ⟨_, _, rfl, again, rfl⟩

/-- The tags a push stages from the store it was planned on are the ones set in
turn: those set before hold what they would write again, and the others point
where they did. -/
theorem setTags_staged (r : Registry) (s : Store) (now : Timestamp) (applied : List Text)
    (parsed : Manifest.parse oci c.put.body contentType = .ok c.parsed) (tags : List Tag)
    (cached : r.interner.byName.peek name = some repo)
    (held : r.store.HoldsManifest repo c)
    (fresh : ∀ t : Tag, t.text ∉ applied → r.store.tagDigest repo t = s.tagDigest repo t)
    (set : ∀ t : Tag, t.text ∈ applied →
      r.store.Holds (setTagOps repo t (some c.digest) c.target now)) :
    ∃ staged r', s.stageTags repo c.target now applied (tags.map Tag.text) = .ok staged ∧
      r.setTags oci name c.digest now (tags.map Tag.text) = (.ok (), r') ∧
      r'.store = r.store.apply (staged.map Prod.fst).flatten := by
  induction tags generalizing applied r with
  | nil => exact ⟨[], r, rfl, rfl, rfl⟩
  | cons tag tags ih =>
    obtain ⟨answer, r₁, done, cached₁, store₁⟩ := setTag_pushed now cached held parsed tag
    have held₁ : r₁.store.HoldsManifest repo c := by
      rw [store₁]
      exact held.setTag
    have next : r.setTags oci name c.digest now ((tag :: tags).map Tag.text) =
        r₁.setTags oci name c.digest now (tags.map Tag.text) := by
      rw [List.map_cons, setTags, done]
    have stage : s.stageTags repo c.target now applied ((tag :: tags).map Tag.text) =
        if tag.text ∈ applied then s.stageTags repo c.target now applied (tags.map Tag.text)
        else do
          let first ← s.stageSetTag repo tag.text c.target now
          let rest ← s.stageTags repo c.target now (applied ++ [tag.text]) (tags.map Tag.text)
          return first :: rest := by
      rw [List.map_cons, Store.stageTags]
    rw [next, stage]
    by_cases repeated : tag.text ∈ applied
    · -- Set before: the second write of the tag changes nothing.
      have same : r₁.store = r.store := by
        rw [store₁, Store.tagDigest_of_holds c.target (set tag repeated)]
        exact Store.apply_of_holds (set tag repeated)
      rw [if_pos repeated, ← same]
      apply ih r₁ applied cached₁ held₁
      · rw [same]
        exact fresh
      · rw [same]
        exact set
    · have valid : validateTag tag.text = .ok tag := validateTag_eq_ok.mpr rfl
      have first : s.stageSetTag repo tag.text c.target now =
          .ok (setTagOps repo tag (s.tagDigest repo tag) c.target now, s.tagDigest repo tag) := by
        unfold Store.stageSetTag
        rw [valid]
        rfl
      rw [fresh tag repeated] at store₁
      have fresh₁ (t : Tag) (new : t.text ∉ applied ++ [tag.text]) :
          r₁.store.tagDigest repo t = s.tagDigest repo t := by
        rw [List.mem_append, List.mem_singleton, not_or] at new
        rw [store₁, Store.setTag_tagDigest, if_neg fun h => new.2 (congrArg Tag.text h.2.symm)]
        exact fresh t new.1
      have set₁ (t : Tag) (old : t.text ∈ applied ++ [tag.text]) :
          r₁.store.Holds (setTagOps repo t (some c.digest) c.target now) := by
        rw [List.mem_append, List.mem_singleton] at old
        rw [store₁]
        cases old with
        | inl before => exact Store.holds_kept c.target (set t before) _
        | inr same =>
          obtain rfl : t = tag := Tag.ext same
          exact Store.holds_setTag c.target _
      obtain ⟨rest, r', staged, finished, store'⟩ :=
        ih r₁ (applied ++ [tag.text]) cached₁ held₁ fresh₁ set₁
      refine ⟨(setTagOps repo tag (s.tagDigest repo tag) c.target now,
        s.tagDigest repo tag) :: rest, r', ?_, finished, ?_⟩
      · rw [if_neg repeated, first, staged]
        rfl
      · rw [store', store₁, List.map_cons, List.flatten_cons, Store.apply_append]

end Run

end Registry

/-! ## The push itself -/

theorem Store.stageTags_valid (s : Store) (repo : RepoId) (target : TagTarget) (now : Timestamp)
    (tags : List Tag) (applied : List Text) :
    ∃ staged, s.stageTags repo target now applied (tags.map Tag.text) = .ok staged := by
  induction tags generalizing applied with
  | nil => exact ⟨[], rfl⟩
  | cons tag tags ih =>
    rw [List.map_cons, stageTags]
    split
    · exact ih applied
    · have valid : validateTag tag.text = .ok tag := validateTag_eq_ok.mpr rfl
      obtain ⟨rest, staged⟩ := ih (applied ++ [tag.text])
      rw [stageSetTag, valid, staged]
      exact ⟨_, rfl⟩

/-- The checks do not depend on which of the two references a push names: a tag,
or the body's own sha256 digest. -/
theorem checkPut_references (oci : Oci) (options : RegistryOptions) (put : ManifestPut)
    (tag : Tag) :
    (∃ e, checkPut oci options { put with reference := .tag tag } = .error e ∧
      checkPut oci options { put with reference := .digest (.sha256 (oci.sha256 put.body)) } =
        .error e) ∨
    ∃ parsed, Manifest.parse oci put.body put.contentType = .ok parsed ∧
      checkPut oci options { put with reference := .tag tag } = .ok {
        put := { put with reference := .tag tag }
        digest := .sha256 (oci.sha256 put.body)
        parsed } ∧
      checkPut oci options { put with reference := .digest (.sha256 (oci.sha256 put.body)) } = .ok {
        put := { put with reference := .digest (.sha256 (oci.sha256 put.body)) }
        digest := .sha256 (oci.sha256 put.body)
        parsed } := by
  unfold checkPut
  by_cases long : options.maxManifestBytes < put.body.length
  · exact Or.inl ⟨_, by rw [if_pos long]; rfl, by rw [if_pos long]; rfl⟩
  · cases parsed : Manifest.parse oci put.body put.contentType with
    | error e =>
      refine Or.inl ⟨e, ?_, ?_⟩ <;>
        simp [long, Reference.asDigest, digestBody, bind, Except.bind]
    | ok p =>
      refine Or.inr ⟨p, rfl, ?_, ?_⟩ <;>
        simp [long, Reference.asDigest, digestBody, bind, Except.bind, pure, Except.pure]

/-- `plain` is the push `c` with no tag in its reference. -/
structure CheckedPut.Untags (plain c : CheckedPut) : Prop where
  digest : plain.digest = c.digest
  parsed : plain.parsed = c.parsed
  put : plain.put = { c.put with reference := plain.put.reference }
  untagged : plain.put.reference.asTag = none

section Plans
variable {options : RegistryOptions} {repo : RepoId} {c plain : CheckedPut} {extraTags : List Text}

/-- A push whose tags stage is the push without tags and then their writes. -/
theorem Store.planPush_staged {s : Store} {staged : List (WriteBatch × Option Digest)}
    (untags : plain.Untags c)
    (stages : s.stageTags repo c.target c.put.now [] (c.tags extraTags) = .ok staged) :
    (s.planPush options repo c extraTags).map Planned.batch =
      (s.planPush options repo plain []).map fun p =>
        p.batch ++ (staged.map Prod.fst).flatten := by
  have name : plain.put.repo = c.put.repo := by rw [untags.put]
  have now : plain.put.now = c.put.now := by rw [untags.put]
  have body : plain.put.body = c.put.body := by rw [untags.put]
  have none_ : plain.tags [] = [] := by
    unfold CheckedPut.tags
    rw [untags.untagged]
    rfl
  have record : recordOps repo plain = recordOps repo c := by
    simp only [recordOps, CheckedPut.record, CheckedPut.target, untags.digest, untags.parsed, now,
      body]
  unfold planPush
  rw [none_, stages, untags.parsed, untags.digest, name, now, record]
  cases c.parsed.blobs.mapM (s.stageBlob options c.put.repo repo c.digest c.put.now) with
  | error e => rfl
  | ok blobs =>
  cases c.parsed.children.mapM (s.stageChild options c.put.repo repo c.digest) with
  | error e => rfl
  | ok children => simp [stageTags, Except.map, bind, Except.bind, pure, Except.pure]

/-- From one id on, the tagged push and the plain one with its tags set in turn
answer alike and leave one store. -/
theorem Registry.commit_tags (r : Registry) (oci : Oci) (plain : CheckedPut) (tags : List Tag)
    (untags : plain.Untags c)
    (cached : r.interner.byName.peek plain.put.repo = some repo)
    (parsed : Manifest.parse oci plain.put.body plain.put.contentType = .ok plain.parsed)
    (listed : c.tags extraTags = tags.map Tag.text) :
    let pushed := commit (r.store.planPush options repo c extraTags, r)
    let inTurn := match commit (r.store.planPush options repo plain [], r) with
      | (.ok _, r) =>
        r.setTags oci plain.put.repo plain.digest plain.put.now (tags.map Tag.text)
      | (.error e, r) => (.error e, r)
    pushed.1.map (fun _ => ()) = inTurn.1 ∧ pushed.2.store = inTurn.2.store := by
  intro pushed inTurn
  have now : plain.put.now = c.put.now := by rw [untags.put]
  have target : plain.target = c.target := by
    have body : plain.put.body = c.put.body := by rw [untags.put]
    simp only [CheckedPut.target, untags.digest, untags.parsed, body]
  obtain ⟨staged, stages⟩ := Store.stageTags_valid r.store repo c.target c.put.now tags []
  rw [← listed] at stages
  have batches : (r.store.planPush options repo c extraTags).map Planned.batch =
      (r.store.planPush options repo plain []).map fun p =>
        p.batch ++ (staged.map Prod.fst).flatten := Store.planPush_staged untags stages
  cases first : r.store.planPush options repo plain [] with
  | error e =>
    rw [first] at batches
    cases planned : r.store.planPush options repo c extraTags with
    | ok p =>
      rw [planned] at batches
      cases batches
    | error e' =>
      rw [planned] at batches
      simp only [pushed, inTurn, planned, first, commit_error]
      exact ⟨congrArg _ (Except.error.inj batches), trivial⟩
  | ok p =>
    rw [first] at batches
    cases planned : r.store.planPush options repo c extraTags with
    | error e =>
      rw [planned] at batches
      cases batches
    | ok q =>
      rw [planned] at batches
      have batch : q.batch = p.batch ++ (staged.map Prod.fst).flatten := Except.ok.inj batches
      obtain ⟨-, ts, applied, writes⟩ := Store.planPush_ok first
      obtain rfl : ts = [] := by
        apply List.eq_nil_iff_forall_not_mem.mpr
        intro t ht
        have listed := (applied t).mp ht
        rw [CheckedPut.tags, untags.untagged] at listed
        cases listed
      have held : (r.store.apply p.batch).HoldsManifest repo plain := by
        rw [writes]
        exact Store.holdsManifest_push []
      have fresh (t : Tag) (_ : t.text ∉ ([] : List Text)) :
          (r.store.apply p.batch).tagDigest repo t = r.store.tagDigest repo t := by
        rw [writes, Store.push_tagDigest, if_neg fun h => List.not_mem_nil h.2]
      obtain ⟨staged', r', again, done, store⟩ := Registry.setTags_staged
        { r with store := r.store.apply p.batch } r.store plain.put.now [] parsed tags cached held
        fresh (fun t old => absurd old List.not_mem_nil)
      obtain rfl : staged = staged' := by
        rw [target, now, ← listed, stages] at again
        exact Except.ok.inj again
      have stepped : inTurn = (.ok (), r') := by
        simp only [inTurn, first]
        exact done
      rw [stepped]
      simp only [pushed, planned]
      refine ⟨rfl, ?_⟩
      rw [commit_ok_store, batch, Store.apply_append, store]

end Plans

theorem Registry.putManifest_checked (r : Registry) (oci : Oci) (put : ManifestPut)
    (tags : List Text) :
    r.putManifest oci put tags =
      match checkPut oci r.options put with
      | .error e => (.error e, r)
      | .ok c =>
        commit (r.planInterned put.repo fun s repo => s.planPush r.options repo c tags) := by
  unfold putManifest planManifestPutTagged
  cases checkPut oci r.options put with
  | error e => rfl
  | ok c => rfl

/-- A push by tag answers as the push of the same body by its sha256 digest and
`set_tag` for each of the tags in their order, and leaves the same store. -/
theorem putManifest_tags (oci : Oci) (r : Registry) (put : ManifestPut) (tag : Tag)
    (extraTags : List Tag) :
    let pushed := r.putManifest oci { put with reference := .tag tag } (extraTags.map Tag.text)
    let inTurn := r.putThenTag oci put (tag.text :: extraTags.map Tag.text)
    pushed.1.map (fun _ => ()) = inTurn.1 ∧ pushed.2.store = inTurn.2.store := by
  intro pushed inTurn
  simp only [pushed, inTurn, Registry.putThenTag, Registry.putManifest_checked]
  rcases checkPut_references oci r.options put tag with
    ⟨e, byTag, byDigest⟩ | ⟨parsed, parses, byTag, byDigest⟩
  · rw [byTag, byDigest]
    exact ⟨rfl, rfl⟩
  rw [byTag, byDigest]
  unfold Registry.planInterned
  cases interned : r.internRepo put.repo with
  | mk id r₁ =>
  cases id with
  | error e => exact ⟨rfl, rfl⟩
  | ok repo =>
  let plain : CheckedPut := {
    put := { put with reference := .digest (.sha256 (oci.sha256 put.body)) }
    digest := .sha256 (oci.sha256 put.body)
    parsed }
  exact r₁.commit_tags oci plain (tag :: extraTags)
    { digest := rfl, parsed := rfl, put := rfl, untagged := rfl }
    (Registry.internRepo_caches interned) parses rfl

end Summ
