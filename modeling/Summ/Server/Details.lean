import Summ.Lib.Thread
import Summ.Serial.Walks

/-!
# Listings with what each row tells

`tag_details` and `manifest_details` read a page of a listing and then, row by row,
what is known of each. Requests of others may be served before every one of these
reads, so a tag may be gone by its row's turn: the row is dropped, and the next page
is asked for from the last row that is left. A page that lost all its rows though
there was more is the last the client asks for.
-/

namespace Summ

/-- How many tags one manifest row reports. -/
def TAGS_PER_MANIFEST : Nat := 8

namespace Registry

variable (r : Registry)

def getTag (name tag : Text) : Except RegistryError (Option TagRecord) × Registry :=
  r.readIn name fun s repo => .ok (s.tagRecordOf repo tag)

def getManifestRecord (name : Text) (digest : Digest) :
    Except RegistryError (Option ManifestRecord) × Registry :=
  r.readIn name fun s repo => .ok (s.manifestRecord repo digest)

end Registry

/-! ## What the rows hold -/

namespace Seam

/-- One page of an ordered scan. -/
structure Page (α : Type) where
  items : List α
  more : Bool
  deriving DecidableEq

/-- The cursor a handler gives the client: the last row, where there is more. -/
def Page.next {α γ : Type} (cursor : α → γ) (page : Page α) : Option γ :=
  if page.more then page.items.getLast?.map cursor else none

structure ManifestInfo where
  digest : Digest
  mediaType : Text
  size : Nat
  blobSize : Nat
  artifactType : Option Text
  subject : Option Digest
  pushedAt : Nat
  platforms : List Text
  blobs : Nat
  children : Nat
  tags : List Text
  annotations : Annotations
  deriving DecidableEq

structure TagInfo where
  name : Text
  digest : Digest
  taggedAt : Nat
  manifest : Option ManifestInfo
  deriving DecidableEq

end Seam

def platformLabel (platform : Platform) : Text :=
  match platform.variant with
  | some variant => platform.os ++ '/' :: platform.arch ++ '/' :: variant
  | none => platform.os ++ '/' :: platform.arch

/-- A manifest's own platform and then its children's, each once. -/
def platformsOf (record : ManifestRecord) : List Text :=
  record.children.foldl (fun platforms child =>
    match child.platform.map platformLabel with
    | some label => if label ∈ platforms then platforms else platforms ++ [label]
    | none => platforms) (record.platform.map platformLabel).toList

/-! ## The reads, one at a time -/

/-- Work on the registry, between whose reads others are served. -/
abbrev Ops (α : Type) := ExceptT RegistryError (Thread System) α

namespace Ops

/-- One read of the registry. -/
def read {α : Type} (f : Registry → Except RegistryError α × Registry) : Ops α :=
  ExceptT.mk (Thread.atomic fun sys =>
    ((f sys.registry).1, { sys with registry := (f sys.registry).2 }))

def manifestInfo (name : Text) (record : ManifestRecord) : Ops Seam.ManifestInfo := do
  let list ← read fun r => r.tagsOfManifest name record.digest none TAGS_PER_MANIFEST
  return {
    digest := record.digest
    mediaType := record.mediaType
    size := record.size
    blobSize := record.totalLayerSize
    artifactType := record.artifactType
    subject := record.subject
    pushedAt := record.pushedAt
    platforms := platformsOf record
    blobs := record.layers.length
    children := record.children.length
    tags := list.tags
    annotations := record.annotations }

/-- What a tag's row tells of its manifest. -/
def tagManifest (name : Text) (digest : Digest) : Ops (Option Seam.ManifestInfo) := do
  match ← read fun r => r.getManifestRecord name digest with
  | some record => return some (← manifestInfo name record)
  | none => return none

/-- The rows of a page of tags. A tag that is gone by its turn has none. -/
def tagInfos (name : Text) : List Text → Ops (List Seam.TagInfo)
  | [] => return []
  | tag :: tags => do
    match ← read fun r => r.getTag name tag with
    | none => tagInfos name tags
    | some record =>
      let manifest ← tagManifest name record.digest
      let items ← tagInfos name tags
      return { name := tag, digest := record.digest, taggedAt := record.taggedAt, manifest } :: items

def tagDetails (name : Text) (last : Option Text) (limit : Nat) : Ops (Seam.Page Seam.TagInfo) := do
  let page ← read fun r => r.listTags name last limit
  let items ← tagInfos name page.tags
  return { items, more := page.next.isSome }

def manifestInfos (name : Text) : List ManifestRecord → Ops (List Seam.ManifestInfo)
  | [] => return []
  | record :: records => do
    let item ← manifestInfo name record
    let items ← manifestInfos name records
    return item :: items

def manifestDetails (name : Text) (last : Option Digest) (limit : Nat) :
    Ops (Seam.Page Seam.ManifestInfo) := do
  let page ← read fun r => r.listManifests name last limit
  let items ← manifestInfos name page.manifests
  return { items, more := page.next.isSome }

/-- The pages a client is served, each asked for from the cursor of the one before,
and the systems each was read in. -/
inductive Walk {α γ : Type} (others : System → System → Prop) (page : Option γ → Ops (Seam.Page α))
    (cursor : α → γ) : System → Option γ → List (List System) → List (Seam.Page α) → Prop
  | last {sys after : System} {c : Option γ} {seen : List System} {p : Seam.Page α}
      (served : Thread.Runs others (page c).run sys seen (.ok p) after)
      (ends : p.next cursor = none) : Walk others page cursor sys c [seen] [p]
  | more {sys after : System} {c : Option γ} {seen : List System} {p : Seam.Page α} {n : γ}
      {later : List (List System)} {pages : List (Seam.Page α)}
      (served : Thread.Runs others (page c).run sys seen (.ok p) after)
      (next : p.next cursor = some n) (rest : Walk others page cursor after (some n) later pages) :
      Walk others page cursor sys c (seen :: later) (p :: pages)

end Ops

/-! ## What a read answers, and what it keeps -/

/-- A system whose store some catalog is read from. -/
def System.Sound (oci : Oci) (options : RegistryOptions) (sys : System) : Prop :=
  ∃ cat, System.Refines oci options sys cat

namespace Ops

section
variable {oci : Oci} {options : RegistryOptions} {sys after : System} {seen : List System}
  {α : Type} {name : Text} {read_ : Store → RepoId → Except RegistryError α}

theorem sound_between (sys after : System) (sound : sys.Sound oci options)
    (others : sys.Between oci after) : after.Sound oci options := by
  obtain ⟨cat, refines⟩ := sound
  exact Listed.refines_between others refines

theorem keeps_readIn : (read fun r => r.readIn name read_).run.Keeps (System.Sound oci options) := by
  refine Thread.keeps_atomic fun sys sound => ?_
  obtain ⟨cat, refines⟩ := sound
  exact ⟨cat, refines.reads⟩

/-- A read that succeeds was read where the name is known. -/
theorem runs_readIn (sound : sys.Sound oci options) {a : α}
    (run : Thread.Runs (System.Between oci) (read fun r => r.readIn name read_).run sys seen (.ok a)
      after) : ∃ at_ id, seen = [at_] ∧ at_.Sound oci options ∧ at_.store.repoByName name = some id ∧
        read_ at_.store id = .ok a ∧ after.Sound oci options := by
  obtain ⟨last, all⟩ := run.keeps sound_between sound keeps_readIn
  obtain ⟨at_, -, rfl, answered, -⟩ := Thread.runs_atomic run
  obtain ⟨cat, refines⟩ := all at_ (List.mem_singleton.mpr rfl)
  have names : at_.store.repoByName name = at_.registry.store.repoByName name := rfl
  rw [Registry.readIn_fst refines.coherent.cached] at answered
  cases live : at_.registry.store.repoByName name with
  | none =>
    rw [live] at answered
    cases answered
  | some id =>
    rw [live] at answered
    exact ⟨at_, id, rfl, ⟨cat, refines⟩, names.trans live, answered.symm, last⟩

end

/-- What a row tells of a tag was so in a system it was read in. -/
def Tells (name : Text) (at_ : System) (item : Seam.TagInfo) : Prop :=
  ∃ id t, at_.store.repoByName name = some id ∧ t.text = item.name ∧
    at_.store.tagDigest id t = some item.digest

section Rows
variable {oci : Oci} {options : RegistryOptions} {sys after : System} {seen : List System}
  {name : Text}

theorem runs_manifestInfo (sound : sys.Sound oci options) {record : ManifestRecord}
    {info : Seam.ManifestInfo}
    (run : Thread.Runs (System.Between oci) (manifestInfo name record).run sys seen (.ok info) after) :
    info.digest = record.digest ∧ after.Sound oci options := by
  obtain ⟨first, list, mid, rest, read, last, rfl⟩ := Thread.runs_bind_ok run
  obtain ⟨-, -, -, -, -, -, sound₁⟩ := runs_readIn sound read
  obtain ⟨rfl, rfl, -⟩ := Thread.runs_pure_ok last
  exact ⟨rfl, sound₁⟩

theorem runs_tagManifest (sound : sys.Sound oci options) {digest : Digest}
    {manifest : Option Seam.ManifestInfo}
    (run : Thread.Runs (System.Between oci) (tagManifest name digest).run sys seen (.ok manifest)
      after) : (∀ info ∈ manifest, info.digest = digest) ∧ after.Sound oci options := by
  obtain ⟨first, record, mid, rest, read, last, rfl⟩ := Thread.runs_bind_ok run
  obtain ⟨at_, id, -, atSound, -, answered, sound₁⟩ := runs_readIn sound read
  cases record with
  | none =>
    obtain ⟨rfl, rfl, -⟩ := Thread.runs_pure_ok last
    exact ⟨fun info h => (by cases h), sound₁⟩
  | some record =>
    obtain ⟨seen', info, mid', rest', described, end_, rfl⟩ := Thread.runs_bind_ok last
    obtain ⟨same, sound₂⟩ := runs_manifestInfo sound₁ described
    obtain ⟨rfl, rfl, -⟩ := Thread.runs_pure_ok end_
    obtain ⟨cat, refines⟩ := atSound
    obtain ⟨c, -, filed, rfl, -⟩ := refines.recorded id digest record (Except.ok.inj answered)
    refine ⟨fun info' h => ?_, sound₂⟩
    cases h
    exact same.trans filed

/-- The rows of a page of tags: every tag that stays has one. -/
theorem runs_tagInfos (sound : sys.Sound oci options) {tags : List Tag} {items : List Seam.TagInfo}
    (run : Thread.Runs (System.Between oci) (tagInfos name (tags.map Tag.text)).run sys seen
      (.ok items) after) : after.Sound oci options ∧ ∃ kept : List Tag, kept.Sublist tags ∧
      items.map (·.name) = kept.map Tag.text ∧
      (∀ t ∈ tags, (∀ at_ ∈ seen, (Listed.tags name).stored at_.store t) → t ∈ kept) ∧
      ∀ item ∈ items, (∃ at_ ∈ seen, Tells name at_ item) ∧
        ∀ info ∈ item.manifest, info.digest = item.digest := by
  induction tags generalizing sys after seen items with
  | nil =>
    obtain ⟨rfl, rfl, rfl⟩ := Thread.runs_pure_ok run
    exact ⟨sound, [], .refl _, rfl, fun t ht => (by cases ht), fun item h => (by cases h)⟩
  | cons tag tags ih =>
    obtain ⟨first, record, mid, rest, read, last, rfl⟩ := Thread.runs_bind_ok run
    obtain ⟨at_, id, rfl, -, live, answered, sound₁⟩ := runs_readIn sound read
    have valid : validateTag tag.text = .ok tag := validateTag_eq_ok.mpr rfl
    have found : at_.store.tagRecord id tag = record := by
      rw [Store.tagRecordOf, valid] at answered
      exact Except.ok.inj answered
    cases record with
    | none =>
      obtain ⟨sound₂, kept, within, named, stays, told⟩ := ih sound₁ last
      refine ⟨sound₂, kept, within.cons _, named, fun t ht always => ?_, fun item h => ?_⟩
      · cases List.mem_cons.mp ht with
        | inl same =>
          have there := (Listed.stored_iff live).mp (always at_ List.mem_cons_self)
          rw [same, Store.tagDigest, found] at there
          cases there
        | inr later => exact stays t later fun at_ h => always at_ (List.mem_cons_of_mem _ h)
      · obtain ⟨⟨at_', read', tells⟩, info⟩ := told item h
        exact ⟨⟨at_', List.mem_cons_of_mem _ read', tells⟩, info⟩
    | some record =>
      obtain ⟨first, manifest, mid', rest', described, others, rfl⟩ := Thread.runs_bind_ok last
      obtain ⟨info, sound₂⟩ := runs_tagManifest sound₁ described
      obtain ⟨seen', items', mid'', rest'', rows, end_, rfl⟩ := Thread.runs_bind_ok others
      obtain ⟨sound₃, kept, within, named, stays, told⟩ := ih sound₂ rows
      obtain ⟨rfl, rfl, rfl⟩ := Thread.runs_pure_ok end_
      have later {at_' : System} (h : at_' ∈ seen') : at_' ∈ [at_] ++ (first ++ (seen' ++ [])) := by
        simp [h]
      refine ⟨sound₃, tag :: kept, within.cons_cons _, by rw [List.map_cons, named]; rfl,
        fun t ht always => ?_, fun item h => ?_⟩
      · cases List.mem_cons.mp ht with
        | inl same => exact same ▸ List.mem_cons_self
        | inr there =>
          exact List.mem_cons_of_mem _ (stays t there fun at_ h => always at_ (later h))
      · cases List.mem_cons.mp h with
        | inl same =>
          subst same
          refine ⟨⟨at_, List.mem_cons_self, id, tag, live, rfl, ?_⟩, info⟩
          rw [Store.tagDigest, found]
          rfl
        | inr there =>
          obtain ⟨⟨at_', read', tells⟩, info⟩ := told item there
          exact ⟨⟨at_', later read', tells⟩, info⟩

/-- A page of tags with their details, from whose cursor a walk may go on. Where it
is the last though there was more, nothing is said of what stays. -/
theorem runs_tagDetails (sound : sys.Sound oci options) {limit : Nat} (pos : 0 < limit)
    {c : Option Text} {page : Seam.Page Seam.TagInfo}
    (run : Thread.Runs (System.Between oci) (tagDetails name c limit).run sys seen (.ok page) after) :
    after.Sound oci options ∧ ∃ kept : List Tag, page.items.map (·.name) = kept.map Tag.text ∧
      Listing.Steady Tag.Before Tag.beyond Tag.text
        (fun t => (page.next (·.name) = none → page.more = false) ∧
          ∀ at_ ∈ seen, (Listed.tags name).stored at_.store t) c kept (page.next (·.name)) ∧
      ∀ item ∈ page.items, (∃ at_ ∈ seen, Tells name at_ item) ∧
        ∀ info ∈ item.manifest, info.digest = item.digest := by
  obtain ⟨first, list, mid, rest, read, last, rfl⟩ := Thread.runs_bind_ok run
  obtain ⟨at_, id, rfl, -, live, answered, sound₁⟩ := runs_readIn sound read
  cases Except.ok.inj answered
  obtain ⟨seen', items, mid', rest', rows, end_, rfl⟩ := Thread.runs_bind_ok last
  obtain ⟨tags, listed, serves⟩ := at_.store.tagPage_serves id pos c
  rw [listed] at rows
  obtain ⟨sound₂, kept, within, named, stays, told⟩ := runs_tagInfos sound₁ rows
  obtain ⟨rfl, rfl, rfl⟩ := Thread.runs_pure_ok end_
  have later {at_' : System} (h : at_' ∈ seen') : at_' ∈ [at_] ++ (seen' ++ []) := by simp [h]
  have next : Seam.Page.next (·.name)
      { items, more := (at_.store.tagPage id c limit).next.isSome : Seam.Page Seam.TagInfo } =
      if (at_.store.tagPage id c limit).next.isSome then kept.getLast?.map Tag.text else none := by
    rw [Seam.Page.next, ← List.getLast?_map, named, List.getLast?_map]
  have before (a b d : Tag) (ab : a.Before b) (bd : b.Before d) : a.Before d := List.lt_trans ab bd
  refine ⟨sound₂, kept, named, ?_, fun item h => ?_⟩
  · rw [next]
    refine (serves.steady pos fun _ h => h).dropped before within (fun t always => ?_)
      (fun t ht always => stays t ht fun at_' h => always.2 at_' (later h)) fun t always more nil => ?_
    · have there := (Listed.stored_iff live).mp (always.2 at_ List.mem_cons_self)
      rwa [Store.has_tag_isSome]
    · have ended := always.1 (by rw [nil]; split <;> rfl)
      rw [more] at ended
      cases ended
  · obtain ⟨⟨at_', read', tells⟩, info⟩ := told item h
    exact ⟨⟨at_', later read', tells⟩, info⟩

theorem runs_manifestInfos (sound : sys.Sound oci options) {records : List ManifestRecord}
    {items : List Seam.ManifestInfo}
    (run : Thread.Runs (System.Between oci) (manifestInfos name records).run sys seen (.ok items)
      after) : items.map (·.digest) = records.map (·.digest) ∧ after.Sound oci options := by
  induction records generalizing sys seen items with
  | nil =>
    obtain ⟨rfl, rfl, -⟩ := Thread.runs_pure_ok run
    exact ⟨rfl, sound⟩
  | cons record records ih =>
    obtain ⟨first, item, mid, rest, described, others, rfl⟩ := Thread.runs_bind_ok run
    obtain ⟨same, sound₁⟩ := runs_manifestInfo sound described
    obtain ⟨seen', items', mid', rest', rows, end_, rfl⟩ := Thread.runs_bind_ok others
    obtain ⟨rfl, rfl, -⟩ := Thread.runs_pure_ok end_
    obtain ⟨named, sound₂⟩ := ih sound₁ rows
    exact ⟨by rw [List.map_cons, List.map_cons, same, named], sound₂⟩

/-- A page of manifests with their details has a row for each that was listed. -/
theorem runs_manifestDetails (sound : sys.Sound oci options) {limit : Nat} (pos : 0 < limit)
    {c : Option Digest} {page : Seam.Page Seam.ManifestInfo}
    (run : Thread.Runs (System.Between oci) (manifestDetails name c limit).run sys seen (.ok page)
      after) : after.Sound oci options ∧ (page.next (·.digest) = none → page.more = false) ∧
      Listing.Steady Digest.Before Digest.beyond id
        (fun d => (page.next (·.digest) = none → page.more = false) ∧
          ∀ at_ ∈ seen, (Listed.manifests name).stored at_.store d) c
        (page.items.map (·.digest)) (page.next (·.digest)) := by
  obtain ⟨first, list, mid, rest, read, last, rfl⟩ := Thread.runs_bind_ok run
  obtain ⟨at_, id_, rfl, atSound, live, answered, sound₁⟩ := runs_readIn sound read
  obtain ⟨cat, refines⟩ := atSound
  cases Except.ok.inj answered
  have filed (d : Digest) (record : ManifestRecord)
      (h : at_.store.manifestRecord id_ d = some record) : record.digest = d := by
    obtain ⟨c, -, filed, rfl, -⟩ := refines.recorded id_ d record h
    exact filed
  have serves := at_.store.manifestPage_serves id_ filed pos c
  obtain ⟨seen', items, mid', rest', rows, end_, rfl⟩ := Thread.runs_bind_ok last
  obtain ⟨named, sound₂⟩ := runs_manifestInfos sound₁ rows
  obtain ⟨rfl, rfl, rfl⟩ := Thread.runs_pure_ok end_
  have heads : items.map (·.digest) =
      ((at_.store.manifestPage id_ c limit).manifests.map ManifestHead.of).map (·.digest) := by
    rw [named, List.map_map]
    rfl
  have next : Seam.Page.next (·.digest)
      { items, more := (at_.store.manifestPage id_ c limit).next.isSome :
        Seam.Page Seam.ManifestInfo } = (at_.store.manifestPage id_ c limit).next := by
    rw [Seam.Page.next, ← List.getLast?_map, heads, List.getLast?_map]
    exact serves.cursor_last
  have there (d : Digest)
      (stays : (Seam.Page.next (·.digest) { items, more := (at_.store.manifestPage id_ c
          limit).next.isSome : Seam.Page Seam.ManifestInfo } = none →
          (at_.store.manifestPage id_ c limit).next.isSome = false) ∧
        ∀ at_' ∈ [at_] ++ (seen' ++ []), (Listed.manifests name).stored at_'.store d) :
      ∃ h : ManifestHead, h.digest = d ∧ ∃ record,
        at_.store.manifestRecord id_ h.digest = some record ∧ ManifestHead.of record = h := by
    have held := (Listed.stored_iff live).mp (stays.2 at_ List.mem_cons_self)
    obtain ⟨record, hrecord⟩ := Option.isSome_iff_exists.mp held
    exact ⟨.of record, filed d record hrecord, record,
      by rw [ManifestHead.of, filed d record hrecord]; exact hrecord, rfl⟩
  refine ⟨sound₂, fun none_ => ?_, ?_⟩
  · rw [next] at none_
    exact Option.isSome_eq_false_iff.mpr (Option.isNone_iff_eq_none.mpr none_)
  · rw [heads]
    simp only [next] at there ⊢
    exact (serves.steady pos fun _ h => h).map (fun _ _ => Iff.rfl) (fun _ _ => rfl)
      (fun _ => rfl) there

end Rows

end Ops

/-! ## Walks -/

namespace Ops

/-- The last page of a walk is the one without a cursor. -/
theorem Walk.ended {α γ : Type} {others : System → System → Prop}
    {page : Option γ → Ops (Seam.Page α)} {cursor : α → γ} {sys : System} {c : Option γ}
    {reads : List (List System)} {pages : List (Seam.Page α)}
    (walk : Walk others page cursor sys c reads pages) :
    ∀ p ∈ pages.getLast?, p.next cursor = none := by
  induction walk with
  | last served ends =>
    intro p hp
    cases hp
    exact ends
  | @more sys after c seen p n later pages served next rest ih =>
    intro q hq
    cases pages with
    | nil => cases rest
    | cons p' pages => exact ih q (by rwa [List.getLast?_cons_cons] at hq)

section
variable {α β γ δ : Type} {others : System → System → Prop} {page : Option γ → Ops (Seam.Page α)}
  {cursor : α → γ} {sound : System → Prop} {lt : β → β → Prop} {beyond : γ → β → Bool}
  {place : β → γ} {stored : System → β → Prop} {name : α → δ} {text : β → δ}
  {tells : List System → Seam.Page α → Prop}

/-- A walk of such pages is one of the listing's. Where its last page says there is
more, nothing need stay. -/
theorem Walk.walked
    (each : ∀ sys c seen p after, sound sys →
      Thread.Runs others (page c).run sys seen (.ok p) after → sound after ∧ ∃ rows : List β,
        p.items.map name = rows.map text ∧
        Listing.Steady lt beyond place (fun b => (p.next cursor = none → p.more = false) ∧
          ∀ at_ ∈ seen, stored at_ b) c rows (p.next cursor) ∧ tells seen p)
    {sys : System} {c : Option γ} {reads : List (List System)} {pages : List (Seam.Page α)}
    (start : sound sys) (walk : Walk others page cursor sys c reads pages) :
    ∃ states rows, Listing.Walked (Listing.Steady lt beyond place) c states rows ∧
      (pages.flatMap fun p => p.items.map name) = rows.flatten.map text ∧
      List.Forall₂ tells reads pages ∧
      ∀ b, (∀ seen ∈ reads, ∀ at_ ∈ seen, stored at_ b) → (∀ p ∈ pages.getLast?, p.more = false) →
        ∀ stays ∈ states, stays b := by
  induction walk with
  | last served ends =>
    obtain ⟨-, rows, named, steady, told⟩ := each _ _ _ _ _ start served
    rw [ends] at steady
    refine ⟨_, _, .last steady, by simpa using named, .cons told .nil, fun b there whole stays hs => ?_⟩
    cases List.mem_singleton.mp hs
    exact ⟨fun _ => whole _ rfl, there _ List.mem_cons_self⟩
  | @more sys after c seen p n later pages served next rest ih =>
    obtain ⟨sound', rows, named, steady, told⟩ := each _ _ _ _ _ start served
    obtain ⟨states, rows', walked, named', told', stay⟩ := ih sound'
    rw [next] at steady
    refine ⟨_, _, .more steady walked, ?_, .cons told told', fun b there whole stays hs => ?_⟩
    · rw [List.flatMap_cons, named, named', List.flatten_cons, List.map_append]
    · cases List.mem_cons.mp hs with
      | inl first =>
        rw [first]
        exact ⟨fun none_ => (by cases none_), there _ List.mem_cons_self⟩
      | inr later =>
        refine stay b (fun seen h => there seen (List.mem_cons_of_mem _ h)) (fun q hq => whole q ?_)
          stays later
        cases pages with
        | nil => cases hq
        | cons p' pages => rwa [List.getLast?_cons_cons]

end

end Ops

/-- A walk of the tag details, while others write: the names come in order, each row
tells what its tag pointed at while its page was read, and a tag that stays is
listed, unless the walk ended on a page that lost all its rows. -/
theorem tag_details_walk (oci : Oci) (options : RegistryOptions) (entries : Nat) (name : Text)
    (sys : System) (limit : Nat) (reads : List (List System)) (pages : List (Seam.Page Seam.TagInfo))
    (reached : (System.start options entries).Between oci sys) (pos : 0 < limit)
    (walk : Ops.Walk (System.Between oci) (Ops.tagDetails name · limit) (·.name) sys none reads
      pages) :
    (pages.flatMap fun p => p.items.map (·.name)).Pairwise
        (fun a b => Bytes.utf8 a < Bytes.utf8 b) ∧
      List.Forall₂ (fun seen p => ∀ item ∈ p.items, (∃ at_ ∈ seen, Ops.Tells name at_ item) ∧
        ∀ info ∈ item.manifest, info.digest = item.digest) reads pages ∧
      ∀ t : Tag, (∀ seen ∈ reads, ∀ at_ ∈ seen, (Listed.tags name).stored at_.store t) →
        (∀ p ∈ pages.getLast?, p.more = false) →
        t.text ∈ pages.flatMap fun p => p.items.map (·.name) := by
  have start : sys.Sound oci options :=
    Ops.sound_between _ _ ⟨_, System.refines_start oci options entries⟩ reached
  obtain ⟨states, rows, walked, named, told, stay⟩ := walk.walked
    (fun sys c seen p after sound run => Ops.runs_tagDetails sound pos run) start
  have ordered : (Listed.tags name).Ordered := Listed.ordered_tags rfl rfl rfl
  rw [named]
  refine ⟨?_, told, fun t there whole => ?_⟩
  · exact List.pairwise_map.mpr (Listing.walked_inOrder ordered.at_ ordered.mono walked)
  · exact List.mem_map_of_mem (Listing.walked_stays ordered.at_ walked (fun n hn => (by cases hn))
      fun stays hs => stay t there whole stays hs)

/-- The first page of one tag. -/
def latestPage : List System × Except RegistryError (Seam.Page Seam.TagInfo) × System :=
  (Ops.tagDetails "app".toList none 1).run.amid [] taggedTwice

/-- That tag is deleted before the next page, and pushed again between its reads. -/
def stablePage : List System × Except RegistryError (Seam.Page Seam.TagInfo) × System :=
  (Ops.tagDetails "app".toList (some latestTag.text) 1).run.amid
    [(·.after indexOci [.deleteTag "app".toList latestTag (.fromSecs 3)]),
      (·.after indexOci [pushIndex emptyIndex (.tag latestTag) 4])] latestPage.2.2

theorem tag_details_walk_retagged : ∃ pages : List (Seam.Page Seam.TagInfo),
    Ops.Walk (System.Between indexOci) (Ops.tagDetails "app".toList · 1) (·.name) taggedTwice none
      [latestPage.1, stablePage.1] pages ∧ pages.length = 2 ∧
      stableTag.text ∈ pages.flatMap fun p => p.items.map (·.name) := by
  have ends : latestPage.2.1.toOption.map (fun p => p.next (·.name)) = some (some latestTag.text) ∧
      stablePage.2.1.toOption.map (fun p => (p.next (·.name), p.more)) = some (none, false) := by
    decide +kernel
  have stays : ([latestPage.1, stablePage.1].flatten.all fun at_ =>
      (at_.store.repoByName "app".toList).any fun id =>
        (at_.store.tagDigest id stableTag).isSome) = true := by decide +kernel
  cases first : latestPage.2.1 with
  | error e =>
    rw [first] at ends
    cases ends.1
  | ok one =>
  cases second : stablePage.2.1 with
  | error e =>
    rw [second] at ends
    cases ends.2
  | ok two =>
  rw [first, second] at ends
  obtain ⟨next, more⟩ := Prod.mk.inj (Option.some.inj ends.2)
  have run : Thread.Runs (System.Between indexOci) (Ops.tagDetails "app".toList none 1).run
      taggedTwice latestPage.1 (.ok one) latestPage.2.2 :=
    first ▸ Thread.runs_amid (System.between_refl indexOci) _ (fun _ h => (by cases h)) _
  have run' : Thread.Runs (System.Between indexOci)
      (Ops.tagDetails "app".toList (some latestTag.text) 1).run latestPage.2.2 stablePage.1 (.ok two)
      stablePage.2.2 := by
    refine second ▸ Thread.runs_amid (System.between_refl indexOci) _ (fun move mem sys => ?_) _
    rcases List.mem_pair.mp mem with rfl | rfl
    · exact sys.between_after indexOci _
    · exact sys.between_after indexOci _
  have walk : Ops.Walk (System.Between indexOci) (Ops.tagDetails "app".toList · 1) (·.name)
      taggedTwice none [latestPage.1, stablePage.1] [one, two] :=
    .more run (Option.some.inj ends.1) (.last run' next)
  obtain ⟨-, -, listed⟩ := tag_details_walk indexOci {} 1 "app".toList taggedTwice 1 _ _
    ((System.start {} 1).between_after indexOci _) (by decide) walk
  refine ⟨_, walk, rfl, listed stableTag (fun seen read at_ mem => ?_) fun p last => ?_⟩
  · have there := List.all_eq_true.mp stays at_ (List.mem_flatten.mpr ⟨seen, read, mem⟩)
    obtain ⟨id, live, tagged⟩ := Option.any_eq_true _ _ |>.mp there
    exact ⟨id, live, tagged⟩
  · cases last
    exact more

/-- A walk of the manifest details lists every manifest that stays, in order. -/
theorem manifest_details_walk {oci : Oci} {options : RegistryOptions} {name : Text} {sys : System}
    {limit : Nat} {reads : List (List System)} {pages : List (Seam.Page Seam.ManifestInfo)}
    (start : sys.Sound oci options) (pos : 0 < limit)
    (walk : Ops.Walk (System.Between oci) (Ops.manifestDetails name · limit) (·.digest) sys none
      reads pages) :
    (pages.flatMap fun p => p.items.map (·.digest)).Pairwise Digest.Before ∧
      ∀ d, (∀ seen ∈ reads, ∀ at_ ∈ seen, (Listed.manifests name).stored at_.store d) →
        d ∈ pages.flatMap fun p => p.items.map (·.digest) := by
  have each (sys : System) (c : Option Digest) (seen : List System)
      (p : Seam.Page Seam.ManifestInfo) (after : System) (sound : sys.Sound oci options)
      (run : Thread.Runs (System.Between oci) (Ops.manifestDetails name c limit).run sys seen (.ok p)
        after) : after.Sound oci options ∧ ∃ rows : List Digest,
        p.items.map (·.digest) = rows.map id ∧
        Listing.Steady Digest.Before Digest.beyond id
          (fun d => (p.next (·.digest) = none → p.more = false) ∧
            ∀ at_ ∈ seen, (Listed.manifests name).stored at_.store d) c rows (p.next (·.digest)) ∧
        (p.next (·.digest) = none → p.more = false) := by
    obtain ⟨sound', whole, steady⟩ := Ops.runs_manifestDetails sound pos run
    exact ⟨sound', _, (List.map_id _).symm, steady, whole⟩
  obtain ⟨states, rows, walked, named, told, stay⟩ := walk.walked each start
  have ordered : (Listed.manifests name).Ordered := Listed.ordered_digests rfl rfl rfl
  have whole : ∀ p ∈ pages.getLast?, p.more = false := by
    have ends : ∀ p ∈ pages, p.next (·.digest) = none → p.more = false := by
      clear walked named stay walk
      induction told with
      | nil => exact fun p hp => (by cases hp)
      | cons first _ ih => exact List.forall_mem_cons.mpr ⟨first, ih⟩
    exact fun p hp => ends p (List.mem_of_getLast? hp) (walk.ended p hp)
  rw [named, List.map_id]
  exact ⟨Listing.walked_inOrder ordered.at_ ordered.mono walked, fun d there =>
    Listing.walked_stays ordered.at_ walked (fun n hn => (by cases hn))
      fun stays hs => stay d there whole stays hs⟩

end Summ
