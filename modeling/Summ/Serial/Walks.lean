import Summ.Serial.Refinement

/-!
# Walking a listing while others write

A client asks for a page, and then for the page after its cursor, while requests
of others are served between its pages. `walks_complete`: whichever listing it
follows, from whatever the registry has become, it is told every row that stays,
each once and in order.
-/

namespace Summ

/-- What the system may have become while a client waits. -/
def System.Between (oci : Oci) (sys sys' : System) : Prop :=
  ∃ requests answers, Simulation.run (System.serve oci) sys requests = some (answers, sys')

/-- A listing a client may follow: what is asked for, what is told, and which rows
there are. -/
structure Listed (α γ : Type) where
  ask : Option γ → Nat → Question
  told : Answer → List α → Option γ → Prop
  stored : Store → α → Prop
  before : α → α → Prop
  beyond : γ → α → Bool
  cursor : α → γ

namespace Listed

/-- The pages of a listing, and the systems they were read in. -/
inductive Walk {α γ : Type} (l : Listed α γ) (oci : Oci) (limit : Nat) :
    System → Option γ → List System → List (List α) → Prop
  | last {sys at_ after : System} {c : Option γ} {answer : Answer} {rows : List α}
      (others : sys.Between oci at_) (asked : at_.serve oci (l.ask c limit) = some (answer, after))
      (told : l.told answer rows none) : Walk l oci limit sys c [at_] [rows]
  | more {sys at_ after : System} {c : Option γ} {answer : Answer} {rows : List α} {n : γ}
      {later : List System} {pages : List (List α)} (others : sys.Between oci at_)
      (asked : at_.serve oci (l.ask c limit) = some (answer, after))
      (told : l.told answer rows (some n)) (rest : Walk l oci limit after (some n) later pages) :
      Walk l oci limit sys c (at_ :: later) (rows :: pages)

/-- A walk, from any system that requests lead to, lists what it reads in order and
nothing twice, and all that is stored whenever it reads. -/
def Complete {α γ : Type} (l : Listed α γ) (oci : Oci) : Prop :=
  ∀ options entries sys limit reads pages, (System.start options entries).Between oci sys →
    0 < limit → l.Walk oci limit sys none reads pages →
    pages.flatten.Pairwise l.before ∧
      List.Forall₂ (fun at_ rows => ∀ a ∈ rows, l.stored at_.store a) reads pages ∧
      ∀ a, (∀ at_ ∈ reads, l.stored at_.store a) → a ∈ pages.flatten

def tags (name : Text) : Listed Tag Text where
  ask := .listTags name
  told
    | .tags (.ok page), rows, next => page.tags = rows.map Tag.text ∧ page.next = next
    | _, _, _ => False
  stored s t := ∃ id, s.repoByName name = some id ∧ (s.tagDigest id t).isSome = true
  before := Tag.Before
  beyond := Tag.beyond
  cursor := Tag.text

def tagsOf (name : Text) (digest : Digest) : Listed Tag Text where
  ask := .tagsOfManifest name digest
  told
    | .tags (.ok page), rows, next => page.tags = rows.map Tag.text ∧ page.next = next
    | _, _, _ => False
  stored s t := ∃ id, s.repoByName name = some id ∧ s.tagDigest id t = some digest
  before := Tag.Before
  beyond := Tag.beyond
  cursor := Tag.text

def manifests (name : Text) : Listed Digest Digest where
  ask := .listManifests name
  told
    | .manifests (.ok page), rows, next => page.manifests.map (·.digest) = rows ∧ page.next = next
    | _, _, _ => False
  stored s d := ∃ id, s.repoByName name = some id ∧ (s.manifestRecord id d).isSome = true
  before := Digest.Before
  beyond := Digest.beyond
  cursor := id

def untagged (name : Text) : Listed Digest Digest where
  ask := .untaggedManifests name
  told
    | .digests (.ok page), rows, next => page.digests = rows ∧ page.next = next
    | _, _, _ => False
  stored s d := ∃ id, s.repoByName name = some id ∧ (s.manifestRecord id d).isSome = true ∧
    ∀ t, s.tagDigest id t ≠ some d
  before := Digest.Before
  beyond := Digest.beyond
  cursor := id

def repos : Listed Text Text where
  ask := .listRepos
  told
    | .repos page, rows, next => page.repos = rows ∧ page.next = next
    | _, _, _ => False
  stored s name := (s.repoByName name).isSome = true
  before a b := Bytes.utf8 a < Bytes.utf8 b
  beyond n a := decide (Bytes.utf8 n < Bytes.utf8 a)
  cursor := id

/-! ## A page of each, as it is read -/

section Page
variable {oci : Oci} {options : RegistryOptions} {sys after : System} {cat : Catalog} {limit : Nat}

theorem refines_between (h : sys.Between oci after)
    (refines : System.Refines oci options sys cat) :
    ∃ cat', System.Refines oci options after cat' := by
  obtain ⟨requests, answers, run⟩ := h
  have simulates (s : System) (cat : Catalog) (q : Question) (a : Answer) (t : System)
      (refines : System.Refines oci options s cat) (h : s.serve oci q = some (a, t)) :
      ∃ cat', cat.Allows oci options q a cat' ∧ System.Refines oci options t cat' :=
    System.refines_serve refines h
  obtain ⟨cat', -, refines'⟩ := Simulation.allowed_of_run simulates refines run
  exact ⟨cat', refines'⟩

/-- A page is steady, and tells nothing that is not stored. -/
def Sound {α γ : Type} (l : Listed α γ) (oci : Oci) : Prop :=
  ∀ options sys cat c limit answer after rows next, System.Refines oci options sys cat →
    0 < limit → sys.serve oci (l.ask c limit) = some (answer, after) → l.told answer rows next →
    Listing.Steady l.before l.beyond l.cursor (l.stored sys.store) c rows next ∧
      ∀ a ∈ rows, l.stored sys.store a

theorem lists_stored {agree : sys.store.TagKeysAgree} {α : Type} {name : Text} {page : α}
    {serves : Repository → α → Prop}
    (lists : (sys.store.catalog agree).Lists name (.ok page) serves) :
    ∃ id, sys.store.repoByName name = some id ∧ serves (sys.store.repository agree id) page := by
  unfold Catalog.Lists Store.catalog at lists
  cases live : sys.store.repoByName name with
  | none =>
    rw [live] at lists
    cases lists
  | some id =>
    rw [live] at lists
    obtain ⟨page', same, serves'⟩ := lists
    cases same
    exact ⟨id, rfl, serves'⟩

theorem steady_of_serves {α γ : Type} {lt : α → α → Prop} {beyond : γ → α → Bool} {cursor : α → γ}
    {stored stored' : α → Prop} {c : Option γ} {rows : List α} {next : Option γ} (pos : 0 < limit)
    (page : Listing.Serves lt beyond cursor limit stored c rows next)
    (same : ∀ a, stored' a ↔ stored a) :
    Listing.Steady lt beyond cursor stored' c rows next ∧ ∀ a ∈ rows, stored' a :=
  ⟨page.steady pos fun a => (same a).mp, fun a ha => (same a).mpr (page.sound ha).1⟩

/-- A repository is the one its name leads to. -/
theorem stored_iff {s : Store} {name : Text} {id : RepoId} {P : RepoId → Prop}
    (live : s.repoByName name = some id) : (∃ id, s.repoByName name = some id ∧ P id) ↔ P id := by
  rw [live]
  simp

theorem sound_tags (oci : Oci) (name : Text) : (tags name).Sound oci := by
  intro options sys cat c limit answer after rows next refines pos asked told
  obtain ⟨cat', allows, -⟩ := System.refines_serve refines asked
  obtain ⟨agree, rfl⟩ := refines.read
  rcases answer with _ | _ | _ | ⟨_ | page⟩ | _ | _ | _
  all_goals first | exact told.elim | exact allows.elim | skip
  obtain ⟨listed, rfl⟩ := told
  obtain ⟨id, live, rows', listed', serves⟩ := lists_stored (allows.2 pos)
  obtain rfl : rows = rows' :=
    List.map_injective_iff.mpr (fun _ _ => Tag.ext) (listed.symm.trans listed')
  exact steady_of_serves pos serves fun t => stored_iff live

theorem sound_tagsOf (oci : Oci) (name : Text) (digest : Digest) :
    (tagsOf name digest).Sound oci := by
  intro options sys cat c limit answer after rows next refines pos asked told
  obtain ⟨cat', allows, -⟩ := System.refines_serve refines asked
  obtain ⟨agree, rfl⟩ := refines.read
  rcases answer with _ | _ | _ | ⟨_ | page⟩ | _ | _ | _
  all_goals first | exact told.elim | exact allows.elim | skip
  obtain ⟨listed, rfl⟩ := told
  obtain ⟨id, live, rows', listed', serves⟩ := lists_stored (allows.2 pos)
  obtain rfl : rows = rows' :=
    List.map_injective_iff.mpr (fun _ _ => Tag.ext) (listed.symm.trans listed')
  exact steady_of_serves pos serves fun t => stored_iff live

theorem sound_manifests (oci : Oci) (name : Text) : (manifests name).Sound oci := by
  intro options sys cat c limit answer after rows next refines pos asked told
  obtain ⟨cat', allows, -⟩ := System.refines_serve refines asked
  obtain ⟨agree, rfl⟩ := refines.read
  rcases answer with _ | _ | _ | _ | ⟨_ | page⟩ | _ | _
  all_goals first | exact told.elim | exact allows.elim | skip
  obtain ⟨rfl, rfl⟩ := told
  obtain ⟨id, live, serves⟩ := lists_stored (allows.2 pos)
  have heads : page.manifests.map (·.digest) = (page.manifests.map ManifestHead.of).map (·.digest) := by
    rw [List.map_map]
    rfl
  rw [heads]
  have there (d : Digest) (stays : (manifests name).stored sys.store d) : ∃ h : ManifestHead,
      h.digest = d ∧ (((sys.store.repository agree id).contents h.digest).map
        (Catalog.headOf h.digest) = some h) := by
    have held : (sys.store.repository agree id).holds d = true :=
      (Store.holds_repository id d).trans ((stored_iff live).mp stays)
    obtain ⟨content, hc⟩ := Option.isSome_iff_exists.mp held
    have told : ((sys.store.repository agree id).contents d).map (Catalog.headOf d) =
        some (Catalog.headOf d content) := by rw [hc, Option.map_some]
    exact ⟨Catalog.headOf d content, rfl, told⟩
  refine ⟨(serves.steady pos fun _ h => h).map (fun _ _ => Iff.rfl) (fun _ _ => rfl)
    (fun _ => rfl) there, ?_⟩
  intro d hd
  obtain ⟨h, hh, rfl⟩ := List.mem_map.mp hd
  obtain ⟨content, hc, -⟩ := Option.map_eq_some_iff.mp (serves.sound hh).1
  have held : (sys.store.repository agree id).holds h.digest = true := Option.isSome_of_eq_some hc
  exact (stored_iff live).mpr ((Store.holds_repository id h.digest).symm.trans held)

theorem sound_untagged (oci : Oci) (name : Text) : (untagged name).Sound oci := by
  intro options sys cat c limit answer after rows next refines pos asked told
  obtain ⟨cat', allows, -⟩ := System.refines_serve refines asked
  obtain ⟨agree, rfl⟩ := refines.read
  rcases answer with _ | _ | _ | _ | _ | ⟨_ | page⟩ | _
  all_goals first | exact told.elim | exact allows.elim | skip
  obtain ⟨rfl, rfl⟩ := told
  obtain ⟨id, live, all, listed, serves⟩ := lists_stored (allows.2 pos)
  have stored (d : Digest) : (untagged name).stored sys.store d ↔
      (sys.store.repository agree id).holds d = true ∧
        Catalog.untagged (sys.store.repository agree id) d = true := by
    rw [Store.holds_repository, Catalog.untagged_iff]
    exact stored_iff live
  rw [listed]
  constructor
  · exact (serves.steady pos fun _ h => h).kept (fun d stays => ((stored d).mp stays).1)
      fun d _ stays => ((stored d).mp stays).2
  · intro d hd
    obtain ⟨row, kept⟩ := List.mem_filter.mp hd
    exact (stored d).mpr ⟨(serves.sound row).1, kept⟩

theorem sound_repos (oci : Oci) : repos.Sound oci := by
  intro options sys cat c limit answer after rows next refines pos asked told
  obtain ⟨cat', allows, -⟩ := System.refines_serve refines asked
  obtain ⟨agree, rfl⟩ := refines.read
  rcases answer with _ | _ | _ | _ | _ | _ | page
  all_goals first | exact told.elim | exact allows.elim | skip
  obtain ⟨rfl, rfl⟩ := told
  refine steady_of_serves pos (allows.2 pos) fun name => ?_
  rw [Store.catalog, Option.isSome_map]
  rfl

end Page

/-! ## Walks -/

/-- What a listing's order has to do with its cursors. -/
structure Ordered {α γ : Type} (l : Listed α γ) : Prop where
  at_ : ∀ a b, l.beyond (l.cursor a) b = true ↔ l.before a b
  mono : ∀ n a b, l.beyond n a = true → l.before a b → l.beyond n b = true

theorem complete_of_sound {oci : Oci} {α γ : Type} {l : Listed α γ} (ordered : l.Ordered)
    (sound : l.Sound oci) : l.Complete oci := by
  intro options entries sys limit reads pages reached pos walk
  have steady {sys c reads pages} {cat : Catalog} (refines : System.Refines oci options sys cat)
      (walk : l.Walk oci limit sys c reads pages) :
      Listing.Walked (Listing.Steady l.before l.beyond l.cursor) c
        (reads.map fun at_ a => l.stored at_.store a) pages ∧
        List.Forall₂ (fun at_ rows => ∀ a ∈ rows, l.stored at_.store a) reads pages := by
    induction walk generalizing cat with
    | last others asked told =>
      obtain ⟨cat', refines'⟩ := refines_between others refines
      obtain ⟨page, true_⟩ := sound _ _ _ _ _ _ _ _ _ refines' pos asked told
      exact ⟨.last page, .cons true_ .nil⟩
    | more others asked told rest ih =>
      obtain ⟨cat', refines'⟩ := refines_between others refines
      obtain ⟨page, true_⟩ := sound _ _ _ _ _ _ _ _ _ refines' pos asked told
      obtain ⟨cat'', -, served⟩ := System.refines_serve refines' asked
      obtain ⟨pages, truths⟩ := ih served
      exact ⟨.more page pages, .cons true_ truths⟩
  obtain ⟨cat, refines⟩ := refines_between reached (System.refines_start oci options entries)
  obtain ⟨walked, truths⟩ := steady refines walk
  refine ⟨Listing.walked_inOrder ordered.at_ ordered.mono walked, truths, fun a stays => ?_⟩
  refine Listing.walked_stays ordered.at_ walked (fun n hn => (by cases hn)) fun stored hs => ?_
  obtain ⟨at_, read, rfl⟩ := List.mem_map.mp hs
  exact stays at_ read

theorem ordered_bytes {α γ : Type} {l : Listed α γ} {place : γ → Bytes} {bytes : α → Bytes}
    (before : ∀ a b, l.before a b ↔ bytes a < bytes b)
    (beyond : ∀ n a, l.beyond n a = true ↔ place n < bytes a)
    (cursor : ∀ a, place (l.cursor a) = bytes a) : l.Ordered where
  at_ a b := by rw [beyond, cursor, before]
  mono n a b past order :=
    (beyond n b).mpr (List.lt_trans ((beyond n a).mp past) ((before a b).mp order))

theorem ordered_tags {l : Listed Tag Text} (before : l.before = Tag.Before)
    (beyond : l.beyond = Tag.beyond) (cursor : l.cursor = Tag.text) : l.Ordered :=
  ordered_bytes (fun a b => by rw [before]; rfl) (fun n a => by rw [beyond]; exact decide_eq_true_iff)
    fun a => by rw [cursor]

theorem ordered_digests {l : Listed Digest Digest} (before : l.before = Digest.Before)
    (beyond : l.beyond = Digest.beyond) (cursor : l.cursor = id) : l.Ordered :=
  ordered_bytes (fun a b => by rw [before]; rfl) (fun n a => by rw [beyond]; exact decide_eq_true_iff)
    fun a => by rw [cursor]; rfl

end Listed

/-- A client that follows a listing, while others write, is told all that stays. -/
theorem walks_complete (oci : Oci) :
    (∀ name, (Listed.tags name).Complete oci) ∧
      (∀ name digest, (Listed.tagsOf name digest).Complete oci) ∧
      (∀ name, (Listed.manifests name).Complete oci) ∧
      (∀ name, (Listed.untagged name).Complete oci) ∧ Listed.repos.Complete oci := by
  refine ⟨fun name => ?_, fun name digest => ?_, fun name => ?_, fun name => ?_, ?_⟩
  · exact Listed.complete_of_sound (Listed.ordered_tags rfl rfl rfl) (Listed.sound_tags oci name)
  · exact Listed.complete_of_sound (Listed.ordered_tags rfl rfl rfl) (Listed.sound_tagsOf oci name digest)
  · exact Listed.complete_of_sound (Listed.ordered_digests rfl rfl rfl) (Listed.sound_manifests oci name)
  · exact Listed.complete_of_sound (Listed.ordered_digests rfl rfl rfl) (Listed.sound_untagged oci name)
  · exact Listed.complete_of_sound
      (Listed.ordered_bytes (fun _ _ => Iff.rfl) (fun _ _ => decide_eq_true_iff) fun _ => rfl)
      (Listed.sound_repos oci)

/-- A page of the tags, as it is asked for. -/
theorem Listed.asked_tags (oci : Oci) {sys : System} {name : Text} {c next : Option Text} {limit : Nat}
    {rows : List Tag}
    (page : (sys.registry.listTags name c limit).1.toOption.map (fun p => (p.tags, p.next)) =
      some (rows.map Tag.text, next)) :
    ∃ answer, sys.serve oci ((tags name).ask c limit) =
        some (answer, { sys with registry := (sys.registry.listTags name c limit).2 }) ∧
      (tags name).told answer rows next := by
  refine ⟨.tags (sys.registry.listTags name c limit).1, rfl, ?_⟩
  cases answer : (sys.registry.listTags name c limit).1 with
  | error e =>
    rw [answer] at page
    cases page
  | ok p =>
    rw [answer] at page
    exact Prod.mk.inj (Option.some.inj page)

/-- What operations make of a system when they are served one after the other. -/
def System.after (oci : Oci) (sys : System) (ops : List Operation) : System :=
  ops.foldl (fun sys op => { sys with registry := op.run oci sys.registry }) sys

theorem System.between_refl (oci : Oci) (sys : System) : sys.Between oci sys := ⟨[], [], rfl⟩

theorem System.between_after (oci : Oci) (sys : System) (ops : List Operation) :
    sys.Between oci (sys.after oci ops) := by
  induction ops generalizing sys with
  | nil => exact sys.between_refl oci
  | cons op ops ih =>
    obtain ⟨requests, answers, run⟩ := ih { sys with registry := op.run oci sys.registry }
    refine ⟨.call (.operation op) :: requests,
      .call (op.accepted oci sys.registry) :: answers, ?_⟩
    exact congrArg (Option.map fun r => (.call (op.accepted oci sys.registry) :: r.1, r.2)) run

def stableTag : Tag where
  text := "stable".toList
  valid := by decide

/-- The empty index under two tags. -/
def taggedTwice : System :=
  (System.start {} 1).after indexOci
    [pushIndex emptyIndex (.tag latestTag) 1, pushIndex emptyIndex (.tag stableTag) 2]

/-- The first of the tags is read. -/
def latestRead : System :=
  { taggedTwice with registry := (taggedTwice.registry.listTags "app".toList none 1).2 }

/-- And deleted before the second page is. -/
def latestDeleted : System :=
  latestRead.after indexOci [.deleteTag "app".toList latestTag (.fromSecs 3)]

theorem walks_complete_deletion :
    (Listed.tags "app".toList).Walk indexOci 1 taggedTwice none [taggedTwice, latestDeleted]
        [[latestTag], [stableTag]] ∧
      [[latestTag], [stableTag]].flatten.Pairwise Tag.Before ∧
      ∀ t, (∀ at_ ∈ [taggedTwice, latestDeleted],
        (Listed.tags "app".toList).stored at_.store t) → t ∈ [[latestTag], [stableTag]].flatten := by
  have first : (taggedTwice.registry.listTags "app".toList none 1).1.toOption.map
      (fun p => (p.tags, p.next)) = some ([latestTag].map Tag.text, some latestTag.text) := by
    decide +kernel
  have second : (latestDeleted.registry.listTags "app".toList (some latestTag.text) 1).1.toOption.map
      (fun p => (p.tags, p.next)) = some ([stableTag].map Tag.text, none) := by decide +kernel
  obtain ⟨one, asked, told⟩ := Listed.asked_tags indexOci first
  obtain ⟨two, asked', told'⟩ := Listed.asked_tags indexOci second
  have walk : (Listed.tags "app".toList).Walk indexOci 1 taggedTwice none
      [taggedTwice, latestDeleted] [[latestTag], [stableTag]] :=
    .more (taggedTwice.between_refl indexOci) asked told
      (.last (latestRead.between_after indexOci _) asked' told')
  obtain ⟨inOrder, -, whole⟩ := (walks_complete indexOci).1 "app".toList {} 1 taggedTwice 1 _ _
    ((System.start {} 1).between_after indexOci _) (by decide) walk
  exact ⟨walk, inOrder, whole⟩

end Summ
