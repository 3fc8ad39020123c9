import Summ.Registry.Tallies
import Summ.Serial.Servable
import Summ.Server.Details

/-!
# Counts that stop at a ceiling

`count_to_ceiling` walks a listing's keys a page at a time and stops at
`COUNT_CEILING`, with others served between its pages. `repository_tallies`: a
repository's page counts only rows that were there, each once; a tally that calls
itself complete has every row that stayed, and one that does not is the ceiling
itself, with more behind it. When nothing changes the tally is exact (`exact_count`).
-/

namespace Summ

/-- How many keys one turn of a bounded count reads. -/
def COUNT_STEP : Nat := 500

/-- How far a bounded count scans before it reports a floor. -/
def COUNT_CEILING : Nat := 10000

/-- The turns that take a count to its ceiling. -/
def COUNT_TURNS : Nat := COUNT_CEILING / COUNT_STEP + 1

/-- `u64::saturating_add`. -/
def saturatingAdd (a b : Nat) : Nat := min (a + b) (2 ^ 64 - 1)

namespace Seam

/-- A count that may have stopped early. -/
structure Tally where
  count : Nat
  complete : Bool
  deriving DecidableEq

def Tally.exact (count : Nat) : Tally where
  count
  complete := true

structure RepoDetail where
  name : Text
  tags : Tally
  manifests : Tally
  blobs : Tally
  sizeBytes : Nat
  deriving DecidableEq

end Seam

namespace Ops

/-- What one turn of a count brings. -/
structure Turn (γ δ : Type) where
  added : Nat
  next : Option γ
  held : δ

/-- `count_to_ceiling`. Its closure's own state is passed along; `none` is a count
that is out of turns. -/
def countToCeiling {γ δ : Type} (step : Option γ → δ → Ops (Turn γ δ)) :
    Nat → Nat → Option γ → δ → Ops (Option (Seam.Tally × δ))
  | 0, _, _, _ => return none
  | turns + 1, count, cursor, held => do
    let turn ← step cursor held
    match turn.next with
    | none => return some (.exact (count + turn.added), turn.held)
    | some next =>
      if COUNT_CEILING ≤ count + turn.added then
        return some ({ count := count + turn.added, complete := false }, turn.held)
      else countToCeiling step turns (count + turn.added) (some next) turn.held

def tagTurn (name : Text) (cursor : Option Text) (held : Unit) : Ops (Turn Text Unit) := do
  let page ← read fun r => r.countTags name cursor COUNT_STEP
  return { added := page.tags, next := page.next, held }

def manifestTurn (name : Text) (cursor : Option Digest) (held : Unit) : Ops (Turn Digest Unit) := do
  let page ← read fun r => r.countManifests name cursor COUNT_STEP
  return { added := page.manifests, next := page.next, held }

def usageTurn (name : Text) (cursor : Option Digest) (bytes : Nat) : Ops (Turn Digest Nat) := do
  let page ← read fun r => r.repoUsage name cursor COUNT_STEP
  return { added := page.blobs, next := page.next, held := saturatingAdd bytes page.bytes }

def countTags (name : Text) : Ops (Option (Seam.Tally × Unit)) :=
  countToCeiling (tagTurn name) COUNT_TURNS 0 none ()

def countManifests (name : Text) : Ops (Option (Seam.Tally × Unit)) :=
  countToCeiling (manifestTurn name) COUNT_TURNS 0 none ()

/-- Blob count and byte total, folded to the same ceiling. -/
def countUsage (name : Text) : Ops (Option (Seam.Tally × Nat)) :=
  countToCeiling (usageTurn name) COUNT_TURNS 0 none 0

def repositoryDetail (name : Text) : Ops (Option Seam.RepoDetail) := do
  let tags ← countTags name
  let manifests ← countManifests name
  let usage ← countUsage name
  match tags, manifests, usage with
  | some (tags, _), some (manifests, _), some (blobs, sizeBytes) =>
    return some { name, tags, manifests, blobs, sizeBytes }
  | _, _, _ => return none

end Ops

/-- A tally of the rows of a listing that others may have changed while they were
counted. -/
structure Seam.Tally.Counts {β : Type} (tally : Tally) (lt : β → β → Prop)
    (stored : System → β → Prop) (seen : List System) (rows : List β) : Prop where
  count : tally.count = rows.length
  bound : tally.count ≤ COUNT_CEILING
  inOrder : rows.Pairwise lt
  there : ∀ b ∈ rows, ∃ at_ ∈ seen, stored at_ b
  whole : tally.complete = true → ∀ b, (∀ at_ ∈ seen, stored at_ b) → b ∈ rows
  short : tally.complete = false → tally.count = COUNT_CEILING ∧
    ∃ b, (∃ at_ ∈ seen, stored at_ b) ∧ ∀ a ∈ rows, lt a b

namespace Ops

section Loop
variable {β γ δ : Type} {others : System → System → Prop} {step : Option γ → δ → Ops (Turn γ δ)}
  {sound : System → Prop} {lt : β → β → Prop} {beyond : γ → β → Bool} {place : β → γ}
  {stored : System → β → Prop} {add : δ → List β → δ}

/-- A page of what is counted. -/
structure Counted (lt : β → β → Prop) (beyond : γ → β → Bool) (place : β → γ)
    (stored : System → β → Prop) (add : δ → List β → δ) (c : Option γ) (held : δ)
    (seen : List System) (turn : Turn γ δ) (rows : List β) : Prop where
  added : turn.added = rows.length
  bound : rows.length ≤ COUNT_STEP
  held : turn.held = add held rows
  there : ∀ b ∈ rows, ∃ at_ ∈ seen, stored at_ b
  steady : Listing.Steady lt beyond place (fun b => ∀ at_ ∈ seen, stored at_ b) c rows turn.next
  more : ∀ n ∈ turn.next, rows.length = COUNT_STEP ∧
    ∃ b, (∃ at_ ∈ seen, stored at_ b) ∧ (∀ m ∈ c, beyond m b = true) ∧ ∀ a ∈ rows, lt a b

/-- What a count has come to that had `count` rows behind its cursor. -/
structure CountedFrom (lt : β → β → Prop) (beyond : γ → β → Bool) (stored : System → β → Prop)
    (count : Nat) (c : Option γ) (seen : List System) (tally : Seam.Tally) (rows : List β) : Prop where
  count : tally.count = count + rows.length
  bound : tally.count ≤ COUNT_CEILING
  inOrder : rows.Pairwise lt
  after : ∀ b ∈ rows, ∀ n ∈ c, beyond n b = true
  there : ∀ b ∈ rows, ∃ at_ ∈ seen, stored at_ b
  whole : tally.complete = true → ∀ b, (∀ at_ ∈ seen, stored at_ b) →
    (∀ n ∈ c, beyond n b = true) → b ∈ rows
  short : tally.complete = false → tally.count = COUNT_CEILING ∧
    ∃ b, (∃ at_ ∈ seen, stored at_ b) ∧ (∀ n ∈ c, beyond n b = true) ∧ ∀ a ∈ rows, lt a b

/-- The turns suffice, and what the pages after the cursor come to. -/
theorem runs_countToCeiling
    (at_ : ∀ a b, beyond (place a) b = true ↔ lt a b)
    (mono : ∀ n a b, beyond n a = true → lt a b → beyond n b = true)
    (each : ∀ sys c held seen turn after, sound sys →
      Thread.Runs others (step c held).run sys seen (.ok turn) after →
      sound after ∧ ∃ rows, Counted lt beyond place stored add c held seen turn rows)
    {turns count : Nat} {c : Option γ} {held : δ} {sys after : System} {seen : List System}
    {result : Option (Seam.Tally × δ)} (start : sound sys)
    (left : count + COUNT_STEP * turns = COUNT_CEILING + COUNT_STEP) (low : count < COUNT_CEILING)
    (run : Thread.Runs others (countToCeiling step turns count c held).run sys seen (.ok result)
      after) : sound after ∧ ∃ (tally : Seam.Tally) (pages : List (List β)),
      result = some (tally, pages.foldl add held) ∧
      (∀ page ∈ pages, page.length ≤ COUNT_STEP) ∧
      CountedFrom lt beyond stored count c seen tally pages.flatten := by
  unfold COUNT_CEILING COUNT_STEP at left
  unfold COUNT_CEILING at low
  induction turns generalizing count c held sys seen with
  | zero => omega
  | succ turns ih =>
    obtain ⟨first, turn, mid, rest, page, last, rfl⟩ := Thread.runs_bind_ok run
    obtain ⟨sound₁, rows, counted⟩ := each _ _ _ _ _ _ start page
    have bound := counted.bound
    have single : ∀ page ∈ [rows], page.length ≤ COUNT_STEP := by
      intro page mem
      rw [List.mem_singleton.mp mem]
      exact bound
    unfold COUNT_STEP at bound
    have here {b : β} (there : ∃ at_ ∈ first, stored at_ b) : ∃ at_ ∈ first ++ rest, stored at_ b :=
      there.imp fun _ h => ⟨List.mem_append_left _ h.1, h.2⟩
    have early {b : β} (stays : ∀ at_ ∈ first ++ rest, stored at_ b) : ∀ at_ ∈ first, stored at_ b :=
      fun at_ h => stays at_ (List.mem_append_left _ h)
    cases next : turn.next with
    | none =>
      rw [next] at last
      obtain ⟨rfl, rfl, rfl⟩ := Thread.runs_pure_ok last
      refine ⟨sound₁, _, [rows], by rw [counted.held]; rfl, single, ?_⟩
      rw [List.flatten_singleton]
      exact {
        count := congrArg (count + ·) counted.added
        bound := by
          change count + turn.added ≤ 10000
          rw [counted.added]
          omega
        inOrder := counted.steady.inOrder
        after := counted.steady.after
        there := fun b hb => here (counted.there b hb)
        whole := fun _ b stays past => counted.steady.ends next b (early stays) past
        short := fun h => (by cases h) }
    | some n =>
      rw [next] at last
      obtain ⟨full, b, there, past, behind⟩ := counted.more n next
      unfold COUNT_STEP at full
      have added := counted.added
      dsimp only at last
      split at last <;> rename_i ceiling <;> unfold COUNT_CEILING at ceiling
      · obtain ⟨rfl, rfl, rfl⟩ := Thread.runs_pure_ok last
        have atCeiling : count + turn.added = 10000 := by omega
        refine ⟨sound₁, _, [rows], by rw [counted.held]; rfl, single, ?_⟩
        rw [List.flatten_singleton]
        exact {
          count := congrArg (count + ·) added
          bound := atCeiling.le
          inOrder := counted.steady.inOrder
          after := counted.steady.after
          there := fun b hb => here (counted.there b hb)
          whole := fun h => (by cases h)
          short := fun _ => ⟨atCeiling, b, here there, past, behind⟩ }
      · have left' : count + turn.added + 500 * turns = 10000 + 500 := by omega
        obtain ⟨sound₂, tally, pages, rfl, few, onward⟩ := ih sound₁ left' (by omega) last
        generalize later : pages.flatten = rows' at onward
        obtain ⟨z, rfl, zPast, lastRow, leaves⟩ := counted.steady.resumes n next
        -- a row counted later lies beyond the page's cursor, and so beyond its rows
        have follow {b : β} (hb : ∀ n ∈ some (place z), beyond n b = true) :
            (∀ m ∈ c, beyond m b = true) ∧ ∀ a ∈ rows, lt a b := by
          have zb := (at_ z b).mp (hb _ rfl)
          refine ⟨fun m hm => mono m z b (zPast m hm) zb, fun a ha => ?_⟩
          cases lastRow a ha with
          | inl same => exact same ▸ zb
          | inr before => exact (at_ a b).mp (mono _ z b ((at_ a z).mpr before) zb)
        have further {b : β} (there : ∃ at_ ∈ rest, stored at_ b) :
            ∃ at_ ∈ first ++ rest, stored at_ b :=
          there.imp fun _ h => ⟨List.mem_append_right _ h.1, h.2⟩
        refine ⟨sound₂, tally, rows :: pages, by rw [counted.held]; rfl,
          List.forall_mem_cons.mpr ⟨counted.bound, few⟩, ?_⟩
        rw [List.flatten_cons, later]
        exact {
          count := by
            rw [onward.count, List.length_append, added]
            omega
          bound := onward.bound
          inOrder := List.pairwise_append.mpr ⟨counted.steady.inOrder, onward.inOrder,
            fun a ha b hb => (follow (onward.after b hb)).2 a ha⟩
          after := fun b hb => by
            cases List.mem_append.mp hb with
            | inl now => exact counted.steady.after b now
            | inr then_ => exact (follow (onward.after b then_)).1
          there := fun b hb => by
            cases List.mem_append.mp hb with
            | inl now => exact here (counted.there b now)
            | inr then_ => exact further (onward.there b then_)
          whole := fun complete b stays past => by
            refine List.mem_append.mpr ((leaves b (early stays) past).imp_right fun zb => ?_)
            refine onward.whole complete b (fun at_ h => stays at_ (List.mem_append_right _ h)) ?_
            intro m hm
            cases hm
            exact (at_ z b).mpr zb
          short := fun short => by
            obtain ⟨atCeiling, b, there, past, behind⟩ := onward.short short
            refine ⟨atCeiling, b, further there, (follow past).1, fun a ha => ?_⟩
            cases List.mem_append.mp ha with
            | inl now => exact (follow past).2 a now
            | inr then_ => exact behind a then_ }

/-- A count from the start. -/
theorem CountedFrom.counts {seen : List System} {tally : Seam.Tally} {rows : List β}
    (counted : CountedFrom lt beyond stored 0 none seen tally rows) :
    tally.Counts lt stored seen rows where
  count := by rw [counted.count, Nat.zero_add]
  bound := counted.bound
  inOrder := counted.inOrder
  there := counted.there
  whole complete b stays := counted.whole complete b stays fun n hn => (by cases hn)
  short short := by
    obtain ⟨atCeiling, b, there, -, behind⟩ := counted.short short
    exact ⟨atCeiling, b, there, behind⟩

/-- A page read at once. -/
theorem counted_of_serves {at_ : System} {stored' : β → Prop} {c : Option γ} {held : δ}
    {turn : Turn γ δ} {rows : List β}
    (serves : Listing.Serves lt beyond place COUNT_STEP stored' c rows turn.next)
    (same : ∀ b, stored at_ b ↔ stored' b) (added : turn.added = rows.length)
    (kept : turn.held = add held rows) :
    Counted lt beyond place stored add c held [at_] turn rows where
  added := added
  bound := serves.length_le
  held := kept
  there b hb := ⟨at_, List.mem_singleton.mpr rfl, (same b).mpr (serves.sound hb).1⟩
  steady := serves.steady (by decide) fun b stays =>
    (same b).mp (stays at_ (List.mem_singleton.mpr rfl))
  more n hn := by
    obtain ⟨full, b, there, past, behind⟩ := serves.full hn
    exact ⟨full, b, ⟨at_, List.mem_singleton.mpr rfl, (same b).mpr there⟩, past, behind⟩

end Loop

/-! ## The three counts of a repository -/

/-- A membership of the repository under a name, with its size. -/
def Member (name : Text) (at_ : System) (b : Digest × Nat) : Prop :=
  ∃ id, at_.store.repoByName name = some id ∧
    ∃ record, at_.store.repoBlobRecord id b.1 = some record ∧ record.size = b.2

section Counts
variable {oci : Oci} {options : RegistryOptions} {sys after : System} {seen : List System}
  {name : Text}

theorem runs_countTags (start : sys.Sound oci options) {result : Option (Seam.Tally × Unit)}
    (run : Thread.Runs (System.Between oci) (countTags name).run sys seen (.ok result) after) :
    after.Sound oci options ∧ ∃ tally rows, result = some (tally, ()) ∧ tally.Counts Tag.Before
      (fun at_ t => (Listed.tags name).stored at_.store t) seen rows := by
  have ordered : (Listed.tags name).Ordered := Listed.ordered_tags rfl rfl rfl
  have each (sys : System) (c : Option Text) (held : Unit) (seen : List System)
      (turn : Turn Text Unit) (after : System) (sound : sys.Sound oci options)
      (run : Thread.Runs (System.Between oci) (tagTurn name c held).run sys seen (.ok turn) after) :
      after.Sound oci options ∧ ∃ rows, Counted Tag.Before Tag.beyond Tag.text
        (fun at_ t => (Listed.tags name).stored at_.store t) (fun held _ => held) c held seen turn
        rows := by
    obtain ⟨first, page, mid, rest, read, last, rfl⟩ := Thread.runs_bind_ok run
    obtain ⟨at_, id, rfl, -, live, answered, sound₁⟩ := runs_readIn sound read
    obtain ⟨rfl, rfl, rfl⟩ := Thread.runs_pure_ok last
    cases Except.ok.inj answered
    obtain ⟨rows, listed, serves⟩ := at_.store.tagPage_serves id (by decide : 0 < COUNT_STEP) c
    have page := at_.store.tagCountPage_eq id (by decide : 0 < COUNT_STEP) c
    refine ⟨sound₁, rows, counted_of_serves (by rw [page]; exact serves) (fun t => ?_) ?_ rfl⟩
    · rw [Store.has_tag_isSome]
      exact Listed.stored_iff live
    · rw [page, listed]
      exact List.length_map _
  obtain ⟨sound, tally, pages, rfl, -, counted⟩ := runs_countToCeiling ordered.at_ ordered.mono each
    start (by decide) (by decide) run
  exact ⟨sound, tally, _, rfl, counted.counts⟩

theorem runs_countManifests (start : sys.Sound oci options) {result : Option (Seam.Tally × Unit)}
    (run : Thread.Runs (System.Between oci) (countManifests name).run sys seen (.ok result) after) :
    after.Sound oci options ∧ ∃ tally rows, result = some (tally, ()) ∧ tally.Counts Digest.Before
      (fun at_ d => (Listed.manifests name).stored at_.store d) seen rows := by
  have ordered : (Listed.manifests name).Ordered := Listed.ordered_digests rfl rfl rfl
  have each (sys : System) (c : Option Digest) (held : Unit) (seen : List System)
      (turn : Turn Digest Unit) (after : System) (sound : sys.Sound oci options)
      (run : Thread.Runs (System.Between oci) (manifestTurn name c held).run sys seen (.ok turn)
        after) : after.Sound oci options ∧ ∃ rows, Counted Digest.Before Digest.beyond id
        (fun at_ d => (Listed.manifests name).stored at_.store d) (fun held _ => held) c held seen
        turn rows := by
    obtain ⟨first, page, mid, rest, read, last, rfl⟩ := Thread.runs_bind_ok run
    obtain ⟨at_, id_, rfl, -, live, answered, sound₁⟩ := runs_readIn sound read
    obtain ⟨rfl, rfl, rfl⟩ := Thread.runs_pure_ok last
    cases Except.ok.inj answered
    obtain ⟨rows, count, serves⟩ :=
      at_.store.manifestCountPage_serves id_ (by decide : 0 < COUNT_STEP) c
    refine ⟨sound₁, rows, counted_of_serves serves (fun d => ?_) count rfl⟩
    rw [Store.has_manifest]
    exact Listed.stored_iff live
  obtain ⟨sound, tally, pages, rfl, -, counted⟩ := runs_countToCeiling ordered.at_ ordered.mono each
    start (by decide) (by decide) run
  exact ⟨sound, tally, _, rfl, counted.counts⟩

/-- What a page adds to the bytes counted so far. -/
def addPage (bytes : Nat) (page : List (Digest × Nat)) : Nat :=
  saturatingAdd bytes ((page.map Prod.snd).sum % 2 ^ 64)

/-- Where no page wraps, the total is the sum, saturated. -/
theorem foldl_addPage (pages : List (List (Digest × Nat)))
    (fits : ∀ page ∈ pages, (page.map Prod.snd).sum < 2 ^ 64) (bytes : Nat) :
    pages.foldl addPage (min bytes (2 ^ 64 - 1)) =
      min (bytes + (pages.flatten.map Prod.snd).sum) (2 ^ 64 - 1) := by
  induction pages generalizing bytes with
  | nil => rfl
  | cons page pages ih =>
    obtain ⟨first, rest⟩ := List.forall_mem_cons.mp fits
    have added : addPage (min bytes (2 ^ 64 - 1)) page =
        min (bytes + (page.map Prod.snd).sum) (2 ^ 64 - 1) := by
      rw [addPage, Nat.mod_eq_of_lt first, saturatingAdd]
      omega
    rw [List.foldl_cons, added, ih rest, List.flatten_cons, List.map_append, List.sum_append,
      Nat.add_assoc]

theorem runs_countUsage (start : sys.Sound oci options) {result : Option (Seam.Tally × Nat)}
    (run : Thread.Runs (System.Between oci) (countUsage name).run sys seen (.ok result) after) :
    after.Sound oci options ∧ ∃ (tally : Seam.Tally) (pages : List (List (Digest × Nat))),
      result = some (tally, pages.foldl addPage 0) ∧
      (∀ page ∈ pages, page.length ≤ COUNT_STEP) ∧
      tally.Counts (fun a b : Digest × Nat => a.1.Before b.1) (Member name) seen pages.flatten := by
  have ordered : (Listed.manifests name).Ordered := Listed.ordered_digests rfl rfl rfl
  have each (sys : System) (c : Option Digest) (held : Nat) (seen : List System)
      (turn : Turn Digest Nat) (after : System) (sound : sys.Sound oci options)
      (run : Thread.Runs (System.Between oci) (usageTurn name c held).run sys seen (.ok turn)
        after) : after.Sound oci options ∧ ∃ rows, Counted
        (fun a b : Digest × Nat => a.1.Before b.1) (fun n a => Digest.beyond n a.1) Prod.fst
        (Member name) addPage c held seen turn rows := by
    obtain ⟨first, page, mid, rest, read, last, rfl⟩ := Thread.runs_bind_ok run
    obtain ⟨at_, id, rfl, -, live, answered, sound₁⟩ := runs_readIn sound read
    obtain ⟨rfl, rfl, rfl⟩ := Thread.runs_pure_ok last
    cases Except.ok.inj answered
    obtain ⟨rows, count, bytes, serves⟩ :=
      at_.store.usagePage_serves id (by decide : 0 < COUNT_STEP) c
    refine ⟨sound₁, rows, counted_of_serves serves (fun b => ?_) count ?_⟩
    · exact Listed.stored_iff live
    · exact congrArg (saturatingAdd held) bytes
  obtain ⟨sound, tally, pages, rfl, few, counted⟩ := runs_countToCeiling
    (fun a b => ordered.at_ a.1 b.1) (fun n a b => ordered.mono n a.1 b.1) each start (by decide)
    (by decide) run
  exact ⟨sound, tally, pages, rfl, few, counted.counts⟩

end Counts

/-! ## Where the name is known -/

/-- Work made of reads under one name. -/
inductive Readings (name : Text) : {α : Type} → Ops α → Prop
  | pure {α : Type} (a : α) : Readings name (pure a : Ops α)
  | read {α : Type} (f : Store → RepoId → α) :
      Readings name (read fun r => r.readIn name fun s id => .ok (f s id))
  | bind {α β : Type} {p : Ops α} {k : α → Ops β} (first : Readings name p)
      (rest : ∀ a, Readings name (k a)) : Readings name (p >>= k)

section Readings
variable {oci : Oci} {options : RegistryOptions} {name : Text} {α : Type} {p : Ops α}
  {others : System → System → Prop} {sys after : System} {seen : List System}

/-- It succeeds when the name is known wherever it reads. -/
theorem Readings.succeeds (readings : Readings name p) {result : Except RegistryError α}
    (run : Thread.Runs others p.run sys seen result after)
    (known : ∀ at_ ∈ seen, at_.Sound oci options ∧ (at_.store.repoByName name).isSome = true) :
    ∃ a, result = .ok a := by
  induction readings generalizing sys seen after with
  | pure a =>
    obtain ⟨made, -, -⟩ := Thread.runs_done run
    exact ⟨a, made.symm⟩
  | read f =>
    obtain ⟨at_, -, rfl, rfl, -⟩ := Thread.runs_atomic run
    obtain ⟨⟨cat, refines⟩, live⟩ := known at_ (List.mem_singleton.mpr rfl)
    obtain ⟨id, live⟩ := Option.isSome_iff_exists.mp live
    have live' : at_.registry.store.repoByName name = some id := live
    exact ⟨f at_.registry.store id, by rw [Registry.readIn_fst refines.coherent.cached, live']⟩
  | bind first rest ih ih' =>
    obtain ⟨seen₁, answer, mid, seen₂, run₁, run₂, rfl⟩ := Thread.runs_bind run
    obtain ⟨a, rfl⟩ := ih run₁ fun at_ h => known at_ (List.mem_append_left _ h)
    exact ih' a run₂ fun at_ h => known at_ (List.mem_append_right _ h)

/-- It changes the caches alone, and so nothing that is said of the store. -/
theorem Readings.keeps (readings : Readings name p) {P : System → Prop}
    (ofStore : ∀ s u : System, u.store = s.store → P s → P u) :
    p.run.Keeps fun sys => sys.Sound oci options ∧ P sys := by
  induction readings with
  | pure a => trivial
  | read f =>
    refine Thread.keeps_atomic fun sys ⟨⟨cat, refines⟩, said⟩ => ?_
    refine ⟨⟨cat, refines.reads⟩, ofStore sys _ ?_ said⟩
    change (sys.registry.readIn name _).2.store = sys.registry.store
    rw [Registry.readIn_snd, sys.registry.requireRepo_store name]
  | bind first rest ih ih' =>
    refine Thread.keeps_bind ih fun answer => ?_
    cases answer with
    | error e => trivial
    | ok a => exact ih' a

theorem readings_countToCeiling {γ δ : Type} {step : Option γ → δ → Ops (Turn γ δ)}
    (each : ∀ c held, Readings name (step c held)) (turns count : Nat) (c : Option γ) (held : δ) :
    Readings name (countToCeiling step turns count c held) := by
  induction turns generalizing count c held with
  | zero => exact .pure _
  | succ turns ih =>
    refine .bind (each c held) fun turn => ?_
    split
    · exact .pure _
    · split
      · exact .pure _
      · exact ih (count + turn.added) _ turn.held

theorem readings_repositoryDetail : Readings name (repositoryDetail name) := by
  have tags : Readings name (countTags name) := readings_countToCeiling
    (fun c held => .bind (.read fun s id => s.tagCountPage id c COUNT_STEP) fun page => .pure _)
    _ _ _ _
  have manifests : Readings name (countManifests name) := readings_countToCeiling
    (fun c held => .bind (.read fun s id => s.manifestCountPage id c COUNT_STEP)
      fun page => .pure _) _ _ _ _
  have usage : Readings name (countUsage name) := readings_countToCeiling
    (fun c held => .bind (.read fun s id => s.usagePage id c COUNT_STEP) fun page => .pure _)
    _ _ _ _
  refine .bind tags fun tags => .bind manifests fun manifests => .bind usage fun usage => ?_
  split
  · exact .pure _
  · exact .pure _

end Readings

end Ops

/-- What a repository's page says of it, whatever others did while it was counted:
each tally is of rows that were there, and the bytes are those of the blobs counted,
page by page: the sum of all, saturated, where no page's own sum wraps. -/
theorem repository_tallies (oci : Oci) (options : RegistryOptions) (entries : Nat) (name : Text)
    (sys after : System) (seen : List System) (result : Option Seam.RepoDetail)
    (reached : (System.start options entries).Between oci sys)
    (run : Thread.Runs (System.Between oci) (Ops.repositoryDetail name).run sys seen (.ok result)
      after) :
    ∃ (detail : Seam.RepoDetail) (ofTags ofManifests ofBlobs : List System) (tags : List Tag)
      (manifests : List Digest) (pages : List (List (Digest × Nat))), result = some detail ∧
      seen = ofTags ++ (ofManifests ++ ofBlobs) ∧ detail.name = name ∧
      detail.tags.Counts Tag.Before (fun at_ t => (Listed.tags name).stored at_.store t) ofTags
        tags ∧
      detail.manifests.Counts Digest.Before
        (fun at_ d => (Listed.manifests name).stored at_.store d) ofManifests manifests ∧
      detail.blobs.Counts (fun a b : Digest × Nat => a.1.Before b.1) (Ops.Member name) ofBlobs
        pages.flatten ∧
      (∀ page ∈ pages, page.length ≤ COUNT_STEP) ∧
      detail.sizeBytes = pages.foldl Ops.addPage 0 ∧
      ((∀ page ∈ pages, (page.map Prod.snd).sum < 2 ^ 64) →
        detail.sizeBytes = min (pages.flatten.map Prod.snd).sum (2 ^ 64 - 1)) := by
  have start : sys.Sound oci options :=
    Ops.sound_between _ _ ⟨_, System.refines_start oci options entries⟩ reached
  obtain ⟨ofTags, tags, mid, rest, runTags, last, rfl⟩ := Thread.runs_bind_ok run
  obtain ⟨sound₁, tags, tagRows, rfl, tagCounts⟩ := Ops.runs_countTags start runTags
  obtain ⟨ofManifests, manifests, mid', rest', runManifests, last', rfl⟩ := Thread.runs_bind_ok last
  obtain ⟨sound₂, manifests, manifestRows, rfl, manifestCounts⟩ :=
    Ops.runs_countManifests sound₁ runManifests
  obtain ⟨ofBlobs, usage, mid'', rest'', runUsage, end_, rfl⟩ := Thread.runs_bind_ok last'
  obtain ⟨-, blobs, pages, rfl, few, blobCounts⟩ := Ops.runs_countUsage sound₂ runUsage
  obtain ⟨rfl, rfl, rfl⟩ := Thread.runs_pure_ok end_
  refine ⟨_, ofTags, ofManifests, ofBlobs, tagRows, manifestRows, pages, rfl, ?_, rfl, tagCounts,
    manifestCounts, blobCounts, few, rfl, fun fits => ?_⟩
  · rw [List.append_nil]
  · exact (Ops.foldl_addPage pages fits 0).trans (congrArg (min · _) (Nat.zero_add _))

/-- A repository's page is served where its name is known whenever it is read. -/
theorem repository_page_served {oci : Oci} {options : RegistryOptions} {entries : Nat} {name : Text}
    {sys after : System} {seen : List System} {result : Except RegistryError (Option Seam.RepoDetail)}
    (reached : (System.start options entries).Between oci sys)
    (run : Thread.Runs (System.Between oci) (Ops.repositoryDetail name).run sys seen result after)
    (known : ∀ at_ ∈ seen, at_.Sound oci options ∧ (at_.store.repoByName name).isSome = true) :
    ∃ detail, result = .ok (some detail) := by
  obtain ⟨detail, rfl⟩ := Ops.readings_repositoryDetail.succeeds run known
  obtain ⟨detail, -, -, -, -, -, -, rfl, -⟩ :=
    repository_tallies oci options entries name sys after seen detail reached run
  exact ⟨detail, rfl⟩

/-! ## A repository of more than one page -/

section Commits
variable {oci : Oci} {options : RegistryOptions} {sys : System} {name : Text}

theorem Registry.commitBlob_known {r : Registry} (cached : r.Cached) {id : RepoId}
    (live : r.store.repoByName name = some id) (digest : Digest) (size : Nat) (now : Timestamp) :
    (r.commitBlob name digest size now).2.store =
      r.store.apply (r.store.blobCommitBatch id digest size now) := by
  have found := (lookupRepo_spec cached name).found
  rw [live] at found
  have interned : (r.internRepo name).1 = .ok id ∧ (r.internRepo name).2.store = r.store := by
    unfold lookupRepo at found
    unfold internRepo RepoInterner.intern
    cases looked : r.interner.lookup r.store name with
    | mk known c =>
      rw [looked] at found
      cases found
      exact ⟨rfl, rfl⟩
  unfold commitBlob planBlobCommit planInterned
  cases made : r.internRepo name with
  | mk answer r' =>
    rw [made] at interned
    obtain ⟨rfl, store⟩ := interned
    dsimp only at store ⊢
    rw [commit_ok_store, store]

/-- A commit under a known name keeps the memberships there are, and makes one. -/
theorem Ops.member_commit (sound : sys.Sound oci options)
    (live : (sys.store.repoByName name).isSome = true) (digest : Digest) (size : Nat)
    (now : Timestamp) :
    (∀ b, Member name sys b →
      Member name (sys.after oci [.commitBlob name digest size now]) b) ∧
    ∃ size', Member name (sys.after oci [.commitBlob name digest size now]) (digest, size') := by
  obtain ⟨cat, refines⟩ := sound
  obtain ⟨id, live⟩ := Option.isSome_iff_exists.mp live
  have store : (sys.after oci [.commitBlob name digest size now]).store =
      sys.store.apply (sys.store.blobCommitBatch id digest size now) :=
    Registry.commitBlob_known refines.coherent.cached live digest size now
  have names : (sys.after oci [.commitBlob name digest size now]).store.repoByName name =
      some id := by
    rw [store]
    exact ((Store.sameNames_within (Store.blobCommitBatch_within _ _ _)).repoByName name).trans live
  have record (d : Digest) : (sys.after oci [.commitBlob name digest size now]).store.get
      (.repoBlob id d) = if sys.store.existsPrefix (.repoBlob id digest) = false ∧ digest = d then
        some (.repoBlob { size, addedAt := now.secs }) else sys.store.get (.repoBlob id d) := by
    rw [store, Store.get_apply, Store.blobCommitBatch_repoBlob]
    by_cases new : sys.store.existsPrefix (.repoBlob id digest) = false ∧ digest = d
    · rw [if_pos new, if_pos ⟨new.1, rfl, new.2⟩]
      rfl
    · rw [if_neg new, if_neg fun h => new ⟨h.1, h.2.2⟩]
      rfl
  have has : sys.store.existsPrefix (.repoBlob id digest) = sys.store.has (.repoBlob id digest) :=
    Store.existsPrefix_repoBlob
  constructor
  · rintro ⟨d, n⟩ ⟨id', live', old, stored, sized⟩
    cases live.symm.trans live'
    refine ⟨id, names, old, ?_, sized⟩
    rw [Store.repoBlobRecord_eq_some] at stored ⊢
    rw [record, if_neg ?_, stored]
    rintro ⟨absent, rfl⟩
    rw [has, Store.has, stored] at absent
    cases absent
  · cases known : sys.store.existsPrefix (.repoBlob id digest) with
    | false =>
      refine ⟨size, id, names, { size, addedAt := now.secs }, ?_, rfl⟩
      rw [Store.repoBlobRecord_eq_some, record, if_pos ⟨known, rfl⟩]
    | true =>
      rw [has] at known
      obtain ⟨v, stored⟩ := Option.isSome_iff_exists.mp known
      have fits := Store.fits_of_get stored
      cases v with
      | repoBlob old =>
        refine ⟨old.size, id, names, old, ?_, rfl⟩
        rw [Store.repoBlobRecord_eq_some, record, if_neg ?_, stored]
        rintro ⟨absent, -⟩
        rw [has, known] at absent
        cases absent
      | _ => cases fits

end Commits

/-- Digests that differ. -/
def heldDigest (i : Nat) : Digest := .sha256 ⟨Bytes.be 32 i, Bytes.be_length 32 i⟩

theorem heldDigest_inj {i j : Nat} (hi : i < 256 ^ 32) (hj : j < 256 ^ 32)
    (h : heldDigest i = heldDigest j) : i = j := by
  unfold heldDigest at h
  exact Bytes.be_inj hi hj (Subtype.mk.inj (Digest.sha256.inj h))

/-- A repository of so many blobs. -/
def stocked (n : Nat) : System :=
  (System.start {} 1).after indexOci
    ((List.range n).map fun i => .commitBlob "app".toList (heldDigest i) 1 (.fromSecs 1))

theorem stocked_succ (n : Nat) : stocked (n + 1) = (stocked n).after indexOci
    [.commitBlob "app".toList (heldDigest n) 1 (.fromSecs 1)] := by
  rw [stocked, List.range_succ, List.map_append, System.after, List.foldl_append]
  rfl

theorem stocked_reached (n : Nat) : (System.start {} 1).Between indexOci (stocked n) :=
  (System.start {} 1).between_after indexOci _

theorem stocked_sound (n : Nat) : (stocked n).Sound indexOci {} :=
  Ops.sound_between _ _ ⟨_, System.refines_start indexOci {} 1⟩ (stocked_reached n)

theorem stocked_members (n : Nat) :
    ((stocked (n + 1)).store.repoByName "app".toList).isSome = true ∧
      ∀ i ≤ n, ∃ size, Ops.Member "app".toList (stocked (n + 1)) (heldDigest i, size) := by
  induction n with
  | zero =>
    have first : ((stocked 1).store.repoByName "app".toList).any (fun id =>
        ((stocked 1).store.repoBlobRecord id (heldDigest 0)).isSome) = true := by decide +kernel
    obtain ⟨id, live, held⟩ := (Option.any_eq_true _ _).mp first
    obtain ⟨record, stored⟩ := Option.isSome_iff_exists.mp held
    refine ⟨by rw [live]; rfl, fun i hi => ?_⟩
    rw [Nat.le_zero.mp hi]
    exact ⟨record.size, id, live, record, stored, rfl⟩
  | succ n ih =>
    obtain ⟨live, held⟩ := ih
    obtain ⟨kept, size, new⟩ := Ops.member_commit (stocked_sound (n + 1)) live (heldDigest (n + 1)) 1
      (.fromSecs 1)
    rw [stocked_succ]
    refine ⟨?_, fun i hi => ?_⟩
    · obtain ⟨id, named, -⟩ := new
      rw [named]
      rfl
    rcases Nat.le_succ_iff.mp hi with before | rfl
    · obtain ⟨size, member⟩ := held i before
      exact ⟨size, kept _ member⟩
    · exact ⟨size, new⟩

/-- The repository's page, with a blob committed before each of its reads. -/
def tallied (sys : System) : List System × Except RegistryError (Option Seam.RepoDetail) × System :=
  (Ops.repositoryDetail "app".toList).run.amid
    (List.replicate 4 (·.after indexOci [.commitBlob "app".toList emptyConfig 2 (.fromSecs 2)])) sys

theorem tallied_runs (others : System → System → Prop) (still : ∀ s, others s s)
    (commits : ∀ s, others s
      (s.after indexOci [.commitBlob "app".toList emptyConfig 2 (.fromSecs 2)])) (sys : System) :
    Thread.Runs others (Ops.repositoryDetail "app".toList).run sys (tallied sys).1 (tallied sys).2.1
      (tallied sys).2.2 := by
  refine Thread.runs_amid still _ (fun move mem s => ?_) sys
  obtain rfl := List.eq_of_mem_replicate mem
  exact commits s

/-- The memberships of the start stay through every commit beside the page. -/
theorem tallied_members {sys : System} (sound : sys.Sound indexOci {})
    (live : (sys.store.repoByName "app".toList).isSome = true) :
    ∀ at_ ∈ (tallied sys).1, at_.Sound indexOci {} ∧
      (at_.store.repoByName "app".toList).isSome = true ∧
      ∀ b, Ops.Member "app".toList sys b → Ops.Member "app".toList at_ b := by
  have moved := tallied_runs
    (fun s u => u = s ∨ u = s.after indexOci [.commitBlob "app".toList emptyConfig 2 (.fromSecs 2)])
    (fun s => Or.inl rfl) (fun s => Or.inr rfl) sys
  refine (moved.keeps (fun s u there h => ?_) ⟨sound, live, fun b member => member⟩
    (Ops.readings_repositoryDetail.keeps fun s u same there => ?_)).2
  · obtain ⟨sound, live, kept⟩ := there
    rcases h with rfl | rfl
    · exact ⟨sound, live, kept⟩
    · obtain ⟨stay, size, id, named, -⟩ :=
        Ops.member_commit sound live emptyConfig 2 (.fromSecs 2)
      refine ⟨Ops.sound_between _ _ sound (s.between_after indexOci _), ?_,
        fun b member => stay b (kept b member)⟩
      rw [named]
      rfl
  · unfold Ops.Member at there ⊢
    rw [same]
    exact there

/-- A count of all that the repository holds passes its first page. -/
theorem stocked_more {rows : List (Digest × Nat)}
    (whole : ∀ b, Ops.Member "app".toList (stocked (COUNT_STEP + 1)) b → b ∈ rows) :
    COUNT_STEP < rows.length := by
  have distinct : ((List.range (COUNT_STEP + 1)).map heldDigest).Nodup := by
    refine List.Nodup.map_on (fun i hi j hj same => ?_) List.nodup_range
    have small {k : Nat} (hk : k ∈ List.range (COUNT_STEP + 1)) : k < 256 ^ 32 :=
      lt_trans (List.mem_range.mp hk) (by decide)
    exact heldDigest_inj (small hi) (small hj) same
  have within : (List.range (COUNT_STEP + 1)).map heldDigest ⊆ rows.map Prod.fst := by
    intro d hd
    obtain ⟨i, hi, rfl⟩ := List.mem_map.mp hd
    obtain ⟨size, member⟩ :=
      (stocked_members COUNT_STEP).2 i (Nat.le_of_lt_succ (List.mem_range.mp hi))
    exact List.mem_map.mpr ⟨(heldDigest i, size), whole _ member, rfl⟩
  have counted := (List.subperm_of_subset distinct within).length_le
  rw [List.length_map, List.length_map, List.length_range] at counted
  exact counted

theorem two_pages {β : Type} {pages : List (List β)} {limit : Nat}
    (few : ∀ page ∈ pages, page.length ≤ limit) (more : limit < pages.flatten.length) :
    2 ≤ pages.length := by
  cases pages with
  | nil => exact absurd more (Nat.not_lt_zero _)
  | cons page rest =>
    cases rest with
    | nil =>
      rw [List.flatten_singleton] at more
      exact absurd more (Nat.not_lt.mpr (few page (List.mem_singleton.mpr rfl)))
    | cons _ _ => exact Nat.le_add_left 2 _

theorem repository_tallies_pages : ∃ (detail : Seam.RepoDetail) (pages : List (List (Digest × Nat))),
    Thread.Runs (System.Between indexOci) (Ops.repositoryDetail "app".toList).run
      (stocked (COUNT_STEP + 1)) (tallied (stocked (COUNT_STEP + 1))).1 (.ok (some detail))
      (tallied (stocked (COUNT_STEP + 1))).2.2 ∧
      2 ≤ pages.length ∧ detail.blobs.count = pages.flatten.length ∧
      detail.sizeBytes = pages.foldl Ops.addPage 0 := by
  have members := tallied_members (stocked_sound _) (stocked_members COUNT_STEP).1
  have run := tallied_runs (System.Between indexOci) (System.between_refl indexOci)
    (·.between_after indexOci _) (stocked (COUNT_STEP + 1))
  obtain ⟨detail, answer⟩ := repository_page_served (stocked_reached _) run
    fun at_ read => ⟨(members at_ read).1, (members at_ read).2.1⟩
  rw [answer] at run
  obtain ⟨_, _, _, ofBlobs, _, _, pages, made, seen, -, -, -, blobs, few, bytes, -⟩ :=
    repository_tallies indexOci {} 1 "app".toList _ _ _ _ (stocked_reached _) run
  cases made
  have more : COUNT_STEP < pages.flatten.length := by
    cases complete : detail.blobs.complete with
    | false =>
      rw [← blobs.count, (blobs.short complete).1]
      decide
    | true =>
      refine stocked_more fun b member => blobs.whole complete b fun at_ read => ?_
      refine (members at_ ?_).2.2 b member
      rw [seen]
      exact List.mem_append_right _ (List.mem_append_right _ read)
  exact ⟨detail, pages, run, two_pages few more, blobs.count, bytes⟩

/-- With nothing changed between the pages a tally is exact, up to the ceiling. -/
theorem exact_count {β : Type} {tally : Seam.Tally} {lt : β → β → Prop} {stored : System → β → Prop}
    {seen : List System} {rows all : List β} (counts : tally.Counts lt stored seen rows)
    (irrefl : ∀ a, ¬lt a a) (sorted : all.Pairwise lt)
    (same : ∀ at_ ∈ seen, ∀ b, stored at_ b ↔ b ∈ all) :
    tally.count = min all.length COUNT_CEILING ∧
      (tally.complete = true ↔ all.length ≤ COUNT_CEILING) := by
  have distinct {l : List β} (h : l.Pairwise lt) : l.Nodup :=
    h.imp fun {a b} (ab : lt a b) (same : a = b) => irrefl b (same ▸ ab)
  have within : rows ⊆ all := by
    intro b hb
    obtain ⟨at_, read, there⟩ := counts.there b hb
    exact (same at_ read b).mp there
  have few : rows.length ≤ all.length :=
    (List.subperm_of_subset (distinct counts.inOrder) within).length_le
  have count := counts.count
  have bound := counts.bound
  cases complete : tally.complete with
  | true =>
    have whole : all ⊆ rows := fun b hb =>
      counts.whole complete b fun at_ read => (same at_ read b).mpr hb
    have many := (List.subperm_of_subset (distinct sorted) whole).length_le
    simp only [true_iff]
    omega
  | false =>
    obtain ⟨ceiling, b, ⟨at_, read, there⟩, behind⟩ := counts.short complete
    have missed : b ∉ rows := fun hb => irrefl b (behind b hb)
    have more := (List.subperm_of_subset
      (List.nodup_cons.mpr ⟨missed, distinct counts.inOrder⟩)
      (List.cons_subset.mpr ⟨(same at_ read b).mp there, within⟩)).length_le
    rw [List.length_cons] at more
    simp only [Bool.false_eq_true, false_iff]
    omega

end Summ
