import Summ.Registry.Bodies
import Summ.Registry.Newest
import Summ.Serial.Histories

/-!
# Requests that read the clock

A request that changes tags reads the clock when it starts, and applies its batch
later, under the lock of its repository: requests apply one at a time, in any
order. A push also plans once before it takes the lock, which may intern its
name; if that plan fails the request ends.
-/

namespace Summ

/-- The instant of a request that changes tags. -/
def Call.stamp : Call → Option Timestamp
  | operation (.putManifest put _) => some put.now
  | operation (.deleteTag _ _ now) | operation (.deleteManifest _ _ now) => some now
  | _ => none

/-- The event a push leaves under each of its tags. -/
def TagEvent.creation (c : CheckedPut) : TagEvent where
  event := .created
  mediaType := c.parsed.mediaType
  size := c.put.body.length

/-- The event a deletion of a tag leaves. -/
def TagEvent.deletion (manifest : Option ManifestRecord) : TagEvent where
  event := .deleted
  mediaType := (manifest.map ManifestRecord.mediaType).getD DEFAULT_MEDIA_TYPE
  size := (manifest.map ManifestRecord.size).getD 0

/-- A request that has read the clock, and whether it has been planned. -/
structure Started where
  call : Call
  planned : Bool

structure Clocked where
  system : System
  clock : Timestamp
  started : List Started

namespace Clocked

inductive Act
  | tick (now : Timestamp)
  | start (c : Call)
  | plan (i : Nat)
  | apply (i : Nat)
  | other (c : Call)

def init (options : RegistryOptions) (entries : Nat) (clock : Timestamp) : Clocked where
  system := .start options entries
  clock := clock
  started := []

def store (st : Clocked) : Store := st.system.store

def step (oci : Oci) (st : Clocked) : Act → Option Clocked
  | .tick now => if st.clock.millis ≤ now.millis then some { st with clock := now } else none
  | .start c =>
    if c.stamp = some st.clock then
      let planned := match c with
        | .operation (.putManifest ..) => false
        | _ => true
      some { st with started := st.started ++ [{ call := c, planned }] }
    else none
  | .plan i => st.started[i]?.bind fun
    | { call := .operation (.putManifest put extraTags), planned := false } =>
      match st.system.registry.planManifestPutTagged oci put extraTags with
      | (.ok _, registry) => some { st with
          system := { st.system with registry }
          started := st.started.modify i fun w => { w with planned := true } }
      | (.error _, registry) => some { st with
          system := { st.system with registry }
          started := st.started.eraseIdx i }
    | _ => none
  | .apply i => st.started[i]?.bind fun w =>
    if w.planned then
      (System.step oci st.system w.call).map fun system =>
        { st with system, started := st.started.eraseIdx i }
    else none
  | .other c =>
    if c.retags then none
    else (System.step oci st.system c).map fun system =>
      let started := match c with
        | .restart _ => []
        | _ => st.started
      { st with system, started }

end Clocked

/-- The events a call records, each with its repository, tag, time and digest. -/
inductive Call.Records (oci : Oci) (options : RegistryOptions) (s : Store) :
    Call → RepoId → Tag → Timestamp → Digest → TagEvent → Prop
  | putManifest {put : ManifestPut} {extraTags : List Text} {c : CheckedPut} {id : RepoId} {t : Tag}
      (checked : checkPut oci options put = .ok c) (live : s.repoByName put.repo = some id)
      (tagged : t ∈ c.validTags extraTags) :
      Records oci options s (.operation (.putManifest put extraTags)) id t put.now c.digest
        (.creation c)
  | deleteTag {repo : Text} {t : Tag} {now : Timestamp} {id : RepoId} {d : Digest}
      (live : s.repoByName repo = some id) (points : s.tagDigest id t = some d) :
      Records oci options s (.operation (.deleteTag repo t now)) id t now d
        (.deletion (s.manifestRecord id d))
  | deleteManifest {repo : Text} {d : Digest} {now : Timestamp} {id : RepoId} {t : Tag}
      {record : ManifestRecord} (live : s.repoByName repo = some id)
      (stored : s.manifestRecord id d = some record) (points : s.tagDigest id t = some d) :
      Records oci options s (.operation (.deleteManifest repo d now)) id t now d
        (.deletion (some record))

namespace Store

variable {s t : Store}

theorem pushBatch_tagHistory {repo : RepoId} {c : CheckedPut} {ts : List Tag} (r : RepoId) (t : Tag)
    (at_ : Timestamp) (d : Digest) :
    WriteBatch.effect (s.pushBatch repo c ts) (.tagHistory r t at_ d) =
      if (repo = r ∧ c.put.now = at_ ∧ c.digest = d) ∧ t ∈ ts then
        some (some (.event (.creation c)))
      else none := by
  rw [pushBatch_records rfl]
  have record : WriteBatch.effect (recordOps repo c) (.tagHistory r t at_ d) = none := by
    cases hs : c.parsed.subject <;> simp [recordOps, MetaOp.effect, hs]
  rw [record, Option.or_none, if_neg (by simp), Option.or_none]
  refine WriteBatch.effect_flatMap_at (fun u => ?_) ts
  rw [setTagOps_tagHistory]
  refine if_congr ?_ rfl rfl
  simp only [CheckedPut.target]
  tauto

theorem manifestDelete_tagHistory {repo : RepoId} {digest : Digest} {record : ManifestRecord}
    {now : Timestamp} (r : RepoId) (t : Tag) (at_ : Timestamp) (d : Digest) :
    WriteBatch.effect (s.manifestDeleteBatch repo digest record now) (.tagHistory r t at_ d) =
      if (repo = r ∧ now = at_ ∧ digest = d) ∧ s.has (.manifestTag repo digest t) = true then
        some (some (.event (.deletion (some record))))
      else none := by
  rw [manifestDelete_history rfl, WriteBatch.effect_flatMap_at (x := t)
    (P := repo = r ∧ now = at_ ∧ digest = d) (fun u => ?_)]
  · exact if_congr (and_congr_right fun _ => mem_tagsOf) rfl rfl
  · rw [deleteTagOps_tagHistory]
    refine if_congr ?_ rfl rfl
    tauto

/-- What the changes of tags from `s` to `t` are, each with the event it left. -/
structure Changes (s t : Store) (W : RepoId → Tag → Option (Timestamp × Digest × TagEvent)) :
    Prop where
  wrote : ∀ r u now d e, W r u = some (now, d, e) → t.tagDigest r u = e.leaves d ∧
    ∀ at' d', t.get (.tagHistory r u at' d') =
      if now = at' ∧ d = d' then some (.event e) else s.get (.tagHistory r u at' d')
  kept : ∀ r u, W r u = none → t.tagDigest r u = s.tagDigest r u ∧
    ∀ at' d', t.get (.tagHistory r u at' d') = s.get (.tagHistory r u at' d')

/-- Every tag resolves to what its newest event says. -/
def TagsTold (s : Store) : Prop := ∀ r u, s.tagDigest r u = s.told r u

/-- No event of `s` is another in `t`. -/
def EventsKept (s t : Store) : Prop :=
  ∀ r u at_ d e e', s.get (.tagHistory r u at_ d) = some e →
    t.get (.tagHistory r u at_ d) = some e' → e' = e

section
variable {W : RepoId → Tag → Option (Timestamp × Digest × TagEvent)}

theorem TagsTold.of_changes (hs : s.TagsTold) (changes : s.Changes t W)
    (timely : ∀ r u now d e, W r u = some (now, d, e) → s.Timely r u now d e) : t.TagsTold := by
  intro r u
  cases hW : W r u with
  | none =>
    obtain ⟨points, events⟩ := changes.kept r u hW
    rw [points, hs r u, told, told, newest_congr events]
  | some w =>
    obtain ⟨now, d, e⟩ := w
    obtain ⟨points, events⟩ := changes.wrote r u now d e hW
    rw [points, told_of_wrote events (timely r u now d e hW)]

theorem eventsKept_of_changes (changes : s.Changes t W)
    (timely : ∀ r u now d e, W r u = some (now, d, e) → s.Timely r u now d e) :
    s.EventsKept t := by
  intro r u at_ d e e' before after
  cases hW : W r u with
  | none =>
    rw [(changes.kept r u hW).2, before] at after
    exact (Option.some.inj after).symm
  | some w =>
    obtain ⟨now, digest, event⟩ := w
    rw [(changes.wrote r u now digest event hW).2] at after
    split at after
    · rename_i same
      obtain ⟨rfl, rfl⟩ := same
      have fits := fits_of_get before
      cases e with
      | event other =>
        rw [(timely r u now digest event hW).own other before]
        exact (Option.some.inj after).symm
      | _ => cases fits
    · rw [before] at after
      exact (Option.some.inj after).symm

end

/-- Stores with the same contents differ in no tag. -/
theorem SameContents.changes (same : s.SameContents t) : s.Changes t fun _ _ => none where
  wrote r u now d e h := by cases h
  kept r u _ := ⟨tagDigest_congr (same _ rfl), fun at' d' => same _ rfl⟩

end Store

section
variable {oci : Oci} {options : RegistryOptions} {s t : Store} {c : Call} {accepted : Bool}

/-- A batch that changes some tags, and leaves one event under each. -/
theorem Store.changes_of_batch {batch : WriteBatch} {P : RepoId → Tag → Prop}
    [∀ r u, Decidable (P r u)] {now : Timestamp} {d : Digest} {e : TagEvent}
    (points : ∀ r u,
      (s.apply batch).tagDigest r u = if P r u then e.leaves d else s.tagDigest r u)
    (events : ∀ r u at' d', WriteBatch.effect batch (.tagHistory r u at' d') =
      if P r u ∧ now = at' ∧ d = d' then some (some (.event e)) else none) :
    s.Changes (s.apply batch) fun r u => if P r u then some (now, d, e) else none where
  wrote r u at_ digest event h := by
    split at h
    · rename_i changed
      cases h
      refine ⟨by rw [points, if_pos changed], fun at' d' => ?_⟩
      rw [get_apply, events]
      by_cases same : now = at' ∧ d = d'
      · rw [if_pos same, if_pos ⟨changed, same⟩]
        rfl
      · rw [if_neg same, if_neg fun h => same h.2]
        rfl
    · cases h
  kept r u h := by
    have other : ¬P r u := by
      intro changed
      rw [if_pos changed] at h
      cases h
    refine ⟨by rw [points, if_neg other], fun at' d' => get_apply_of_effect ?_⟩
    rw [events, if_neg fun h => other h.1]

theorem Store.push_changes {repo : RepoId} {c : CheckedPut} {ts : List Tag} :
    s.Changes (s.apply (s.pushBatch repo c ts)) fun r u =>
      if repo = r ∧ u ∈ ts then some (c.put.now, c.digest, .creation c) else none := by
  refine changes_of_batch push_tagDigest fun r u at' d' => ?_
  rw [pushBatch_tagHistory]
  exact if_congr (by tauto) rfl rfl

theorem Store.deleteTag_changes {repo : RepoId} {tag : Tag} {digest : Digest} {now : Timestamp}
    {manifest : Option ManifestRecord} :
    s.Changes (s.apply (deleteTagOps repo tag digest manifest now)) fun r u =>
      if repo = r ∧ tag = u then some (now, digest, .deletion manifest) else none := by
  refine changes_of_batch deleteTag_tagDigest fun r u at' d' => ?_
  rw [deleteTagOps_tagHistory]
  exact if_congr (by tauto) rfl rfl

theorem Store.manifestDelete_changes {repo : RepoId} {digest : Digest} {record : ManifestRecord}
    {now : Timestamp} :
    s.Changes (s.apply (s.manifestDeleteBatch repo digest record now)) fun r u =>
      if repo = r ∧ s.has (.manifestTag repo digest u) = true then
        some (now, digest, .deletion (some record))
      else none := by
  refine changes_of_batch manifestDelete_tagDigest fun r u at' d' => ?_
  rw [manifestDelete_tagHistory]
  exact if_congr (by tauto) rfl rfl

theorem Store.Changes.of_same {s₀ : Store}
    {W : RepoId → Tag → Option (Timestamp × Digest × TagEvent)} (same : s.SameContents s₀)
    (changes : s₀.Changes t W) : s.Changes t W where
  wrote r u now d e h := by
    obtain ⟨points, events⟩ := changes.wrote r u now d e h
    refine ⟨points, fun at' d' => ?_⟩
    rw [events, same _ rfl]
  kept r u h := by
    obtain ⟨points, events⟩ := changes.kept r u h
    refine ⟨points.trans (tagDigest_congr (same _ rfl)), fun at' d' => ?_⟩
    rw [events, same _ rfl]

/-- What a call changes of tags, it records, or the repository is new. -/
theorem Effect.changes (h : Effect oci options s c accepted t) (named : s.Named)
    (indexed : s.TagsIndexed) (kind : c.retags = false ∨ c.stamp.isSome = true) :
    (∃ W, s.Changes t W ∧ ∀ r u now d e, W r u = some (now, d, e) →
      accepted = true ∧ c.Records oci options s r u now d e ∨
        ∀ at' d', s.has (.tagHistory r u at' d') = false) ∨
    ∃ id, t = s.apply (sweepFinishBatch id) := by
  cases hret : c.retags with
  | false =>
    cases h.edit with
    | push pushes checked interned tags => cases pushes ▸ hret
    | setTag record retags | deleteTag points retags | deleteManifest stored retags =>
      cases retags.symm.trans hret
    | finishSweep finishes => exact Or.inr ⟨_, rfl⟩
    | none same refs => exact Or.inl ⟨_, same.changes, fun _ _ _ _ _ h => by cases h⟩
  | true =>
    have stamped : c.stamp.isSome = true := by simpa [hret] using kind
    left
    cases h with
    | @putManifest put extraTags c id s₀ ts checked interned held tags =>
      refine ⟨_, .of_same interned.sameContents Store.push_changes, ?_⟩
      intro r u now d e h
      split at h
      · rename_i pushed
        obtain ⟨rfl, tagged⟩ := pushed
        cases h
        cases interned with
        | known stored =>
          obtain rfl : c.put = put := (checkPut_ok checked).1
          exact Or.inl ⟨rfl, .putManifest checked stored ((tags u).mp tagged)⟩
        | new absent room next =>
          -- nothing is stored under an id that has just been issued
          refine Or.inr fun at' d' => Bool.eq_false_iff.mpr fun has => ?_
          exact absurd (named.data _ id rfl has) (by rw [next]; exact UInt32.lt_irrefl _)
      · cases h
    | deleteTag live points =>
      refine ⟨_, Store.deleteTag_changes, ?_⟩
      intro r u now d e h
      split at h
      · rename_i same
        obtain ⟨rfl, rfl⟩ := same
        cases h
        exact Or.inl ⟨rfl, .deleteTag live points⟩
      · cases h
    | deleteManifest live stored =>
      refine ⟨_, Store.manifestDelete_changes, ?_⟩
      intro r u now d e h
      split at h
      · rename_i tagged
        obtain ⟨rfl, tagged⟩ := tagged
        cases h
        exact Or.inl ⟨rfl, .deleteManifest live stored ((indexed.reverse _ u _).mpr tagged)⟩
      · cases h
    | setTag | purgeManifest => cases stamped
    | refused kept =>
      have same : s.SameContents t := by
        rcases kept with rfl | ⟨name, id, -, interned⟩
        · exact .refl _
        · exact interned.sameContents
      exact ⟨_, same.changes, fun _ _ _ _ _ h => by cases h⟩
    | _ => cases hret

/-- A call whose events are timely leaves every tag as its newest event says. -/
theorem Effect.told (h : Effect oci options s c accepted t) (named : s.Named)
    (indexed : s.TagsIndexed) (kind : c.retags = false ∨ c.stamp.isSome = true)
    (timely : accepted = true → ∀ r u now d e,
      c.Records oci options s r u now d e → s.Timely r u now d e)
    (hs : s.TagsTold) : t.TagsTold ∧ s.EventsKept t := by
  rcases h.changes named indexed kind with ⟨W, changes, records⟩ | ⟨id, rfl⟩
  · have timely' (r : RepoId) (u : Tag) (now : Timestamp) (d : Digest) (e : TagEvent)
        (hW : W r u = some (now, d, e)) : s.Timely r u now d e := by
      rcases records r u now d e hW with ⟨accepted, recorded⟩ | none
      · exact timely accepted r u now d e recorded
      · constructor
        · intro entry hentry
          rw [Store.newest_eq_none.mpr none] at hentry
          cases hentry
        · intro other stored
          have := none now d
          rw [Store.has, stored] at this
          cases this
    exact ⟨hs.of_changes changes timely', Store.eventsKept_of_changes changes timely'⟩
  · have dropped (k : Key) : (s.apply (sweepFinishBatch id)).get k =
        if k.dropped id = true then none else s.get k := by
      rw [Store.get_apply, sweepFinishBatch_effect]
      split <;> rfl
    constructor
    · intro r u
      by_cases hr : r = id
      · have none : (s.apply (sweepFinishBatch id)).newest r u = none :=
          Store.newest_eq_none.mpr fun at' d' => by
            rw [Store.has, dropped, if_pos (by simp [Key.dropped, Key.repo, hr])]
            rfl
        rw [Store.told, none, Store.tagDigest_eq, dropped,
          if_pos (by simp [Key.dropped, Key.repo, hr])]
        rfl
      · have kept (k : Key) (hk : k.dropped id = false) :
            (s.apply (sweepFinishBatch id)).get k = s.get k := by
          rw [dropped, hk]
          rfl
        have events (at' : Timestamp) (d' : Digest) := kept (.tagHistory r u at' d')
          (by simp [Key.dropped, Key.repo, hr])
        rw [Store.told, Store.newest_congr events, ← Store.told, ← hs r u]
        exact Store.tagDigest_congr (kept _ (by simp [Key.dropped, Key.repo, hr]))
    · intro r u at_ d e e' before after
      rw [dropped] at after
      split at after
      · cases after
      · rw [before] at after
        exact (Option.some.inj after).symm

end

/-! ## Runs -/

/-- A push that is only planned may intern its name. -/
theorem Registry.planned_served {oci : Oci} {r : Registry} (cached : r.Cached) (put : ManifestPut)
    (extraTags : List Text) :
    Served oci r (.operation (.putManifest put extraTags)) false
      (r.planManifestPutTagged oci put extraTags).2 := by
  unfold planManifestPutTagged
  cases checkPut oci r.options put with
  | error e => exact served_refused cached
  | ok c =>
    obtain ⟨interned, failed, options, kept⟩ := internRepo_spec cached put.repo
    simp only [planInterned_snd]
    refine ⟨.refused ?_, options, kept⟩
    cases hid : (r.internRepo put.repo).1 with
    | error e => exact Or.inl (failed e hid)
    | ok id => exact Or.inr ⟨put.repo, id, rfl, interned id hid⟩

/-- Not the key of an event of that instant or a later one. -/
def Key.isBefore (now : Timestamp) : Key → Bool
  | .tagHistory _ _ at_ _ => decide (at_.millis < now.millis)
  | _ => true

/-- What comes after every event stored finds none in its way. -/
theorem Store.timely_of_isBefore {s : Store} {repo : RepoId} {tag : Tag} {now : Timestamp}
    {digest : Digest} {event : TagEvent}
    (before : ∀ k v, s.get k = some v → k.isBefore now = true) :
    s.Timely repo tag now digest event where
  newest entry hentry := by
    obtain ⟨-, stored, -⟩ := Store.newest_eq_some hentry
    exact Or.inl (Or.inl (of_decide_eq_true (before _ _ stored)))
  own other stored :=
    absurd (of_decide_eq_true (before _ _ stored)) (Nat.lt_irrefl _)

theorem Call.Records.stamp {oci : Oci} {options : RegistryOptions} {s : Store} {c : Call}
    {id : RepoId} {t : Tag} {now : Timestamp} {d : Digest} {event : TagEvent}
    (records : c.Records oci options s id t now d event) : c.stamp = some now := by
  cases records <;> rfl

namespace Clocked

/-- A change that is applied finds no event in its way. -/
def Timely (oci : Oci) (st : Clocked) : Act → Prop
  | .apply i => ∀ w ∈ st.started[i]?, ∀ system, st.system.call oci w.call = some (true, system) →
      ∀ id t now d event, w.call.Records oci st.system.registry.options st.store id t now d event →
        st.store.Timely id t now d event
  | _ => True

structure Good (options : RegistryOptions) (st : Clocked) : Prop where
  coherent : st.system.Coherent
  opts : st.system.registry.options = options
  indexed : st.store.TagsIndexed
  told : st.store.TagsTold
  stamped : ∀ w ∈ st.started, w.call.stamp.isSome = true

theorem good_init (options : RegistryOptions) (entries : Nat) (clock : Timestamp) :
    (init options entries clock).Good options where
  coherent := System.coherent_start options entries
  opts := rfl
  indexed := Store.tagsIndexed_empty
  told r u := by
    have none : (∅ : Store).newest r u = none := Store.newest_eq_none.mpr fun _ _ => rfl
    change (∅ : Store).tagDigest r u = (∅ : Store).told r u
    rw [Store.told, none, Store.tagDigest_eq]
    rfl
  stamped w h := by cases h

variable {oci : Oci} {options : RegistryOptions} {st next : Clocked}

theorem eventsKept_refl (s : Store) : s.EventsKept s := by
  intro r u at_ d e e' before after
  exact Option.some.inj (after.symm.trans before)

/-- A call that is served from a good state. -/
theorem good_of_call (good : st.Good options) {c : Call} {system : System} {started : List Started}
    (hcall : System.step oci st.system c = some system)
    (kind : c.retags = false ∨ c.stamp.isSome = true)
    (timely : ∀ system, st.system.call oci c = some (true, system) → ∀ r u now d e,
      c.Records oci st.system.registry.options st.store r u now d e → st.store.Timely r u now d e)
    (stamped : ∀ w ∈ started, w.call.stamp.isSome = true) :
    Good options { st with system, started } ∧ st.store.EventsKept system.store := by
  obtain ⟨accepted, hcall⟩ := System.call_of_step hcall
  have served := System.effect_of_call good.coherent hcall
  obtain ⟨told, kept⟩ :=
    served.effect.told good.coherent.named good.indexed kind
      (fun h => timely system (by rw [hcall, h])) good.told
  exact ⟨{
    coherent := System.coherent_of_call good.coherent hcall
    opts := served.options.trans good.opts
    indexed := served.effect.edit.tagsIndexed good.indexed
    told
    stamped }, kept⟩

/-- A push that is planned from a good state. -/
theorem good_of_planned (good : st.Good options) (put : ManifestPut) (extraTags : List Text)
    {started : List Started} (stamped : ∀ w ∈ started, w.call.stamp.isSome = true) :
    let registry := (st.system.registry.planManifestPutTagged oci put extraTags).2
    Good options { st with system := { st.system with registry }, started } ∧
      st.store.EventsKept registry.store := by
  intro registry
  have served : Served oci st.system.registry (.operation (.putManifest put extraTags)) false
      registry := Registry.planned_served good.coherent.cached put extraTags
  have same : st.store.SameContents registry.store := by
    cases served.effect with
    | refused kept =>
      rcases kept with kept | ⟨name, id, -, interned⟩
      · intro k _
        rw [kept]
        rfl
      · exact interned.sameContents
  have changes := same.changes
  refine ⟨{
    coherent := ⟨served.effect.named good.coherent.named, served.cached, fun w hw => ?_⟩
    opts := served.options.trans good.opts
    indexed := served.effect.edit.tagsIndexed good.indexed
    told := good.told.of_changes changes fun _ _ _ _ _ h => by cases h
    stamped }, Store.eventsKept_of_changes changes fun _ _ _ _ _ h => by cases h⟩
  obtain ⟨issued, gone⟩ := good.coherent.sweeping w hw
  exact served.effect.gone good.coherent.named issued gone

theorem Good.step (good : st.Good options) {act : Act} (hstep : Clocked.step oci st act = some next)
    (timely : st.Timely oci act) : next.Good options ∧ st.store.EventsKept next.store := by
  cases act with
  | tick now =>
    simp only [Clocked.step] at hstep
    split at hstep <;> cases hstep
    exact ⟨⟨good.coherent, good.opts, good.indexed, good.told, good.stamped⟩, eventsKept_refl _⟩
  | start c =>
    simp only [Clocked.step] at hstep
    split at hstep <;> cases hstep
    rename_i stamp
    refine ⟨⟨good.coherent, good.opts, good.indexed, good.told, fun w hw => ?_⟩, eventsKept_refl _⟩
    rcases List.mem_append.mp hw with hw | hw
    · exact good.stamped w hw
    · rw [List.mem_singleton.mp hw]
      change c.stamp.isSome = true
      rw [stamp]
      rfl
  | plan i =>
    obtain ⟨w, hw, hstep⟩ := Option.bind_eq_some_iff.mp hstep
    split at hstep
    · rename_i put extraTags
      have good' {started : List Started} (stamped : ∀ w ∈ started, w.call.stamp.isSome = true) :=
        @good_of_planned oci options st good put extraTags started stamped
      split at hstep <;> rename_i hplan <;> cases hstep <;> rw [hplan] at good'
      · refine good' fun w' hw' => ?_
        obtain ⟨j, hj⟩ := List.mem_iff_getElem?.mp hw'
        rw [List.getElem?_modify] at hj
        obtain ⟨w, hw, rfl⟩ := Option.map_eq_some_iff.mp hj
        have stamped := good.stamped w (List.mem_of_getElem? hw)
        split <;> exact stamped
      · exact good' fun w hw => good.stamped w (List.mem_of_mem_eraseIdx hw)
    · cases hstep
  | apply i =>
    obtain ⟨w, hw, hstep⟩ := Option.bind_eq_some_iff.mp hstep
    split at hstep
    · obtain ⟨system, hcall, rfl⟩ := Option.map_eq_some_iff.mp hstep
      have stamped := good.stamped w (List.mem_of_getElem? hw)
      exact good_of_call good hcall (Or.inr stamped) (timely w hw)
        fun w hw => good.stamped w (List.mem_of_mem_eraseIdx hw)
    · cases hstep
  | other c =>
    simp only [Clocked.step] at hstep
    split at hstep
    · cases hstep
    · rename_i kind
      obtain ⟨system, hcall, rfl⟩ := Option.map_eq_some_iff.mp hstep
      refine good_of_call good hcall (Or.inl (Bool.eq_false_iff.mpr kind)) ?_ ?_
      · intro system _ r u now d e recorded
        cases recorded <;> exact absurd rfl kind
      · intro w hw
        split at hw
        · cases hw
        · exact good.stamped w hw

/-- A change applied after the instant of every event stored. -/
def later (st : Clocked) : Act → Bool
  | .apply i => st.started[i]?.all fun w => w.call.stamp.all fun now =>
      st.store.map.entries.all fun e => e.1.isBefore now
  | _ => true

theorem timely_of_later {oci : Oci} {st : Clocked} {act : Act} (later : st.later act = true) :
    st.Timely oci act := by
  cases act with
  | apply i =>
    intro w hw system _ id t now d event records
    rw [Clocked.later, Option.mem_def.mp hw, Option.all_some, records.stamp, Option.all_some] at later
    exact Store.timely_of_isBefore fun k v stored =>
      List.all_eq_true.mp later (k, v) (OrderedMap.get_eq_some.mp stored)
  | tick | start | plan | other => trivial

end Clocked

/-- In every run whose applied changes find no event in their way: a tag resolves
to a digest exactly when its newest event created it there, it is absent exactly
when its newest event is a deletion or it has none, and no step puts another
event in the place of a stored one. -/
theorem history_tells_tag (oci : Oci) (options : RegistryOptions) (entries : Nat)
    (clock : Timestamp) (acts : List Clocked.Act) (st : Clocked)
    (run : Transition.exec (Clocked.step oci) (.init options entries clock) acts = some st)
    (timely : Transition.Meets (Clocked.step oci) (fun st act => st.Timely oci act)
      (.init options entries clock) acts) :
    (∀ id tag,
      (∀ d, (∃ entry, st.store.newest id tag = some entry ∧ entry.event.event = .created ∧
          entry.digest = d) ↔ st.store.tagDigest id tag = some d) ∧
      (st.store.tagDigest id tag = none ↔
        ∀ entry, st.store.newest id tag = some entry → entry.event.event = .deleted)) ∧
    ∀ pre act post mid next, acts = pre ++ act :: post →
      Transition.exec (Clocked.step oci) (.init options entries clock) pre = some mid →
      Clocked.step oci mid act = some next → mid.store.EventsKept next.store := by
  have good {as : List Clocked.Act} {st : Clocked} (within : as <+: acts)
      (run : Transition.exec (Clocked.step oci) (.init options entries clock) as = some st) :
      st.Good options :=
    Transition.exec_invariant (fun _ _ _ good timely hstep => (good.step hstep timely).1)
      (Clocked.good_init options entries clock) (Transition.meets_prefix within timely) run
  refine ⟨fun id tag => ?_, ?_⟩
  · have told := (good List.prefix_rfl run).told id tag
    rw [told, Store.told]
    cases hnewest : st.store.newest id tag with
    | none => simp
    | some entry => cases hkind : entry.event.event <;> simp [TagEvent.leaves, hkind]
  · rintro pre act post mid next rfl before hstep
    have here := good (List.prefix_append pre (act :: post)) before
    have next' := (Transition.meets_suffix timely before).1
    exact (here.step hstep next').2

/-- A push starts at one second, and is planned and applied. -/
def plannedPush : List Clocked.Act :=
  [.start (.operation (pushIndex emptyIndex (.tag latestTag) 1)), .plan 0]

/-- It is applied, and at the next second its tag is deleted. -/
def pushedAndDeleted : List Clocked.Act :=
  plannedPush ++ ([.apply 0, .tick (.fromSecs 2),
    .start (.operation (.deleteTag "app".toList latestTag (.fromSecs 2))), .apply 0] :
      List Clocked.Act)

theorem history_tells_tag_deleted : ∃ st entry,
    Transition.exec (Clocked.step indexOci) (.init {} 1 (.fromSecs 1)) pushedAndDeleted = some st ∧
      st.store.tagDigest 0 latestTag = none ∧ st.store.newest 0 latestTag = some entry ∧
      entry.event.event = .deleted := by
  have facts : (Transition.exec (Clocked.step indexOci) (.init {} 1 (.fromSecs 1))
      pushedAndDeleted).map (fun st => (st.store.tagDigest 0 latestTag,
        (st.store.newest 0 latestTag).isSome)) = some (none, true) := by decide +kernel
  obtain ⟨st, run, told⟩ := Option.map_eq_some_iff.mp facts
  obtain ⟨absent, event⟩ := Prod.mk.inj told
  obtain ⟨entry, newest⟩ := Option.isSome_iff_exists.mp event
  have later : Transition.Meets (Clocked.step indexOci) (fun st act => st.later act = true)
      (.init {} 1 (.fromSecs 1)) pushedAndDeleted := by decide +kernel
  have tells := (history_tells_tag indexOci {} 1 (.fromSecs 1) pushedAndDeleted st run
    (Transition.meets_mono (fun _ _ => Clocked.timely_of_later) later)).1 0 latestTag
  exact ⟨st, entry, run, absent, newest, tells.2.mp absent entry newest⟩

/-- A push is applied; a deletion starts, then a second push; the second push is
applied before the deletion. -/
def deletedLate : List Clocked.Act :=
  plannedPush ++ ([.apply 0, .tick (.fromSecs 2),
    .start (.operation (.deleteTag "app".toList latestTag (.fromSecs 2))), .tick (.fromSecs 3),
    .start (.operation (pushIndex emptyIndex (.tag latestTag) 3)), .plan 1, .apply 1, .apply 0] :
      List Clocked.Act)

/-- The tag is absent and its newest event created it. -/
theorem history_denies_tag : ¬∀ (oci : Oci) (options : RegistryOptions) (entries : Nat)
    (clock : Timestamp) (acts : List Clocked.Act) (st : Clocked),
    Transition.exec (Clocked.step oci) (.init options entries clock) acts = some st →
    (∀ id tag,
      (∀ d, (∃ entry, st.store.newest id tag = some entry ∧ entry.event.event = .created ∧
          entry.digest = d) ↔ st.store.tagDigest id tag = some d) ∧
      (st.store.tagDigest id tag = none ↔
        ∀ entry, st.store.newest id tag = some entry → entry.event.event = .deleted)) ∧
    ∀ pre act post mid next, acts = pre ++ act :: post →
      Transition.exec (Clocked.step oci) (.init options entries clock) pre = some mid →
      Clocked.step oci mid act = some next → mid.store.EventsKept next.store := by
  intro tells
  have facts : (Transition.exec (Clocked.step indexOci) (.init {} 1 (.fromSecs 1)) deletedLate).map
      (fun st => (st.store.tagDigest 0 latestTag,
        (st.store.newest 0 latestTag).map fun entry => entry.event.event)) =
      some (none, some .created) := by decide +kernel
  obtain ⟨st, run, told⟩ := Option.map_eq_some_iff.mp facts
  obtain ⟨absent, created⟩ := Prod.mk.inj told
  obtain ⟨entry, newest, kind⟩ := Option.map_eq_some_iff.mp created
  have deleted := ((tells indexOci {} 1 (.fromSecs 1) deletedLate st run).1 0 latestTag).2.mp absent
    entry newest
  rw [kind] at deleted
  cases deleted

end Summ
