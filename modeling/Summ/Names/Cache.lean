import Summ.Names.Steps

/-!
# The cache agrees with the store

`CacheCoherent` says that a cached id is the stored one, or a removal of the
name has yet to forget the entry. It survives every step as long as a request
publishes only such an id (`Fresh`): a reader that read a name before its
removal, and publishes it after, is what breaks it.
-/

namespace Summ

namespace Names

def Progress.isApplied : Progress → Bool
  | .applied _ => true
  | _ => false

def Progress.returnedId : Progress → Option RepoId
  | .returned id => id
  | _ => none

namespace State

/-- A removal of the name has applied its batch and still has to forget it. -/
def Forgetting (s : State) (name : Text) : Prop :=
  ∃ x ∈ s.requests, x.1.removed = some name ∧ x.2.isApplied = true

/-- A removal of the name has returned, and released the id. -/
def Released (s : State) (name : Text) (id : RepoId) : Prop :=
  ∃ x ∈ s.requests, x.1.removed = some name ∧ x.2.returnedId = some id

instance (s : State) (name : Text) : Decidable (s.Forgetting name) :=
  inferInstanceAs (Decidable (∃ x ∈ s.requests, _))

instance (s : State) (name : Text) (id : RepoId) : Decidable (s.Released name id) :=
  inferInstanceAs (Decidable (∃ x ∈ s.requests, _))

/-- The id may stand in the cache under the name. -/
def MayCache (s : State) (name : Text) (id : RepoId) : Prop :=
  s.store.repoByName name = some id ∨ s.Forgetting name ∧ ¬ s.Released name id

instance (s : State) (name : Text) (id : RepoId) : Decidable (s.MayCache name id) :=
  inferInstanceAs (Decidable (_ ∨ _))

end State

/-- A request publishes an id only where it may stand in the cache. -/
def Fresh (s : State) : Action → Prop
  | .arrive _ => True
  | .advance r => ∀ x ∈ s.requests[r]?, ∀ e ∈ publishes x.1 x.2, s.MayCache e.1 e.2

instance (s : State) : (a : Action) → Decidable (Fresh s a)
  | .arrive _ => isTrue trivial
  | .advance r =>
    inferInstanceAs (Decidable (∀ x ∈ s.requests[r]?, ∀ e ∈ publishes x.1 x.2, s.MayCache e.1 e.2))

/-! ## What a step does to removals -/

theorem forgetting_iff {s : State} {name : Text} :
    s.Forgetting name ↔ ∃ (r : Nat) (q : Request) (p : Progress), s.requests[r]? = some (q, p) ∧
      q.removed = some name ∧ p.isApplied = true := by
  simp only [State.Forgetting, List.mem_iff_getElem?, Prod.exists]
  tauto

theorem released_iff {s : State} {name : Text} {id : RepoId} :
    s.Released name id ↔ ∃ (r : Nat) (q : Request) (p : Progress), s.requests[r]? = some (q, p) ∧
      q.removed = some name ∧ p.returnedId = some id := by
  simp only [State.Released, List.mem_iff_getElem?, Prod.exists]
  tauto

/-- A removal of the name has taken it out of the store, where it had the id. -/
def State.Removed (s : State) (name : Text) (id : RepoId) : Prop :=
  ∃ (r : Nat) (q : Request) (p : Progress), s.requests[r]? = some (q, p) ∧
    q.removed = some name ∧ p.id = some id ∧ (p.isApplied = true ∨ p.isReturned = true)

theorem removed_of_released {s : State} {name : Text} {id : RepoId} (h : s.Released name id) :
    s.Removed name id := by
  obtain ⟨r, q, p, hget, removes, hid⟩ := released_iff.mp h
  refine ⟨r, q, p, hget, removes, ?_⟩
  cases p <;> cases hid
  exact ⟨rfl, Or.inr rfl⟩

section Moves
variable {s u : State} {r : Nat} {q : Request} {p p' : Progress} {name : Text} {id : RepoId}

/-- A removal has taken effect once its batch has unmapped the name. -/
theorem Moves.removal (moves : Moves s r q p p' u) (removes : q.removed = some name)
    (hid : p'.id = some id) (done : p'.isApplied = true ∨ p'.isReturned = true) :
    p.id = some id ∧ (p.isApplied = true ∨ p.isReturned = true) ∨
      s.store.Unmapped name id u.store := by
  cases moves with
  | hit _ _ | remembered _ =>
    cases q <;> cases removes <;> rcases done with done | done <;> cases done
  | tombstoned deletes =>
    cases deletes
    cases removes
    cases hid
    exact Or.inr (Store.unmapped_tombstone ..)
  | retired retires =>
    cases retires
    cases removes
    cases hid
    exact Or.inr (Store.unmapped_retire ..)
  | forgot _ => exact Or.inl ⟨hid, Or.inl rfl⟩
  | pushed pushes =>
    cases pushes
    cases removes
  | retracted sweeps | finished sweeps =>
    cases sweeps
    cases removes
  | absent _ _ =>
    rw [id_missed] at hid
    cases hid
  | exhausted _ | declined _ => cases hid
  | _ => rcases done with done | done <;> cases done

theorem Moves.forgetting (moves : Moves s r q p p' u) (at_ : s.requests[r]? = some (q, p))
    (h : s.Forgetting name) (kept : q.removed = some name → p.isApplied = false) :
    (u.goto r q p').Forgetting name := by
  obtain ⟨r', q', p'', hget, removes, applied⟩ := forgetting_iff.mp h
  refine forgetting_iff.mpr ⟨r', q', p'', ?_, removes, applied⟩
  rw [State.goto, moves.requests, Pool.get_set at_, if_neg, hget]
  rintro rfl
  cases hget.symm.trans at_
  rw [kept removes] at applied
  cases applied

theorem Moves.released (moves : Moves s r q p p' u) (at_ : s.requests[r]? = some (q, p))
    (h : (u.goto r q p').Released name id) :
    s.Released name id ∨ q.removed = some name ∧ p.isApplied = true := by
  obtain ⟨r', q', p'', hget, removes, hid⟩ := released_iff.mp h
  rcases requests_goto at_ moves.requests hget with ⟨rfl, rfl, rfl⟩ | ⟨-, hget⟩
  · refine Or.inr ⟨removes, ?_⟩
    cases moves with
    | forgot _ => rfl
    | hit _ _ | remembered _ | absent _ _ => cases q' <;> cases removes <;> cases hid
    | pushed pushes =>
      cases pushes
      cases removes
    | retracted sweeps | finished sweeps =>
      cases sweeps
      cases removes
    | _ => cases hid
  · exact Or.inl (released_iff.mpr ⟨r', q', p'', hget, removes, hid⟩)

/-- Forgetting empties the name's entry. -/
theorem Moves.forgets (moves : Moves s r q p p' u) (removes : q.removed = some name)
    (applied : p.isApplied = true) : u.interner.byName.peek name = none := by
  cases moves with
  | forgot removes' =>
    cases removes'.symm.trans removes
    exact (Lru.peek_pop ..).trans (if_pos rfl)
  | _ => cases applied

theorem Moves.returned (moves : Moves s r q p p' u) : p.isReturned = false := by
  cases moves <;> rfl

end Moves

/-! ## The invariant -/

/-- A cached id is the stored one or is about to be forgotten, and a removed id
is not stored under its name again. -/
structure CacheCoherent (s : State) : Prop extends Coherent s where
  removed : ∀ name id, s.Removed name id → s.store.repoByName name ≠ some id
  cached : ∀ name id, s.interner.byName.peek name = some id → s.MayCache name id

theorem cacheCoherent_init (options : RegistryOptions) (entries : Nat) :
    CacheCoherent (State.init options entries) where
  toCoherent := coherent_init options entries
  removed name id h := by
    obtain ⟨r, q, p, h, -⟩ := h
    simp [State.init] at h
  cached name id h := by simp [State.init, RepoInterner.withCapacity] at h

theorem CacheCoherent.not_released {s : State} (inv : CacheCoherent s) {name : Text} {id : RepoId}
    (h : s.MayCache name id) : ¬ s.Released name id := by
  rcases h with h | ⟨-, h⟩
  · intro released
    exact inv.removed name id (removed_of_released released) h
  · exact h

section Step
variable {s u : State} {r : Nat} {q : Request} {p p' : Progress} {name : Text} {id : RepoId}

/-- What may stand in the cache still may after a step that does not forget it. -/
theorem CacheCoherent.mayCache (inv : CacheCoherent s) (moves : Moves s r q p p' u)
    (at_ : s.requests[r]? = some (q, p)) (may : s.MayCache name id)
    (kept : q.removed = some name → p.isApplied = false) :
    (u.goto r q p').MayCache name id := by
  have unreleased : ¬ (u.goto r q p').Released name id := by
    intro h
    rcases moves.released at_ h with h | ⟨removes, applied⟩
    · exact inv.not_released may h
    · rw [kept removes] at applied
      cases applied
  have forgetting (h : s.Forgetting name) : (u.goto r q p').MayCache name id :=
    Or.inr ⟨moves.forgetting at_ h kept, unreleased⟩
  rcases may with stored | ⟨hforget, -⟩
  · rcases moves.names with same | ⟨name', allocates⟩ | ⟨name', id', unmaps, hp, unmapped⟩
    · exact Or.inl ((same.repoByName name).trans stored)
    · refine Or.inl ?_
      change u.store.repoByName name = some id
      rw [allocates.store, Store.internBatch_repoByName, if_neg, stored]
      rintro rfl
      -- the name has no id while its next one is allocated
      have none := inv.unmapped r q name (allocates.allocating ▸ at_) allocates.named
      cases none.symm.trans stored
    · by_cases hn : name = name'
      · subst hn
        refine Or.inr ⟨forgetting_iff.mpr ⟨r, q, p', ?_, (of_unmaps unmaps).1, hp ▸ rfl⟩,
          unreleased⟩
        rw [State.goto, moves.requests, Pool.get_set at_, if_pos rfl]
      · refine Or.inl ?_
        change u.store.repoByName name = some id
        rw [unmapped.repoByName, if_neg hn, stored]
  · exact forgetting hforget

theorem CacheCoherent.advance (inv : CacheCoherent s) (moves : Moves s r q p p' u)
    (at_ : s.requests[r]? = some (q, p))
    (fresh : ∀ e ∈ publishes q p, s.MayCache e.1 e.2) : CacheCoherent (u.goto r q p') where
  toCoherent := inv.toCoherent.advance moves at_
  removed name id h := by
    obtain ⟨r', q', p'', hget, removes, hid, done⟩ := h
    change u.store.repoByName name ≠ some id
    have older (h : s.Removed name id) : u.store.repoByName name ≠ some id := by
      have old := inv.removed name id h
      obtain ⟨r₀, q₀, p₀, hget₀, removes₀, hid₀, -⟩ := h
      rcases moves.names with same | ⟨name', allocates⟩ | ⟨name', id', -, -, unmapped⟩
      · rwa [same.repoByName]
      · rw [allocates.store, Store.internBatch_repoByName]
        split
        · rintro ⟨⟩
          exact UInt32.lt_irrefl _ (inv.of_holds hget₀ (name_of_removed removes₀) hid₀).1
        · exact old
      · rw [unmapped.repoByName]
        split
        · rintro ⟨⟩
        · exact old
    rcases requests_goto at_ moves.requests hget with ⟨rfl, rfl, rfl⟩ | ⟨-, hget⟩
    · rcases moves.removal removes hid done with ⟨hid, done⟩ | unmapped
      · exact older ⟨r', q', p, at_, removes, hid, done⟩
      · rw [unmapped.repoByName, if_pos rfl]
        rintro ⟨⟩
    · exact older ⟨r', q', p'', hget, removes, hid, done⟩
  cached name id h := by
    have may : s.MayCache name id := by
      rcases moves.cache h with h | h
      · exact inv.cached name id h
      · exact fresh _ h
    apply inv.mayCache moves at_ may
    intro removes
    cases applied : p.isApplied with
    | false => rfl
    | true => cases (moves.forgets removes applied).symm.trans h

end Step

theorem CacheCoherent.arrive {s : State} (inv : CacheCoherent s) (q : Request) :
    CacheCoherent { s with requests := s.requests ++ [(q, q.start)] } where
  toCoherent := inv.toCoherent.arrive q
  removed name id h := by
    obtain ⟨r', q', p'', hget, removes, hid, done⟩ := h
    rcases Pool.of_add hget with ⟨-, hx⟩ | hget
    · cases hx
      rw [id_start] at hid
      cases hid
    · exact inv.removed name id ⟨r', q', p'', hget, removes, hid, done⟩
  cached name id h := by
    rcases inv.cached name id h with stored | ⟨forgetting, unreleased⟩
    · exact Or.inl stored
    · refine Or.inr ⟨?_, fun h => unreleased ?_⟩
      · obtain ⟨x, hx, removes, applied⟩ := forgetting
        exact ⟨x, List.mem_append_left _ hx, removes, applied⟩
      · obtain ⟨x, hx, removes, hid⟩ := h
        rcases List.mem_append.mp hx with hx | hx
        · exact ⟨x, hx, removes, hid⟩
        · obtain rfl := List.mem_singleton.mp hx
          cases q <;> cases hid

theorem cacheCoherent_step (s : State) (a : Action) (t : State) (inv : CacheCoherent s)
    (fresh : Fresh s a) (h : step s a = some t) : CacheCoherent t := by
  rcases step_cases h with ⟨q, rfl, -, rfl⟩ | ⟨r, q, p, p', u, rfl, at_, moves, rfl⟩
  · exact inv.arrive q
  · exact inv.advance moves at_ (fresh (q, p) at_)

/-! ## Requests that arrive later -/

/-- What the requests that arrive after `s` have in hand in `t`. -/
structure Since (s t : State) : Prop where
  length : s.requests.length ≤ t.requests.length
  returned : ∀ (r : Nat) (q : Request) (id : Option RepoId),
    s.requests[r]? = some (q, .returned id) → t.requests[r]? = some (q, .returned id)
  later : ∀ (r : Nat) (q : Request) (p : Progress) (name : Text) (id : RepoId),
    s.requests.length ≤ r → t.requests[r]? = some (q, p) → q.name = some name → p.id = some id →
    ¬ s.Released name id

theorem since_refl (s : State) : Since s s where
  length := Nat.le_refl _
  returned _ _ _ h := h
  later r q p name id hr h := by
    rw [List.getElem?_eq_none hr] at h
    cases h

theorem Since.released {s t : State} (since : Since s t) {name : Text} {id : RepoId}
    (h : s.Released name id) : t.Released name id := by
  obtain ⟨r, q, p, hget, removes, hid⟩ := released_iff.mp h
  refine released_iff.mpr ⟨r, q, p, ?_, removes, hid⟩
  cases p <;> cases hid
  exact since.returned _ _ _ hget

theorem since_step {s t v : State} {a : Action} (since : Since s t) (inv : CacheCoherent t)
    (h : step t a = some v) : Since s v := by
  rcases step_cases h with ⟨q, rfl, -, rfl⟩ | ⟨r, q, p, p', u, rfl, at_, moves, rfl⟩
  · constructor
    · exact Nat.le_trans since.length (by simp)
    · intro r q' id hget
      exact Pool.get_add (since.returned r q' id hget) _
    · intro r q' p name id hr hget named hid
      rcases Pool.of_add hget with ⟨-, hx⟩ | hget
      · cases hx
        rw [id_start] at hid
        cases hid
      · exact since.later r q' p name id hr hget named hid
  · constructor
    · rw [State.goto, List.length_set, moves.requests]
      exact since.length
    · intro r' q' id hget
      rw [State.goto, moves.requests, Pool.get_set at_, if_neg]
      · exact since.returned r' q' id hget
      · rintro rfl
        cases (since.returned r' q' id hget).symm.trans at_
        cases moves.returned
    · intro r' q' p'' name id hr hget named hid
      rcases requests_goto at_ moves.requests hget with ⟨rfl, rfl, rfl⟩ | ⟨-, hget⟩
      · rcases moves.holds (Or.inl ⟨named, hid⟩) with (⟨-, hid⟩ | ⟨hq, -⟩) | cached | stored |
          ⟨unnamed, -⟩ | ⟨-, rfl⟩
        · exact since.later _ _ _ name id hr at_ named hid
        · rw [hq] at named
          cases named
        · exact fun h => inv.not_released (inv.cached name id cached) (since.released h)
        · exact fun h => inv.not_released (Or.inl stored) (since.released h)
        · cases unnamed.symm.trans named
        · -- an id that was released was handed out before
          intro h
          obtain ⟨r₀, q₀, p₀, hget₀, removes₀, hid₀, -⟩ := removed_of_released (since.released h)
          exact UInt32.lt_irrefl _ (inv.of_holds hget₀ (name_of_removed removes₀) hid₀).1
      · exact since.later r' q' p'' name id hr hget named hid

/-! ## Lookups once every mutation has returned -/

/-- What a lookup has come to agrees with the store. -/
def Agrees (s : State) (name : Text) : Progress → Prop
  | .remember _ id => s.store.repoByName name = some id
  | .returned id => id = s.store.repoByName name
  | _ => True

/-- Every mutation has returned, and the lookups that arrived after `s` agree
with the name records. -/
structure Settled (s t : State) : Prop where
  done : ∀ (r : Nat) (q : Request) (p : Progress), t.requests[r]? = some (q, p) →
    q.mutates = true → p.isReturned = true
  agree : ∀ (r : Nat) (name : Text) (p : Progress), s.requests.length ≤ r →
    t.requests[r]? = some (.lookup name, p) → Agrees t name p

theorem settled_refl {s : State}
    (done : ∀ x ∈ s.requests, x.1.mutates = true → x.2.isReturned = true) : Settled s s where
  done r q p h := done (q, p) (List.mem_of_getElem? h)
  agree r name p hr h := by
    rw [List.getElem?_eq_none hr] at h
    cases h

/-- In a settled state a cached id is the stored one. -/
theorem Settled.stored {s t : State} (settled : Settled s t) {name : Text} {id : RepoId}
    (may : t.MayCache name id) : t.store.repoByName name = some id := by
  rcases may with stored | ⟨forgetting, -⟩
  · exact stored
  · obtain ⟨r, q, p, hget, removes, applied⟩ := forgetting_iff.mp forgetting
    have returned := settled.done r q p hget (by cases q <;> cases removes <;> rfl)
    cases p <;> cases returned
    cases applied

theorem settled_step {s t v : State} {a : Action} (settled : Settled s t) (inv : CacheCoherent t)
    (reads : a.mutates = false) (h : step t a = some v) : Settled s v := by
  rcases step_cases h with ⟨q, rfl, -, rfl⟩ | ⟨r, q, p, p', u, rfl, at_, moves, rfl⟩
  · constructor
    · intro r q' p hget mutates
      rcases Pool.of_add hget with ⟨-, hx⟩ | hget
      · cases hx
        rw [show q.mutates = false from reads] at mutates
        cases mutates
      · exact settled.done r q' p hget mutates
    · intro r name p hr hget
      rcases Pool.of_add hget with ⟨-, hx⟩ | hget
      · cases q <;> cases hx
        trivial
      · exact settled.agree r name p hr hget
  · have reader : q.mutates = false := by
      by_contra hq
      have done := settled.done r q p at_ (by simpa using hq)
      rw [moves.returned] at done
      cases done
    have plain := inv.plain r q p at_ reader
    have same : t.store.SameNames u.store := by
      rcases moves.names with same | ⟨name, allocates⟩ | ⟨name, id, unmaps, -⟩
      · exact same
      · rw [allocates.allocating] at plain
        cases plain
      · obtain ⟨removes, -⟩ := of_unmaps unmaps
        cases q <;> cases removes <;> cases reader
    constructor
    · intro r' q' p'' hget mutates
      rcases requests_goto at_ moves.requests hget with ⟨rfl, rfl, rfl⟩ | ⟨-, hget⟩
      · rw [reader] at mutates
        cases mutates
      · exact settled.done r' q' p'' hget mutates
    · intro r' name p'' hr hget
      suffices agree : Agrees t name p'' by
        cases p'' <;> first | trivial | exact agree.trans (same.repoByName name).symm |
          exact (same.repoByName name).trans agree
      rcases requests_goto at_ moves.requests hget with ⟨rfl, rfl, rfl⟩ | ⟨-, hget⟩
      · have old := settled.agree r' name p hr at_
        cases moves with
        | hit named cached =>
          cases named
          exact (settled.stored (inv.cached _ _ cached)).symm
        | fetched named stored =>
          cases named
          exact stored
        | absent named unmapped =>
          cases named
          exact unmapped.symm
        | remembered named =>
          cases named
          exact (show t.store.repoByName name = _ from old).symm
        | stillAbsent _ _ | acquired _ | exhausted _ | declined _ => cases plain
        | finished sweeps | retracted sweeps => cases sweeps
        | forgot removes => cases removes
        | pushed pushes => cases pushes
        | _ => trivial
      · exact settled.agree r' name p'' hr hget

/-! ## Whole runs -/

/-- What the lookups that arrive after `s` have answered in `t`: never an id
that a removal of the name had released by then; and, once every mutation has
returned and no more arrive, what the store says. -/
structure AnswersCoherent (s : State) (after : List Action) (t : State) : Prop where
  released : ∀ name id, s.Released name id → ∀ x ∈ t.requests.drop s.requests.length,
    x.1.lookedUp = some name → x.2.returnedId ≠ some id
  settled : (∀ x ∈ s.requests, x.1.mutates = true → x.2.isReturned = true) →
    (∀ a ∈ after, a.mutates = false) → ∀ x ∈ t.requests.drop s.requests.length, ∀ name,
    x.1.lookedUp = some name → x.2.isReturned = true → x.2.returnedId = t.store.repoByName name

theorem of_lookedUp {s t : State} {x : Request × Progress} {name : Text}
    (hx : x ∈ t.requests.drop s.requests.length) (h : x.1.lookedUp = some name) :
    ∃ r : Nat, s.requests.length ≤ r ∧ t.requests[r]? = some (.lookup name, x.2) := by
  obtain ⟨i, hi⟩ := List.mem_iff_getElem?.mp hx
  rw [List.getElem?_drop] at hi
  refine ⟨s.requests.length + i, Nat.le_add_right _ _, hi.trans ?_⟩
  obtain ⟨q, p⟩ := x
  cases q <;> cases h
  rfl

/-- As long as requests publish only ids that may stand in the cache, lookups
answer with the store, whatever the caches hold. -/
theorem answers_coherent (options : RegistryOptions) (entries : Nat) {before after : List Action}
    {s t : State} (fresh : Transition.Meets step Fresh (.init options entries) (before ++ after))
    (run₁ : Transition.exec step (.init options entries) before = some s)
    (run₂ : Transition.exec step s after = some t) : AnswersCoherent s after t := by
  have inv : CacheCoherent s :=
    Transition.exec_invariant cacheCoherent_step (cacheCoherent_init options entries)
      (Transition.meets_prefix (List.prefix_append before after) fresh) run₁
  have fresh₂ := Transition.meets_suffix fresh run₁
  constructor
  · intro name id released x hx looks hid
    obtain ⟨r, hr, hget⟩ := of_lookedUp hx looks
    have since : Since s t ∧ CacheCoherent t :=
      Transition.exec_invariant (I := fun v => Since s v ∧ CacheCoherent v)
        (fun u a v h hok hs => ⟨since_step h.1 h.2 hs, cacheCoherent_step u a v h.2 hok hs⟩)
        ⟨since_refl s, inv⟩ fresh₂ run₂
    refine since.1.later r _ _ name id hr hget rfl ?_ released
    cases hp : x.2 <;> rw [hp] at hid <;> cases hid
    rfl
  · intro done reads x hx name looks returned
    obtain ⟨r, hr, hget⟩ := of_lookedUp hx looks
    have settled : Settled s t ∧ CacheCoherent t :=
      Transition.exec_invariant (I := fun v => Settled s v ∧ CacheCoherent v)
        (fun u a v h hok hs =>
          ⟨settled_step h.1 h.2 hok.2 hs, cacheCoherent_step u a v h.2 hok.1 hs⟩)
        ⟨settled_refl done, inv⟩ (Transition.meets_and_mem reads fresh₂) run₂
    have agree := settled.1.agree r name _ hr hget
    cases hp : x.2 <;> rw [hp] at returned agree <;> cases returned
    exact agree

/-- Intern a name, delete it, intern it again and look it up. -/
def internTwice : List Action :=
  [.arrive (.intern "app".toList), .advance 0, .advance 0, .advance 0, .advance 0, .advance 0,
    .advance 0, .advance 0, .arrive (.deleteRepository "app".toList (.fromSecs 1)), .advance 1,
    .advance 1, .advance 1, .arrive (.intern "app".toList), .advance 2, .advance 2, .advance 2,
    .advance 2, .advance 2, .advance 2, .advance 2]

def lookAfter (r : Nat) : List Action := [.arrive (.lookup "app".toList), .advance r]

/-- Room for one name. -/
theorem answers_coherent_interned_twice :
    ∃ s t, Transition.exec step (.init {} 1) internTwice = some s ∧
      Transition.exec step s (lookAfter 3) = some t ∧ AnswersCoherent s (lookAfter 3) t := by
  have fresh : Transition.Meets step Fresh (.init {} 1) (internTwice ++ lookAfter 3) := by
    decide +kernel
  have finished : ((Transition.exec step (.init {} 1) internTwice).bind fun s =>
      Transition.exec step s (lookAfter 3)).isSome = true := by decide +kernel
  obtain ⟨t, whole⟩ := Option.isSome_iff_exists.mp finished
  obtain ⟨s, run₁, run₂⟩ := Option.bind_eq_some_iff.mp whole
  exact ⟨s, t, run₁, run₂, answers_coherent {} 1 fresh run₁ run₂⟩

/-- A lookup reads the id of `app` before its deletion and has yet to publish it
when the deletion has returned. -/
def staleReader : List Action :=
  [.arrive (.intern "app".toList), .advance 0, .advance 0, .advance 0, .advance 0, .advance 0,
    .advance 0, .arrive (.lookup "app".toList), .advance 1, .advance 1, .advance 0,
    .arrive (.deleteRepository "app".toList (.fromSecs 1)), .advance 2, .advance 2, .advance 2]

/-- The reader publishes, and a lookup that arrives after the deletion has
returned answers with the released id. -/
theorem stale_reader_revives_id :
    ¬ ∀ (options : RegistryOptions) (entries : Nat) (before after : List Action) (s t : State),
      Transition.exec step (.init options entries) before = some s →
      Transition.exec step s after = some t → AnswersCoherent s after t := by
  intro coherent
  have facts : ((Transition.exec step (.init {} 100) staleReader).bind fun s =>
      (Transition.exec step s (.advance 1 :: lookAfter 3)).map fun t =>
        decide (s.Released "app".toList 0 ∧ ∃ x ∈ t.requests.drop s.requests.length,
          x.1.lookedUp = some "app".toList ∧ x.2.returnedId = some 0)) = some true := by
    decide +kernel
  obtain ⟨s, run₁, facts⟩ := Option.bind_eq_some_iff.mp facts
  obtain ⟨t, run₂, facts⟩ := Option.map_eq_some_iff.mp facts
  obtain ⟨released, x, hx, looks, hid⟩ := of_decide_eq_true facts
  exact (coherent {} 100 staleReader _ s t run₁ run₂).released _ 0 released x hx looks hid

end Names

end Summ
