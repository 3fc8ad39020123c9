import Summ.Serial.IdCache

/-!
# What shares a blob

The reverse lookup of a blob, across the whole registry: the edges under the
blob's digest, with the names of their repositories. It ends, and lists every
reference once, exactly when no edge is left of a repository whose name is gone:
`reverse_lookup_iff`.
-/

namespace Summ

structure BlobReference where
  repo : Text
  manifest : Digest
  deriving DecidableEq

structure BlobReferenceList where
  references : List BlobReference
  next : Option BlobReference

namespace Registry

/-- `blob_reference`. -/
def blobReference (r : Registry) : Key → Except RegistryError BlobReference × Registry
  | .blobRef _ repo manifest =>
    match r.repoName repo with
    | (.ok name, r) => (.ok { repo := name, manifest }, r)
    | (.error e, r) => (.error e, r)
  | _ => (.error (.corrupt "blob ref key"), r)

/-- The references of a page. The first key that fails fails the page. -/
def blobReferences (r : Registry) : List Key → Except RegistryError (List BlobReference) × Registry
  | [] => (.ok [], r)
  | key :: keys =>
    match r.blobReference key with
    | (.error e, r) => (.error e, r)
    | (.ok reference, r) =>
      match r.blobReferences keys with
      | (.ok references, r) => (.ok (reference :: references), r)
      | (.error e, r) => (.error e, r)

/-- Where a page starts. A cursor that names a repository that is gone cannot be
positioned, and the scan starts again. -/
def blobRefCursor (r : Registry) (digest : Digest) : Option BlobReference → Option Key × Registry
  | some after =>
    match r.lookupRepo after.repo with
    | (some id, r) => (some (.blobRef digest id after.manifest), r)
    | (none, r) => (none, r)
  | none => (none, r)

/-- `manifests_referencing_blob`. -/
def manifestsReferencingBlob (r : Registry) (digest : Digest) (startAfter : Option BlobReference)
    (limit : Nat) : Except RegistryError BlobReferenceList × Registry :=
  let (cursor, r) := r.blobRefCursor digest startAfter
  let page := r.store.scan (.blobRefs digest) cursor limit
  match r.blobReferences (page.entries.map Prod.fst) with
  | (.error e, r) => (.error e, r)
  | (.ok references, r) =>
    match page.next with
    | none => (.ok { references, next := none }, r)
    | some key =>
      match r.blobReference key with
      | (.ok next, r) => (.ok { references, next := some next }, r)
      | (.error e, r) => (.error e, r)

/-- A manifest of a live repository that references the blob. -/
def References (r : Registry) (digest : Digest) (ref : BlobReference) : Prop :=
  ∃ id, r.store.repoByName ref.repo = some id ∧
    r.store.has (.blobRef digest id ref.manifest) = true

/-- A page, if it is served. -/
def askReferences (digest : Digest) (limit : Nat) (r : Registry) (startAfter : Option BlobReference) :
    Option ((List BlobReference × Option BlobReference) × Registry) :=
  match r.manifestsReferencingBlob digest startAfter limit with
  | (.ok page, r) => some ((page.references, page.next), r)
  | (.error _, _) => none

/-- Followed by its cursors the lookup is served to its end, and lists each
reference of a live repository once, and nothing else. -/
def ReverseLookup (r : Registry) (digest : Digest) (limit : Nat) : Prop :=
  ∃ fuel pages, Page.walk (askReferences digest limit) fuel r none = some pages ∧
    pages.flatten.Nodup ∧ ∀ ref, ref ∈ pages.flatten ↔ r.References digest ref

end Registry

/-! ## Rows -/

/-- The reference an edge stands for, if its repository has a name. -/
def Store.reference (s : Store) : Key → Option BlobReference
  | .blobRef _ repo manifest => (s.repoById repo).map fun name => { repo := name, manifest }
  | _ => none

namespace Registry

variable {r : Registry} {digest : Digest} {limit : Nat}

theorem CachesRight.blobReference (right : r.CachesRight) (key : Key) :
    (r.blobReference key).1.toOption = r.store.reference key ∧
      (r.blobReference key).2.store = r.store ∧ (r.blobReference key).2.CachesRight := by
  cases key with
  | blobRef d repo manifest =>
    obtain ⟨named, store, -, after⟩ := right.resolve repo
    rw [Registry.blobReference, Store.reference]
    rcases resolved : r.repoName repo with ⟨e | name, r'⟩ <;> rw [resolved] at named store after <;>
      dsimp only at named store after ⊢
    · cases stored : r.store.repoById repo with
      | none => exact ⟨rfl, store, after⟩
      | some n =>
        rw [stored] at named
        cases named
    · cases stored : r.store.repoById repo with
      | none =>
        rw [stored] at named
        cases named
      | some n =>
        rw [stored] at named
        cases named
        exact ⟨rfl, store, after⟩
  | _ => exact ⟨rfl, rfl, right⟩

theorem CachesRight.blobReferences (right : r.CachesRight) (keys : List Key) :
    (r.blobReferences keys).1.toOption = keys.mapM r.store.reference ∧
      (r.blobReferences keys).2.store = r.store ∧ (r.blobReferences keys).2.CachesRight := by
  induction keys generalizing r with
  | nil => exact ⟨rfl, rfl, right⟩
  | cons key keys ih =>
    obtain ⟨first, store, after⟩ := right.blobReference key
    rw [Registry.blobReferences, List.mapM_cons, ← first]
    rcases one : r.blobReference key with ⟨e | reference, r'⟩ <;> rw [one] at store after <;>
      dsimp only at store after ⊢
    · exact ⟨rfl, store, after⟩
    · obtain ⟨rest, store', after'⟩ := ih after
      rw [store] at rest store'
      rcases more : r'.blobReferences keys with ⟨e | references, r''⟩ <;>
        rw [more] at rest store' after' <;> dsimp only at rest store' after' ⊢ <;> rw [← rest] <;>
        exact ⟨rfl, store', after'⟩

end Registry

/-- The cursor a page that ends at an edge hands on. -/
def Store.referenceCursor (s : Store) (k : Key) : BlobReference :=
  match s.reference k with
  | some ref => ref
  | none => { repo := [], manifest := .sha256 (.replicate 32 0) }

/-- An edge of a repository that has a name. -/
def Store.Live (s : Store) (k : Key) : Prop := (s.reference k).isSome = true

theorem mapM_isSome {α β : Type*} {f : α → Option β} {l : List α}
    (h : ∀ a ∈ l, (f a).isSome = true) : l.mapM f = some (l.filterMap f) := by
  induction l with
  | nil => rfl
  | cons a l ih =>
    obtain ⟨first, rest⟩ := List.forall_mem_cons.mp h
    obtain ⟨b, hb⟩ := Option.isSome_iff_exists.mp first
    rw [List.mapM_cons, hb, ih rest, List.filterMap_cons_some hb]
    rfl

theorem isSome_of_mapM {α β : Type*} {f : α → Option β} {l : List α} {m : List β}
    (h : l.mapM f = some m) : ∀ a ∈ l, (f a).isSome = true := by
  induction l generalizing m with
  | nil => exact List.forall_mem_nil _
  | cons a l ih =>
    rw [List.mapM_cons] at h
    obtain ⟨b, hb, h⟩ := Option.bind_eq_some_iff.mp h
    obtain ⟨bs, hbs, -⟩ := Option.bind_eq_some_iff.mp h
    exact List.forall_mem_cons.mpr ⟨Option.isSome_of_eq_some hb, ih hbs⟩

namespace Registry

variable {r : Registry} {s : Store} {digest : Digest} {limit : Nat}

/-- The cursor a page hands on is where the next one starts. -/
theorem blobRefCursor_live (right : r.CachesRight) (store : r.store = s) {c : Option Key}
    (hc : ∀ k ∈ c, (Scan.blobRefs digest).covers k = true ∧ s.Live k) :
    ∃ r', (r'.CachesRight ∧ r'.store = s) ∧
      r.blobRefCursor digest (c.map s.referenceCursor) = (c, r') := by
  subst store
  cases c with
  | none => exact ⟨r, ⟨right, rfl⟩, rfl⟩
  | some k =>
    obtain ⟨covers, live⟩ := hc k rfl
    cases k with
    | blobRef d id manifest =>
      obtain rfl : digest = d := by simpa [Scan.covers] using covers
      obtain ⟨ref, shown⟩ := Option.isSome_iff_exists.mp live
      obtain ⟨name, stored, rfl⟩ := Option.map_eq_some_iff.mp shown
      obtain ⟨found, kept, after⟩ := right.lookup name
      rw [(right.named.inverse name id).mpr stored] at found
      refine ⟨_, ⟨after, kept⟩, ?_⟩
      rw [Option.map_some, Store.referenceCursor, shown, blobRefCursor]
      dsimp only
      rw [show r.lookupRepo name = (some id, (r.lookupRepo name).2) from Prod.ext found rfl]
    | _ => cases covers

/-- A page is served exactly when its edges are of repositories that have names. -/
theorem askReferences_page (pos : 0 < limit) (right : r.CachesRight) (store : r.store = s)
    {c : Option Key} (hc : ∀ k ∈ c, (Scan.blobRefs digest).covers k = true ∧ s.Live k) :
    ((∀ e ∈ (s.scan (.blobRefs digest) c limit).entries, s.Live e.1) ∧
      ∃ r', (r'.CachesRight ∧ r'.store = s) ∧
        askReferences digest limit r (c.map s.referenceCursor) =
          some (((s.scan (.blobRefs digest) c limit).entries.filterMap fun e => s.reference e.1,
            (s.scan (.blobRefs digest) c limit).next.map s.referenceCursor), r')) ∨
      (∃ e ∈ (s.scan (.blobRefs digest) c limit).entries, ¬s.Live e.1) ∧
        askReferences digest limit r (c.map s.referenceCursor) = none := by
  obtain ⟨r₁, ⟨right₁, store₁⟩, cursor⟩ := blobRefCursor_live right store hc
  have covered : ∀ k ∈ c, (Scan.blobRefs digest).covers k = true := fun k hk => (hc k hk).1
  have next_live (n : Key) (hn : (s.scan (.blobRefs digest) c limit).next = some n)
      (all : ∀ e ∈ (s.scan (.blobRefs digest) c limit).entries, s.Live e.1) : s.Live n := by
    obtain ⟨e, he, rfl⟩ := Store.scan_next_mem covered pos hn
    exact all e he
  obtain ⟨rows, store₂, right₂⟩ := right₁.blobReferences
    ((s.scan (.blobRefs digest) c limit).entries.map Prod.fst)
  rw [store₁] at rows store₂
  unfold askReferences manifestsReferencingBlob
  rw [cursor]
  dsimp only
  rw [store₁]
  generalize s.scan (.blobRefs digest) c limit = page at rows store₂ right₂ next_live ⊢
  by_cases all : ∀ e ∈ page.entries, s.Live e.1
  · refine Or.inl ⟨all, ?_⟩
    have shown : ∀ k ∈ page.entries.map Prod.fst, (s.reference k).isSome = true := by
      intro k hk
      obtain ⟨e, he, rfl⟩ := List.mem_map.mp hk
      exact all e he
    rw [mapM_isSome shown, List.filterMap_map] at rows
    rcases served : r₁.blobReferences (page.entries.map Prod.fst) with ⟨e | references, r₂⟩ <;>
      rw [served] at rows store₂ right₂
    · cases rows
    · obtain rfl := Option.some.inj rows
      dsimp only at store₂ right₂ ⊢
      cases hn : page.next with
      | none => exact ⟨r₂, ⟨right₂, store₂⟩, rfl⟩
      | some n =>
        obtain ⟨last, store₃, right₃⟩ := right₂.blobReference n
        rw [store₂] at last store₃
        obtain ⟨ref, hlast⟩ := Option.isSome_iff_exists.mp (next_live n hn all)
        dsimp only
        rcases resolved : r₂.blobReference n with ⟨e | next, r₃⟩ <;>
          rw [resolved] at last store₃ right₃ <;> rw [hlast] at last
        · cases last
        · obtain rfl := Option.some.inj last
          refine ⟨r₃, ⟨right₃, store₃⟩, ?_⟩
          rw [Option.map_some, Store.referenceCursor, hlast]
          rfl
  · have some_ : ∃ e ∈ page.entries, ¬s.Live e.1 := by
      simpa only [not_forall, exists_prop] using all
    refine Or.inr ⟨some_, ?_⟩
    obtain ⟨e, he, dead⟩ := some_
    rcases served : r₁.blobReferences (page.entries.map Prod.fst) with ⟨e' | references, r₂⟩
    · rfl
    · rw [served] at rows
      exact absurd (isSome_of_mapM rows.symm e.1 (List.mem_map_of_mem he)) dead

/-- The edges of the blob and the references of live repositories. -/
theorem mem_references (named : r.store.Named) {ref : BlobReference} :
    ref ∈ (r.store.under (.blobRefs digest) none).filterMap (fun e => r.store.reference e.1) ↔
      r.References digest ref := by
  rw [List.mem_filterMap]
  constructor
  · rintro ⟨⟨k, v⟩, he, shown⟩
    obtain ⟨covers, -, stored⟩ := Store.mem_under.mp he
    cases k with
    | blobRef d id manifest =>
      obtain rfl : digest = d := by simpa [Scan.covers] using covers
      obtain ⟨name, hname, rfl⟩ := Option.map_eq_some_iff.mp shown
      exact ⟨id, (named.inverse name id).mpr hname, Option.isSome_of_eq_some stored⟩
    | _ => cases covers
  · rintro ⟨id, mapped, stored⟩
    obtain ⟨v, hv⟩ := Option.isSome_iff_exists.mp stored
    refine ⟨(.blobRef digest id ref.manifest, v),
      Store.mem_under.mpr ⟨by simp [Scan.covers], fun a ha => (by cases ha), hv⟩, ?_⟩
    rw [Store.reference, (named.inverse ref.repo id).mp mapped]
    rfl

/-- No two edges of a blob are one reference. -/
theorem references_nodup (named : r.store.Named) :
    ((r.store.under (.blobRefs digest) none).filterMap fun e => r.store.reference e.1).Nodup := by
  rw [List.Nodup, List.pairwise_filterMap]
  refine (List.Pairwise.and_mem.mp (r.store.under_sorted _ none)).imp ?_
  rintro ⟨k, v⟩ ⟨k', v'⟩ ⟨he, he', lt⟩ ref shown ref' shown' rfl
  obtain ⟨covers, -⟩ := Store.mem_under.mp he
  obtain ⟨covers', -⟩ := Store.mem_under.mp he'
  cases k with
  | blobRef d id manifest =>
    cases k' with
    | blobRef d' id' manifest' =>
      obtain rfl : digest = d := by simpa [Scan.covers] using covers
      obtain rfl : digest = d' := by simpa [Scan.covers] using covers'
      obtain ⟨name, hname, rfl⟩ := Option.map_eq_some_iff.mp shown
      obtain ⟨name', hname', same⟩ := Option.map_eq_some_iff.mp shown'
      obtain ⟨rfl, rfl⟩ := BlobReference.mk.inj same
      have mapped := (named.inverse name' id).mpr hname
      rw [(named.inverse name' id').mpr hname'] at mapped
      cases mapped
      exact lt_irrefl _ lt
    | _ => cases covers'
  | _ => cases covers

/-- The reverse lookup of a blob works as it should exactly when every edge of the
blob is of a repository that still has its name. -/
theorem CachesRight.reverse_lookup (right : r.CachesRight) (pos : 0 < limit) :
    r.ReverseLookup digest limit ↔ ∀ id manifest,
      r.store.has (.blobRef digest id manifest) = true → (r.store.repoById id).isSome = true := by
  have live (id : RepoId) (manifest : Digest) :
      r.store.Live (.blobRef digest id manifest) ↔ (r.store.repoById id).isSome = true := by
    rw [Store.Live, Store.reference, Option.isSome_map]
  constructor
  · rintro ⟨fuel, pages, walked, -⟩ id manifest stored
    have all := r.store.fit_of_walk (p := .blobRefs digest) rfl (by simp) pos
      (fun r' c hr hc => (askReferences_page pos hr.1 hr.2 hc).symm.imp_left And.right)
      ⟨right, rfl⟩ walked
    obtain ⟨v, hv⟩ := Option.isSome_iff_exists.mp stored
    exact (live id manifest).mp (all (.blobRef digest id manifest, v)
      (Store.mem_under.mpr ⟨by simp [Scan.covers], fun a ha => (by cases ha), hv⟩))
  · intro named
    have fits (k : Key) (covers : (Scan.blobRefs digest).covers k = true)
        (stored : r.store.has k = true) : r.store.Live k := by
      cases k with
      | blobRef d id manifest =>
        obtain rfl : digest = d := by simpa [Scan.covers] using covers
        exact (live id manifest).mpr (named id manifest stored)
      | _ => cases covers
    have asks (r' : Registry) (c : Option Key) (hr : r'.CachesRight ∧ r'.store = r.store)
        (hc : ∀ k ∈ c, (Scan.blobRefs digest).covers k = true ∧ r.store.has k = true) :
        ∃ r'', (r''.CachesRight ∧ r''.store = r.store) ∧
          askReferences digest limit r' (c.map r.store.referenceCursor) =
            some (((r.store.scan (.blobRefs digest) c limit).entries.filterMap
              fun e => r.store.reference e.1,
              (r.store.scan (.blobRefs digest) c limit).next.map r.store.referenceCursor), r'') := by
      have covered : ∀ k ∈ c, (Scan.blobRefs digest).covers k = true := fun k hk => (hc k hk).1
      rcases askReferences_page pos hr.1 hr.2 fun k hk => ⟨(hc k hk).1,
        fits k (hc k hk).1 (hc k hk).2⟩ with ⟨-, served⟩ | ⟨⟨e, he, dead⟩, -⟩
      · exact served
      · obtain ⟨covers, stored⟩ := Store.scan_entries_stored covered pos he
        exact absurd (fits e.1 covers (Option.isSome_of_eq_some stored)) dead
    obtain ⟨fuel, pages, walked, lists⟩ :=
      r.store.walk_lists rfl (by simp) pos asks ⟨right, rfl⟩
    refine ⟨fuel, pages, walked, ?_, fun ref => ?_⟩
    · rw [lists]
      exact references_nodup right.named
    · rw [lists]
      exact mem_references right.named

end Registry

/-- After every run of calls and reads, the reverse lookup of a blob works as it
should exactly when every edge of the blob is of a repository that has its name. -/
theorem reverse_lookup_iff {oci : Oci} {options : RegistryOptions} {entries : Nat} {sys : System}
    (reached : System.Moved oci options entries sys) (digest : Digest) {limit : Nat}
    (pos : 0 < limit) :
    sys.registry.ReverseLookup digest limit ↔ ∀ id manifest,
      sys.store.has (.blobRef digest id manifest) = true →
        (sys.store.repoById id).isSome = true :=
  (System.right_moved reached).reverse_lookup pos

/-- One image in two repositories, and the end of one of them before its sweep. -/
def halfDeleted : List Move :=
  [.call (.operation (.commitBlob "app".toList emptyConfig 2 (.fromSecs 1))),
    .call (.operation (.putManifest imagePut [])),
    .call (.operation (.commitBlob "lib".toList emptyConfig 2 (.fromSecs 1))),
    .call (.operation (.putManifest { imagePut with repo := "lib".toList } [])),
    .call (.deleteRepository "app".toList (.fromSecs 2))]

theorem reverse_lookup_iff_pushed : ∃ sys,
    Transition.exec (System.move imageOci) (.start {} 2) (halfDeleted.take 4) = some sys ∧
      (sys.registry.ReverseLookup emptyConfig 1 ↔ ∀ id manifest,
        sys.store.has (.blobRef emptyConfig id manifest) = true →
          (sys.store.repoById id).isSome = true) := by
  have runs : (Transition.exec (System.move imageOci) (.start {} 2) (halfDeleted.take 4)).isSome =
      true := by decide +kernel
  obtain ⟨sys, run⟩ := Option.isSome_iff_exists.mp runs
  exact ⟨sys, run, reverse_lookup_iff ⟨_, run⟩ emptyConfig (by decide)⟩

/-- The blob is still referenced by a live repository, and its lookup fails. -/
theorem half_deleted_refused : ∃ sys, System.Moved imageOci {} 2 sys ∧
    sys.registry.References emptyConfig { repo := "lib".toList, manifest := emptyImage.digest } ∧
    (sys.registry.manifestsReferencingBlob emptyConfig none 2).1.isOk = false ∧
    ¬sys.registry.ReverseLookup emptyConfig 2 := by
  have facts : (Transition.exec (System.move imageOci) (.start {} 2) halfDeleted).map (fun sys =>
      (sys.store.repoByName "lib".toList == some 1 &&
        sys.store.has (.blobRef emptyConfig 1 emptyImage.digest)) &&
      (!(sys.registry.manifestsReferencingBlob emptyConfig none 2).1.isOk &&
        (sys.store.has (.blobRef emptyConfig 0 emptyImage.digest) &&
          (sys.store.repoById 0).isNone))) = some true := by decide +kernel
  obtain ⟨sys, run, h⟩ := Option.map_eq_some_iff.mp facts
  simp only [Bool.and_eq_true, Bool.not_eq_true', beq_iff_eq] at h
  obtain ⟨⟨mapped, live⟩, refused, dead, gone⟩ := h
  have reached : System.Moved imageOci {} 2 sys := ⟨halfDeleted, run⟩
  refine ⟨sys, reached, ⟨1, mapped, live⟩, refused, fun works => ?_⟩
  have named := ((System.right_moved reached).reverse_lookup (by decide)).mp works 0 _ dead
  rw [Option.isNone_iff_eq_none] at gone
  rw [show sys.registry.store.repoById 0 = none from gone] at named
  cases named

end Summ
