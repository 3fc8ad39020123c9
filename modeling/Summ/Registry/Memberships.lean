import Summ.Registry.Purge

/-!
# Whole runs over paged ranges

`Store.sweepRun` is one pass of the membership sweep, each page retracting what
it found stale before the next is read. The pass pages the whole membership
range, and the iterator a resumed page opens is confined to the repository its
cursor lies in: a run over that range is complete exactly when the pages end in
the last repository, and a run over any other paged range always is.
-/

namespace Summ

namespace Store

/-- The pages one full run of `sweep_repo_blobs` reads, and the store it leaves. -/
def sweepRun (s : Store) (limit : Nat) (addedBefore : Timestamp) (reportOnly : Bool) :
    Option (List (Page Key Value) × Store) :=
  Page.follow
    (fun s c => (s.scan .repoBlobs c limit, (s.sweepRepoBlobs c limit addedBefore reportOnly).2))
    (s.map.entries.length + 1) s none

/-- The run reads every membership of every repository. -/
def SweepComplete (s : Store) (limit : Nat) (addedBefore : Timestamp) (reportOnly : Bool) : Prop :=
  ∃ pages t, s.sweepRun limit addedBefore reportOnly = some (pages, t) ∧
    Page.Serves pages (s.under .repoBlobs none)

theorem mem_staleMemberships {s : Store} {addedBefore : Timestamp} {entries : List (Key × Value)}
    {repo : RepoId} {digest : Digest}
    (h : (repo, digest) ∈ s.staleMemberships addedBefore entries) :
    ∃ record, (.repoBlob repo digest, .repoBlob record) ∈ entries ∧
      record.addedAt ≤ addedBefore.secs ∧
      s.existsPrefix (.blobRefsInRepo digest repo) = false := by
  obtain ⟨⟨k, v⟩, he, heq⟩ := List.mem_filterMap.mp h
  split at heq
  · rename_i repo' digest' record hkv
    cases hkv
    split at heq
    · cases heq
    · rename_i hage
      split at heq
      · cases heq
      · rename_i hrefs
        cases heq
        exact ⟨record, he, not_lt.mp hage, by simpa using hrefs⟩
  · cases heq

theorem retractBatch_membership {stale : List (RepoId × Digest)} {repo : RepoId} {digest : Digest}
    (h : (repo, digest) ∉ stale) :
    WriteBatch.effect (retractBatch stale) (.repoBlob repo digest) = none := by
  apply WriteBatch.effect_flatMap_none
  rintro ⟨repo', digest'⟩ hmem
  have hne : ¬ (repo' = repo ∧ digest' = digest) := by
    rintro ⟨rfl, rfl⟩
    exact h hmem
  simp [MetaOp.effect, hne]

/-- A sweep step writes to no membership after its page. -/
theorem sweepRepoBlobs_keeps {s : Store} {c : Option Key} {limit : Nat} (pos : 0 < limit)
    {addedBefore : Timestamp} {reportOnly : Bool}
    (hc : ∀ k ∈ c, Scan.repoBlobs.covers k = true) {n : Key}
    (hn : (s.scan .repoBlobs c limit).next = some n) {k : Key}
    (hk : Scan.repoBlobs.covers k = true) (hlt : n < k) :
    (s.sweepRepoBlobs c limit addedBefore reportOnly).2.get k = s.get k := by
  simp only [sweepRepoBlobs]
  split
  · rfl
  · cases k <;> cases hk
    rename_i repo digest
    apply get_apply_of_effect
    apply retractBatch_membership
    intro hstale
    obtain ⟨record, hmem, -⟩ := mem_staleMemberships hstale
    exact absurd (scan_le_next hc pos hn hmem) (not_le.mpr hlt)

theorem sweepRun_serves_iff (s : Store) {limit : Nat} (pos : 0 < limit) (addedBefore : Timestamp)
    (reportOnly : Bool) :
    s.SweepComplete limit addedBefore reportOnly ↔ s.EndsInLastRepo limit := by
  have reads := reads_scan (p := .repoBlobs) pos
    (fun s c => (s.scan .repoBlobs c limit, (s.sweepRepoBlobs c limit addedBefore reportOnly).2))
    (fun _ _ => rfl) (fun s c n hc hn k hk hlt => sweepRepoBlobs_keeps pos hc hn hk hlt)
  obtain ⟨pages, t, run, iff⟩ := Page.follow_serves_iff pos reads s none (by simp)
    (s.under_length .repoBlobs none)
  rw [unbroken_iff (p := .repoBlobs) rfl] at iff
  constructor
  · rintro ⟨pages', t', run', serves⟩
    rw [sweepRun, run] at run'
    cases run'
    exact (iff.mp serves).2 rfl
  · intro ends
    exact ⟨pages, t, run, iff.mpr ⟨fun _ _ => rfl, fun _ => ends⟩⟩

theorem pagesComplete_iff (s : Store) {p : Scan} (paged : p.paged = true) {limit : Nat}
    (pos : 0 < limit) :
    s.PagesComplete p limit ↔ (p = .repoBlobs → s.EndsInLastRepo limit) := by
  obtain ⟨pages, run, iff⟩ := s.pages_serve_iff paged pos
  constructor
  · rintro ⟨pages', run', serves⟩
    rw [run] at run'
    cases run'
    exact iff.mp serves
  · intro ends
    exact ⟨pages, run, iff.mpr ends⟩

/-- Paging is complete over every range but the whole membership range, and
over that one, for the sweep too, exactly when the pages end in the last
repository that holds one. -/
theorem paging_complete_iff (s : Store) (limit : Nat) (pos : 0 < limit) :
    (∀ p : Scan, p.paged = true →
      (s.PagesComplete p limit ↔ (p = .repoBlobs → s.EndsInLastRepo limit))) ∧
    ∀ addedBefore reportOnly,
      s.SweepComplete limit addedBefore reportOnly ↔ s.EndsInLastRepo limit :=
  ⟨fun _ paged => s.pagesComplete_iff paged pos, s.sweepRun_serves_iff pos⟩

/-- One membership in each of two repositories. -/
def twoRepos : Store :=
  let digest : Digest := .sha256 (List.Vector.replicate 32 7)
  (∅ : Store).apply [
    .put (.repoBlob 0 digest) (.repoBlob { size := 3, addedAt := 9 }) rfl,
    .put (.repoBlob 1 digest) (.repoBlob { size := 3, addedAt := 9 }) rfl]

theorem paging_complete_iff_twoRepos :
    (∀ p : Scan, p.paged = true →
      (twoRepos.PagesComplete p 1 ↔ (p = .repoBlobs → twoRepos.EndsInLastRepo 1))) ∧
    ∀ addedBefore reportOnly,
      twoRepos.SweepComplete 1 addedBefore reportOnly ↔ twoRepos.EndsInLastRepo 1 :=
  paging_complete_iff twoRepos 1 (by decide)

/-- With pages of one membership the run over two repositories reads the first
repository's; the page after it is empty and reports the range exhausted. -/
theorem paging_misses_second_repo :
    (twoRepos.under .repoBlobs none).length = 2 ∧
      (twoRepos.pages .repoBlobs 1).map (fun pages => pages.map fun page =>
        (page.entries.length, page.next.isSome)) = some [(1, true), (0, false)] ∧
      ¬ twoRepos.PagesComplete .repoBlobs 1 ∧
      ¬ twoRepos.SweepComplete 1 (.fromSecs 0) false := by
  have broken : ¬ twoRepos.EndsInLastRepo 1 := by
    intro h
    have := h 0 (by decide +kernel) (by decide)
    revert this
    decide +kernel
  refine ⟨by decide +kernel, by decide +kernel, ?_, ?_⟩
  · rw [pagesComplete_iff twoRepos rfl (by decide)]
    exact fun h => broken (h rfl)
  · rw [sweepRun_serves_iff twoRepos (by decide)]
    exact broken

end Store

end Summ
