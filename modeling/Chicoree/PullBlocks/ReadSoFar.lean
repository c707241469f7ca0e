import Chicoree.PullBlocks.World
import Chicoree.PullBlocks.WholeImages

/-! # What a refresh has read

What a refresh has read so far, and what it leaves out, is fixed by the tables while no change
concerns the repository; and which statements do not. -/

namespace Chicoree.PullBlocks

open Registryd (Digest)
open Transition Reading Bool Option

variable {lower : String → String} {id : Id}

/-! ## What a run has read -/

def World.readingOf (w : World) (id : Id) : Option Reading := (w.repo id).map w.reading

def Reading.judged (full : Reading) : Reading :=
  if full.judgesScans then
    { blank full.repo with
      now := full.now, org := full.org, rows := full.rows, scans := full.scans
      rules := full.rules }
  else { blank full.repo with org := full.org, rows := full.rows }

def Reading.upTo (full : Reading) : Stage → Reading
  | .org => .blank full.repo
  | .rows => { blank full.repo with org := full.org }
  | .scans => { blank full.repo with org := full.org, rows := full.rows }
  | .rules =>
    { blank full.repo with org := full.org, rows := full.rows, scans := full.scans }
  | .tags => full.judged
  | .signatures => { full.judged with tags := full.tags }
  | .existing =>
    if full.judgesSignatures then
      { full.judged with tags := full.tags, signatures := full.signatures }
    else full.judged

def Reading.visits (full : Reading) : Stage → Bool
  | .scans | .rules => full.judgesScans
  | .tags | .signatures => full.judgesSignatures
  | .org | .rows | .existing => true

variable {stage : Stage}

theorem readStep_reading (lower : String → String) (hstage : stage ≠ .existing)
    (s : Shared) (r : Repo) (rd : Reading) (since : Nat) :
    ∃ next rd', readStep lower s r rd since stage = .reading next rd' since := by
  cases stage with
  | existing => exact absurd rfl hstage
  | org | rows | scans | rules | tags | signatures => exact ⟨_, _, rfl⟩

theorem readStep_upTo (lower : String → String) {s : Shared} {r : Repo} {full : Reading}
    (hfull : s.world.reading r = full)
    (hvisits : full.visits stage = true) (hstage : stage ≠ .existing)
    (since : Nat) :
    ∃ next, full.visits next = true ∧
      readStep lower s r (full.upTo stage) since stage = .reading next (full.upTo next) since := by
  subst hfull
  have hafter (rd : Reading) (hrd : rd = (s.world.reading r).judged)
      (hjudges : rd.judgesSignatures = (s.world.reading r).judgesSignatures) :
      ∃ next, (s.world.reading r).visits next = true ∧ RunPc.reading rd.afterScans rd since =
          .reading next ((s.world.reading r).upTo next) since := by
    unfold afterScans
    rw [hjudges]
    cases hsig : (s.world.reading r).judgesSignatures with
    | true =>
      refine ⟨.tags, hsig, ?_⟩
      rw [if_pos rfl, hrd]
      rfl
    | false =>
      refine ⟨.existing, rfl, ?_⟩
      rw [if_neg Bool.false_ne_true, hrd]
      unfold upTo
      simp only [hsig, false_eq_true, if_false]
  cases stage with
  | org => exact ⟨.rows, rfl, rfl⟩
  | rows =>
    show ∃ next, _ ∧ RunPc.reading (afterRows _) _ since = _
    unfold afterRows
    cases hscans : (s.world.reading r).judgesScans with
    | true =>
      refine ⟨.scans, hscans, ?_⟩
      rw [if_pos]
      · rfl
      · exact hscans
    | false =>
      rw [if_neg]
      · refine hafter _ ?_ rfl
        unfold judged
        rw [hscans]
        rfl
      · intro hjudges
        have htrue : (s.world.reading r).judgesScans = true := hjudges
        rw [hscans] at htrue
        cases htrue
  | scans => exact ⟨.rules, hvisits, rfl⟩
  | rules =>
    refine hafter _ ?_ rfl
    have hscans : (s.world.reading r).judgesScans = true := hvisits
    unfold judged
    rw [hscans]
    rfl
  | tags => exact ⟨.signatures, hvisits, rfl⟩
  | signatures =>
    refine ⟨.existing, rfl, ?_⟩
    have hsig : (s.world.reading r).judgesSignatures = true := hvisits
    unfold upTo
    simp only [hsig, if_true]
    rfl
  | existing => exact absurd rfl hstage

theorem unsigned_congr {rd rd' : Reading} (hrepo : rd'.repo = rd.repo) (horg : rd'.org = rd.org)
    (hrows : rd'.rows = rd.rows) (htags : rd'.tags = rd.tags)
    (hsignatures : rd'.signatures = rd.signatures) : unsigned rd' = unsigned rd := by
  have hcovered (rows : List ManifestRow) : coveredByIndex rd' rows = coveredByIndex rd rows := by
    induction rows with
    | nil => rfl
    | cons r rows ih =>
      unfold coveredByIndex
      rw [hsignatures, ih]
  have hunsigned (covered : List Digest) (rows : List ManifestRow) :
      unsignedRows rd' covered rows = unsignedRows rd covered rows := by
    induction rows with
    | nil => rfl
    | cons r rows ih =>
      unfold unsignedRows tagsOf
      rw [hsignatures, htags, ih]
  unfold unsigned
  rw [hrepo, horg, hrows, hcovered]
  simp only [hunsigned]

theorem compute_upTo (lower : String → String) (full : Reading) :
    compute lower (full.upTo .existing) = compute lower full := by
  have hscans (rd : Reading) (hrepo : rd.repo = full.repo) (horg : rd.org = full.org)
      (hrows : rd.rows = full.rows) (hoff : full.judgesScans = false) :
      blockedByScan lower rd = blockedByScan lower full := by
    unfold judgesScans at hoff
    have hnone (x : Reading) (hx : x.repo = full.repo ∧ x.org = full.org ∧ x.rows = full.rows) :
        blockedByScan lower x = [] := by
      unfold blockedByScan
      rw [if_neg]
      rw [hx.1, hx.2.1, hx.2.2]
      rintro ⟨hlevel, hne⟩
      rw [hlevel, Bool.true_and] at hoff
      simp [hne] at hoff
    rw [hnone rd ⟨hrepo, horg, hrows⟩, hnone full ⟨rfl, rfl, rfl⟩]
  have hsignatures (rd : Reading) (hrepo : rd.repo = full.repo) (horg : rd.org = full.org)
      (hrows : rd.rows = full.rows) (hoff : full.judgesSignatures = false) :
      unsigned rd = unsigned full := by
    unfold judgesSignatures at hoff
    have hnone (x : Reading) (hx : x.repo = full.repo ∧ x.org = full.org ∧ x.rows = full.rows) :
        unsigned x = some [] := by
      unfold unsigned
      rw [if_neg]
      rw [hx.1, hx.2.1, hx.2.2]
      rintro ⟨hne, hpolicy⟩
      rw [hpolicy, Bool.and_true] at hoff
      simp [hne] at hoff
    rw [hnone rd ⟨hrepo, horg, hrows⟩, hnone full ⟨rfl, rfl, rfl⟩]
  have hparts (rd : Reading) (hb : blockedByScan lower rd = blockedByScan lower full)
      (hu : unsigned rd = unsigned full) : compute lower rd = compute lower full := by
    unfold compute
    rw [hb, hu]
  cases hs : full.judgesScans with
  | true =>
    cases hg : full.judgesSignatures with
    | true =>
      have heq : full.upTo .existing = full := by
        unfold upTo judged
        simp only [hs, hg, if_true]
        rfl
      rw [heq]
    | false =>
      have heq : full.upTo .existing = { full with tags := [], signatures := [] } := by
        unfold upTo judged
        simp only [hs, hg, if_true, false_eq_true, if_false]
        rfl
      rw [heq]
      exact hparts _ rfl (hsignatures _ rfl rfl rfl hg)
  | false =>
    cases hg : full.judgesSignatures with
    | true =>
      have heq : full.upTo .existing = { full with now := 0, scans := [], rules := [] } := by
        unfold upTo judged
        simp only [hs, hg, if_true, false_eq_true, if_false]
        rfl
      rw [heq]
      exact hparts _ (hscans _ rfl rfl rfl hs) (unsigned_congr rfl rfl rfl rfl rfl)
    | false =>
      have heq : full.upTo .existing =
          { blank full.repo with org := full.org, rows := full.rows } := by
        unfold upTo judged
        simp only [hs, hg, false_eq_true, if_false]
      rw [heq]
      exact hparts _ (hscans _ rfl rfl rfl hs) (hsignatures _ rfl rfl rfl hg)

/-! ## The tables between changes -/

section tables

variable {w : World}

theorem readingOf_setBlocks (blocks : List Block) :
    (w.setBlocks id blocks).readingOf id = w.readingOf id := by
  unfold World.readingOf
  have hmap : (w.setBlocks id blocks).repo id =
      (w.repo id).map fun r => { r with blocks := blocks } := repo_updateRepo_self fun _ => rfl
  rw [hmap, map_map]
  rfl

theorem readingOf_setScanState {d : Digest} {q : Option Id} {fields : ScanRow → ScanRow}
    (hheld : (w.repo id).any (·.holds d) = false) :
    (w.setScanState d q fields).readingOf id = w.readingOf id := by
  unfold World.readingOf
  have hrepo : (w.setScanState d q fields).repo id = w.repo id := rfl
  rw [hrepo]
  cases hr : w.repo id with
  | none => rfl
  | some r =>
    rw [hr] at hheld
    have hnot : r.holds d = false := hheld
    have hscans : (w.setScanState d q fields).scansOf r.manifests = w.scansOf r.manifests := by
      refine Table.filter_upsert (fun x hx => ?_) w.scans
      have hkey : x.digest = d := hx
      unfold Repo.holds at hnot
      rw [hkey]
      simpa using hnot
    simp only [map_some, Option.some.injEq]
    unfold World.reading
    rw [hscans]
    rfl

variable {target : Target} {statement : Statement}

theorem readingOf_apply
    (hfits : statement.fits id w target = true) (hnot : statement.touches id w target = false) :
    (statement.apply id w target).readingOf id = w.readingOf id ∧
      (statement.apply id w target).repo id = w.repo id := by
  cases target with
  | repository => cases statement <;> cases hnot
  | elsewhere q =>
    cases statement with
    | storeScan d findings report | scanStatus d status => exact ⟨readingOf_setScanState hnot, rfl⟩
    | upsertSignature row | deleteSignature m s | insertException rule | deleteException e
    | orgPolicy settings | repoPolicy level unrated signature | transfer o => cases hfits
  | organization o =>
    replace hnot : (Target.organization o).concerns id w = false := by
      cases statement <;> exact hnot
    have hne (r : Repo) (hr : w.repo id = some r) : r.row.organizationId ≠ o := by
      intro heq
      unfold Target.concerns at hnot
      rw [hr] at hnot
      simp [heq] at hnot
    have hsame (w' : World) (hrepo : w'.repo id = w.repo id) (hnow : w'.now = w.now)
        (hscans : w'.scans = w.scans)
        (horg : ∀ r, w.repo id = some r → w'.org r.row.organizationId = w.org r.row.organizationId)
        (hrules : ∀ r, w.repo id = some r → w'.rulesFor r.row.organizationId r.row.id =
          w.rulesFor r.row.organizationId r.row.id) :
        (w'.repo id).map w'.reading = (w.repo id).map w.reading ∧ w'.repo id = w.repo id := by
      refine ⟨?_, hrepo⟩
      rw [hrepo]
      cases hr : w.repo id with
      | none => rfl
      | some r =>
        simp only [map_some, Option.some.injEq]
        unfold World.reading World.scansOf
        rw [horg r hr, hrules r hr, hnow, hscans]
    cases statement with
    | orgPolicy settings =>
      refine hsame _ rfl rfl rfl (fun r hr => ?_) fun r _ => rfl
      have hkey : r.row.organizationId ≠ (o, settings).1 := hne r hr
      have hfind : Table.find Prod.fst r.row.organizationId
          (Table.upsert Prod.fst (o, settings) w.settings) =
            Table.find Prod.fst r.row.organizationId w.settings :=
        Table.find_upsert_ne hkey w.settings
      exact congrArg (Option.map fun x => x.2) hfind
    | insertException rule =>
      refine hsame _ rfl rfl rfl (fun r _ => rfl) fun r hr => ?_
      have horg : rule.organizationId ≠ r.row.organizationId := by
        rw [(of_decide_eq_true hfits).1]
        exact Ne.symm (hne r hr)
      unfold Statement.apply World.insertException World.rulesFor
      rw [List.filter_append]
      simp [horg]
    | deleteException e =>
      refine hsame _ rfl rfl rfl (fun r _ => rfl) fun r hr => ?_
      unfold Statement.apply World.deleteException World.rulesFor
      rw [List.filter_filter]
      refine List.filter_congr fun rule hrule => ?_
      -- the exceptions of that number are those of the other organization
      have hof := List.all_eq_true.mp hfits rule hrule
      by_cases he : rule.id = e
      · have horg : rule.organizationId ≠ r.row.organizationId := by
          rw [(of_decide_eq_true hof he).1]
          exact Ne.symm (hne r hr)
        simp [horg]
      · simp [he]
    | storeScan d findings report | scanStatus d status | upsertSignature row
    | deleteSignature m s | repoPolicy level unrated signature | transfer o' => cases hfits

/-- A statement keeps the keys of the tables and the repository, and one of an organization
its membership. -/
theorem apply_keeps (hw : w.Keyed)
    (hrepo : (w.repo id).isSome) (hfits : statement.fits id w target = true) :
    (statement.apply id w target).Keyed ∧ ((statement.apply id w target).repo id).isSome ∧
      ∀ o, target = .organization o →
        target.concerns id (statement.apply id w target) = target.concerns id w := by
  have hupdate (f : Repo → Repo) (hf : KeepsKeys f) :
      (w.updateRepo id f).Keyed ∧ ((w.updateRepo id f).repo id).isSome := by
    refine ⟨hw.updateRepo hf, ?_⟩
    rw [repo_updateRepo_self hf.id, isSome_map]
    exact hrepo
  have hsame (w' : World) (hk : w'.Keyed) (hr : w'.repos = w.repos) :
      w'.Keyed ∧ (w'.repo id).isSome ∧
        ∀ o, target = .organization o → target.concerns id w' = target.concerns id w := by
    have hfind : w'.repo id = w.repo id := by
      unfold World.repo
      rw [hr]
    refine ⟨hk, hfind ▸ hrepo, fun o _ => ?_⟩
    unfold Target.concerns
    rw [hfind]
  have hset (d : Digest) (q : Option Id) (fields : ScanRow → ScanRow) :
      (w.setScanState d q fields).Keyed := hw.setScanState _ _ _
  cases target with
  | repository =>
    have hrest (w' : World) (h : w'.Keyed ∧ (w'.repo id).isSome) :
        w'.Keyed ∧ (w'.repo id).isSome ∧ ∀ o, Target.repository = .organization o →
          Target.repository.concerns id w' = Target.repository.concerns id w :=
      ⟨h.1, h.2, nofun⟩
    cases statement with
    | storeScan d findings report | scanStatus d status => exact hsame _ (hset d _ _) rfl
    | upsertSignature row | deleteSignature m s | repoPolicy level unrated signature =>
      exact hrest _ (hupdate _ ⟨fun _ => rfl, fun _ hm => hm, fun _ hb => hb⟩)
    | insertException rule =>
      exact hsame _ ⟨hw.repos, hw.scans, hw.manifests, hw.blocks⟩ rfl
    | deleteException e => exact hsame _ ⟨hw.repos, hw.scans, hw.manifests, hw.blocks⟩ rfl
    | orgPolicy settings => cases hfits
    | transfer o => exact hrest _ (hupdate _ ⟨fun _ => rfl, fun _ hm => hm, fun _ hb => hb⟩)
  | elsewhere q =>
    cases statement with
    | storeScan d findings report | scanStatus d status => exact hsame _ (hset d _ _) rfl
    | upsertSignature row | deleteSignature m s | insertException rule | deleteException e
    | orgPolicy settings | repoPolicy level unrated signature | transfer o => cases hfits
  | organization o =>
    cases statement with
    | orgPolicy settings | deleteException e | insertException rule =>
      exact hsame _ ⟨hw.repos, hw.scans, hw.manifests, hw.blocks⟩ rfl
    | storeScan d findings report | scanStatus d status | upsertSignature row
    | deleteSignature m s | repoPolicy level unrated signature | transfer o' => cases hfits

end tables

end Chicoree.PullBlocks
