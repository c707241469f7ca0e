import Mathlib.Algebra.Order.Ring.Int
import Chicoree.PullBlocks.WholeImages
import Chicoree.PullBlocks.World

/-! # A vulnerable image stays blocked

Histories of pushes, scans, refreshes, policies and exceptions, one event at a time. A finished
scan reports every repository that holds the digest and whose policy the findings violate; a
report that is due asks for a block. -/

namespace Chicoree.PullBlocks

open Registryd (Digest)
open Transition List

/-! ## Histories -/

/-- A digest a finished scan reported for a repository, kept for the proofs. -/
structure Report where
  repositoryId : Id
  digest : Digest
  /-- The scan that reported it first. -/
  scan : Nat
  findings : List Finding
  /-- At the last refresh of the repository since then the scan row stood as scanned. -/
  refreshed : Bool
  /-- The follow-up work of a scan that reported it is done. -/
  due : Bool
deriving DecidableEq

/-- What is left to do after a finished scan is stored. -/
structure FollowUp where
  scan : Nat
  repositoryId : Id
  digest : Digest

structure History where
  world : World
  followUps : List FollowUp
  /-- How many scans have finished. -/
  scans : Nat
  reports : List Report

inductive Event where
  | push (repositoryId : Id) (row : ManifestRow)
  | tag (repositoryId : Id) (tag : TagRow)
  | sign (repositoryId : Id) (row : SignatureRow)
  | unsign (repositoryId : Id) (manifest signature : Digest)
  /-- A scan is queued, starts or fails, for whichever repository. -/
  | scanStatus (digest : Digest) (repositoryId : Option Id) (status : ScanStatus)
  /-- The result of a scan is stored. -/
  | finished (repositoryId : Id) (digest : Digest) (findings : List Finding)
      (report : Option (List Finding))
  /-- The refresh after a finished scan, the `i`th that is left to do. -/
  | followUp (i : Nat)
  | refresh (repositoryId : Id)
  | orgPolicy (organizationId : Id) (settings : OrgSettings)
  | repoPolicy (repositoryId : Id) (blockPullsAt : Option RepoLevel)
      (blockUnrated requireSignature : Option Bool)
  | createException (rule : ExceptionRule)
  | deleteException (id : Id)
  | tick (now : Int)

section steps

variable (lower : String → String)

def violates (w : World) (r : Repo) (findings : List Finding) : Bool :=
  (violation (some (effectiveSummary lower findings
      (w.rulesFor r.row.organizationId r.row.id) (some r.row.id) w.now))
    (effectivePolicy (w.org r.row.organizationId) r.row)).isSome

def isScanned (w : World) (d : Digest) : Bool :=
  (Table.find (·.digest) d w.scans).any fun row => decide (row.status = .scanned)

def returns (w : World) (repositoryId : Id) : Bool :=
  (w.repo repositoryId).any fun r =>
    (refreshRepositoryBlocks lower (w.reading r) r.blocks).isSome

def Report.see (w : World) (repositoryId : Id) (c : Report) : Report :=
  if c.repositoryId = repositoryId then { c with refreshed := isScanned w c.digest } else c

def seeAll (w : World) (repositoryId : Id) (reports : List Report) : List Report :=
  if returns lower w repositoryId then reports.map (Report.see w repositoryId) else reports

def reportFor (reports : List Report) (scan : Nat) (digest : Digest)
    (findings : List Finding) (r : Repo) : Report :=
  match reports.find? fun c => decide (c.repositoryId = r.id ∧ c.digest = digest) with
  | some c => { c with findings := findings }
  | none => ⟨r.id, digest, scan, findings, false, false⟩

def World.holders (w : World) (d : Digest) : List Repo :=
  w.repos.filter fun r => decide (d ∈ r.manifests.map (·.digest))

def reported (w : World) (reports : List Report) (scan : Nat) (digest : Digest)
    (findings : List Finding) : List Report :=
  (reports.filter fun c => decide (c.digest ≠ digest)) ++
    ((w.holders digest).filter fun r => violates lower w r findings).map
      (reportFor reports scan digest findings)

def World.policy (w : World) (repositoryId : Id) : Option Policy :=
  (w.repo repositoryId).map fun r => effectivePolicy (w.org r.row.organizationId) r.row

def samePolicy (w w' : World) (reports : List Report) : List Report :=
  reports.filter fun c => decide (w'.policy c.repositoryId = w.policy c.repositoryId)

def stillViolating (w : World) (reports : List Report) : List Report :=
  reports.filter fun c => (w.repo c.repositoryId).any fun r => violates lower w r c.findings

def Report.follow (f : FollowUp) (c : Report) : Report :=
  if c.digest = f.digest ∧ c.scan ≤ f.scan then { c with due := true } else c

def step (h : History) : Event → Option History
  | .push id row => some { h with world := h.world.push id row }
  | .tag id tag => some { h with world := h.world.setTag id tag }
  | .sign id row => some { h with world := h.world.upsertSignature id row }
  | .unsign id m s => some { h with world := h.world.deleteSignature id m s }
  | .scanStatus d id status =>
    if status = .scanned then none
    else some { h with world := h.world.setScanStatus d id status }
  | .finished id d findings report =>
    let w := h.world.storeScanResult d (some id) findings report
    some
      { world := w
        followUps := h.followUps ++ [⟨h.scans, id, d⟩]
        scans := h.scans + 1
        reports := reported lower w h.reports h.scans d findings }
  | .followUp i =>
    (h.followUps[i]?).map fun f =>
      { h with
        world := h.world.refresh lower f.repositoryId
        followUps := h.followUps.eraseIdx i
        reports := (seeAll lower h.world f.repositoryId h.reports).map (Report.follow f) }
  | .refresh id =>
    some
      { h with
        world := h.world.refresh lower id
        reports := seeAll lower h.world id h.reports }
  | .orgPolicy id settings =>
    let w := h.world.setOrgSettings id settings
    some { h with world := w, reports := samePolicy h.world w h.reports }
  | .repoPolicy id level unrated signature =>
    let w := h.world.setRepoPolicy id level unrated signature
    some { h with world := w, reports := samePolicy h.world w h.reports }
  | .createException rule =>
    let w := h.world.insertException rule
    some { h with world := w, reports := stillViolating lower w h.reports }
  | .deleteException id => some { h with world := h.world.deleteException id }
  | .tick now =>
    if h.world.now ≤ now then some { h with world := { h.world with now := now } } else none

/-- Histories over tables whose rows are keyed, before any scan has finished. -/
def histories : Machine History Event where
  init h := h.world.Keyed ∧ h.followUps = [] ∧ h.reports = []
  step := step lower

end steps

def Blocked (w : World) (repositoryId : Id) (d : Digest) : Prop :=
  ∃ r, w.repo repositoryId = some r ∧ ∃ b ∈ r.blocks, b.digest = d ∧ b.pushersExempt = false

def StaysBlocked (h : History) : Prop :=
  ∀ c ∈ h.reports, c.due = true → Blocked h.world c.repositoryId c.digest

def refreshesScanned (lower : String → String) (h : History) (repositoryId : Id) : Bool :=
  !returns lower h.world repositoryId ||
    h.reports.all fun c => !decide (c.repositoryId = repositoryId) || !c.due ||
      isScanned h.world c.digest

/-- The condition on an event: no refresh comes between a new scan of a due digest and its
result, and the follow-up of a scan ends when every reported repository has been refreshed
with the scan in place. -/
def inOrder (lower : String → String) (h : History) : Event → Bool
  | .refresh id => refreshesScanned lower h id
  | .followUp i =>
    (h.followUps[i]?).all fun f => refreshesScanned lower h f.repositoryId &&
      (seeAll lower h.world f.repositoryId h.reports).all fun c =>
        !decide (c.digest = f.digest ∧ c.scan ≤ f.scan) || c.refreshed
  | _ => true

abbrev InOrder (lower : String → String) (h : History) (e : Event) : Prop :=
  inOrder lower h e = true

variable {lower : String → String}

/-- What stands behind a report. -/
structure Kept (lower : String → String) (w : World) (c : Report) : Prop where
  repo : ∃ r, w.repo c.repositoryId = some r ∧ c.digest ∈ r.manifests.map (·.digest) ∧
    violates lower w r c.findings = true
  row : ∃ row, Table.find (·.digest) c.digest w.scans = some row ∧ row.findings = some c.findings
  blocked : c.refreshed = true → Blocked w c.repositoryId c.digest
  due : c.due = true → c.refreshed = true

structure Kepts (lower : String → String) (h : History) : Prop where
  keyed : h.world.Keyed
  reports : ∀ c ∈ h.reports, Kept lower h.world c

section events

variable {w w' : World} {c : Report} {id : Id}

/-- A change of the tables that keeps the repository of a report, its blocks and the findings
of its digest. -/
theorem Kept.of (h : Kept lower w c)
    (hrepo : ∀ r, w.repo c.repositoryId = some r → ∃ r', w'.repo c.repositoryId = some r' ∧
      (c.digest ∈ r.manifests.map (·.digest) → c.digest ∈ r'.manifests.map (·.digest)) ∧
      (violates lower w r c.findings = true → violates lower w' r' c.findings = true) ∧
      r'.blocks = r.blocks)
    (hscan : ∀ row, Table.find (·.digest) c.digest w.scans = some row →
      ∃ row', Table.find (·.digest) c.digest w'.scans = some row' ∧
        row'.findings = row.findings) : Kept lower w' c := by
  obtain ⟨r, hr, hholds, hviolates⟩ := h.repo
  obtain ⟨r', hr', hholds', hviolates', hblocks⟩ := hrepo r hr
  obtain ⟨row, hrow, hfindings⟩ := h.row
  obtain ⟨row', hrow', hsame⟩ := hscan row hrow
  refine ⟨⟨r', hr', hholds' hholds, hviolates' hviolates⟩, ⟨row', hrow', hsame.trans hfindings⟩,
    fun hrefreshed => ?_, h.due⟩
  obtain ⟨r₀, hr₀, b, hb, hrest⟩ := h.blocked hrefreshed
  rw [hr] at hr₀
  cases hr₀
  exact ⟨r', hr', b, hblocks ▸ hb, hrest⟩

/-- A change of a repository that leaves its row and its blocks and drops no manifest. -/
structure AddsTo (f : Repo → Repo) : Prop where
  row : ∀ r, (f r).row = r.row
  blocks : ∀ r, (f r).blocks = r.blocks
  holds : ∀ r d, d ∈ r.manifests.map (·.digest) → d ∈ (f r).manifests.map (·.digest)

theorem Kept.updateRepo {f : Repo → Repo} (h : Kept lower w c) (hf : AddsTo f) :
    Kept lower (w.updateRepo id f) c := by
  have hid (r : Repo) : (f r).id = r.id := congrArg RepoRow.id (hf.row r)
  refine h.of (fun r hr => ?_) fun row hrow => ⟨row, hrow, rfl⟩
  by_cases hk : c.repositoryId = id
  · subst hk
    refine ⟨f r, by rw [repo_updateRepo_self hid, hr]; rfl, hf.holds r _, fun hv => ?_, hf.blocks r⟩
    unfold violates at hv ⊢
    rw [hf.row]
    exact hv
  · exact ⟨r, by rw [repo_updateRepo_ne hid hk, hr], fun hd => hd, fun hv => hv, rfl⟩

theorem mem_digests_upsert {rows : List ManifestRow} {row : ManifestRow} {d : Digest}
    (h : d ∈ rows.map (·.digest)) :
    d ∈ (Table.upsert (·.digest) row rows).map (·.digest) := by
  obtain ⟨r, hr, rfl⟩ := mem_map.mp h
  by_cases hk : r.digest = row.digest
  · rw [hk]
    exact mem_map_of_mem (Table.mem_upsert_self row rows)
  · exact mem_map_of_mem (Table.mem_upsert_of_ne hr hk)

theorem push_keyed (hw : w.Keyed) (id : Id) (row : ManifestRow) : (w.push id row).Keyed :=
  hw.updateRepo ⟨fun _ => rfl, fun _ hm => hm.upsert _, fun _ hb => hb⟩

theorem Kept.push (h : Kept lower w c) (id : Id) (row : ManifestRow) :
    Kept lower (w.push id row) c :=
  h.updateRepo ⟨fun _ => rfl, fun _ => rfl, fun _ _ hd => mem_digests_upsert hd⟩

theorem tag_keyed (hw : w.Keyed) (id : Id) (tag : TagRow) : (w.setTag id tag).Keyed :=
  hw.updateRepo ⟨fun _ => rfl, fun _ hm => hm, fun _ hb => hb⟩

theorem Kept.tag (h : Kept lower w c) (id : Id) (tag : TagRow) : Kept lower (w.setTag id tag) c :=
  h.updateRepo ⟨fun _ => rfl, fun _ => rfl, fun _ _ hd => hd⟩

theorem sign_keyed (hw : w.Keyed) (id : Id) (row : SignatureRow) :
    (w.upsertSignature id row).Keyed :=
  hw.updateRepo ⟨fun _ => rfl, fun _ hm => hm, fun _ hb => hb⟩

theorem Kept.sign (h : Kept lower w c) (id : Id) (row : SignatureRow) :
    Kept lower (w.upsertSignature id row) c :=
  h.updateRepo ⟨fun _ => rfl, fun _ => rfl, fun _ _ hd => hd⟩

theorem unsign_keyed (hw : w.Keyed) (id : Id) (m s : Digest) : (w.deleteSignature id m s).Keyed :=
  hw.updateRepo ⟨fun _ => rfl, fun _ hm => hm, fun _ hb => hb⟩

theorem Kept.unsign (h : Kept lower w c) (id : Id) (m s : Digest) :
    Kept lower (w.deleteSignature id m s) c :=
  h.updateRepo ⟨fun _ => rfl, fun _ => rfl, fun _ _ hd => hd⟩

theorem scanStatus_keeps (hw : w.Keyed) (d : Digest) (id : Option Id) (status : ScanStatus) :
    (w.setScanStatus d id status).Keyed ∧
      ∀ c, Kept lower w c → Kept lower (w.setScanStatus d id status) c := by
  refine ⟨hw.setScanState _ _ _, fun c hc => ?_⟩
  refine hc.of (fun r hr => ⟨r, hr, fun hd => hd, fun hv => hv, rfl⟩) fun row hrow => ?_
  unfold World.setScanStatus
  by_cases hd : c.digest = d
  · subst hd
    refine ⟨_, find_setScanState_self w _ _ _, ?_⟩
    unfold World.scanState
    rw [hrow]
    rfl
  · exact ⟨row, by rw [find_setScanState_ne hd, hrow], rfl⟩

theorem Kept.ofWorld (h : Kept lower w c) (hrepos : w'.repo c.repositoryId = w.repo c.repositoryId)
    (hscans : w'.scans = w.scans)
    (hviolates : ∀ r, w.repo c.repositoryId = some r →
      violates lower w r c.findings = true → violates lower w' r c.findings = true) :
    Kept lower w' c := by
  refine h.of (fun r hr => ⟨r, hrepos ▸ hr, fun hd => hd, hviolates r hr, rfl⟩) fun row hrow => ?_
  exact ⟨row, by rw [hscans, hrow], rfl⟩

end events

/-! ## Refreshes -/

section refreshes

variable {w : World} {id : Id}

/-- A refresh that runs to its end rewrites the blocks of its repository, one that throws
nothing. -/
theorem refresh_cases (lower : String → String) (w : World) (id : Id) :
    (returns lower w id = false ∧ w.refresh lower id = w) ∨
    ∃ r after n, w.repo id = some r ∧ returns lower w id = true ∧
      refreshRepositoryBlocks lower (w.reading r) r.blocks = some (after, n) ∧
        w.refresh lower id = w.setBlocks id after := by
  unfold returns World.refresh
  cases hr : w.repo id with
  | none => exact .inl ⟨rfl, rfl⟩
  | some r =>
    cases hout : refreshRepositoryBlocks lower (w.reading r) r.blocks with
    | none =>
      left
      refine ⟨?_, ?_⟩
      · simp [hout]
      · simp only [hout]
    | some out =>
      obtain ⟨after, n⟩ := out
      right
      refine ⟨r, after, n, rfl, ?_, hout, ?_⟩
      · simp [hout]
      · simp only [hout]

theorem blocked_of_scanned (hw : w.Keyed) {r : Repo} (hr : w.repo id = some r) {d : Digest}
    (hd : d ∈ r.manifests.map (·.digest)) {row : ScanRow} {findings : List Finding}
    (hrow : Table.find (·.digest) d w.scans = some row) (hscanned : row.status = .scanned)
    (hfindings : row.findings = some findings) (hviolates : violates lower w r findings = true)
    {after : List Block} {n : Nat}
    (hout : refreshRepositoryBlocks lower (w.reading r) r.blocks = some (after, n)) :
    ∃ b ∈ after, b.digest = d ∧ b.pushersExempt = false := by
  have hmem := (mem_of_repo hr).1
  obtain ⟨c, hc, heq⟩ := Option.map_eq_some_iff.mp hout
  obtain ⟨rfl, -⟩ := Prod.mk.inj heq
  have hsound : c.Sound := compute_sound (hw.manifests r hmem) hc
  obtain ⟨us, -, rfl⟩ := Option.map_eq_some_iff.mp hc
  -- the scan of the manifest itself violates
  have hown : (own lower (w.reading r) d).isSome := by
    have hfind : Table.find (·.digest) d (w.reading r).scans = some row :=
      (find_scansOf hw hd).trans hrow
    have hsummary : effectiveScanSummary lower row (w.reading r).rules (some r.row.id) w.now =
        some (effectiveSummary lower findings (w.reading r).rules (some r.row.id) w.now) := by
      unfold effectiveScanSummary findingsOf
      rw [hfindings]
      simp
    have hrows : d ∈ (w.reading r).rows.map (·.digest) := hd
    unfold own ownViolation
    rw [if_pos hrows, hfind]
    simp only [hscanned, if_true]
    show (violation (effectiveScanSummary lower row (w.reading r).rules (some r.row.id) w.now)
      (effectivePolicy (w.org r.row.organizationId) r.row)).isSome = true
    rw [hsummary]
    exact hviolates
  have hblocked : ((blockedByScan lower (w.reading r)).get d).isSome := by
    rw [get_blockedByScan]
    exact Inherit.pass_isSome hown _
  obtain ⟨b, hb, hrest⟩ := (hsound.scan_block d).mpr hblocked
  exact ⟨b, (hsound.written (hw.blocks r hmem) b).mpr hb, hrest⟩

theorem refresh_keeps (id : Id) (hw : w.Keyed) (c : Report) (hc : Kept lower w c)
    (hscanned : returns lower w id = true → c.repositoryId = id → c.due = true →
      isScanned w c.digest = true) :
    Kept lower (w.refresh lower id) (if returns lower w id then c.see w id else c) := by
  rcases refresh_cases lower w id with ⟨hthrows, hsame⟩ | ⟨r, after, n, hr, hreturns, hout, hnew⟩
  · rw [hthrows, hsame]
    exact hc
  · rw [hreturns, if_pos rfl, hnew]
    unfold Report.see
    by_cases hid : c.repositoryId = id
    · subst hid
      rw [if_pos rfl]
      have hset := repo_setBlocks_self hr after
      obtain ⟨r₀, hr₀, hholds, hviolates⟩ := hc.repo
      rw [hr] at hr₀
      cases hr₀
      refine ⟨⟨_, hset, hholds, hviolates⟩, hc.row, fun hseen => ?_, fun hdue => ?_⟩
      · obtain ⟨row, hrow, hfindings⟩ := hc.row
        have hstatus : row.status = .scanned := by
          have hany : isScanned w c.digest = true := hseen
          unfold isScanned at hany
          rw [hrow] at hany
          simpa using hany
        exact ⟨_, hset, blocked_of_scanned hw hr hholds hrow hstatus hfindings hviolates hout⟩
      · exact hscanned hreturns rfl hdue
    · rw [if_neg hid]
      refine hc.of (fun r' hr' => ?_) fun row hrow => ⟨row, hrow, rfl⟩
      exact ⟨r', by rw [repo_setBlocks_ne hid, hr'], fun hd => hd, fun hv => hv, rfl⟩

theorem seeAll_kept (hw : w.Keyed) {reports : List Report}
    (hreports : ∀ c ∈ reports, Kept lower w c)
    (hscanned : returns lower w id = true → ∀ c ∈ reports, c.repositoryId = id → c.due = true →
      isScanned w c.digest = true) :
    ∀ c ∈ seeAll lower w id reports, Kept lower (w.refresh lower id) c := by
  intro c hc
  unfold seeAll at hc
  by_cases hreturns : returns lower w id = true
  · rw [if_pos hreturns] at hc
    obtain ⟨c₀, hc₀, rfl⟩ := mem_map.mp hc
    have hkept := refresh_keeps id hw c₀ (hreports c₀ hc₀) fun h => hscanned h c₀ hc₀
    rw [if_pos hreturns] at hkept
    exact hkept
  · rw [if_neg hreturns] at hc
    have hkept := refresh_keeps id hw c (hreports c hc) fun h => absurd h hreturns
    rw [if_neg hreturns] at hkept
    exact hkept

end refreshes

/-! ## Finished scans, policies and exceptions -/

section changes

variable {w : World} {reports : List Report}

theorem store_keyed (hw : w.Keyed) (d : Digest) (id : Option Id) (findings : List Finding)
    (report : Option (List Finding)) : (w.storeScanResult d id findings report).Keyed :=
  hw.setScanState _ _ _

theorem finished_keeps (hw : w.Keyed) (hreports : ∀ c ∈ reports, Kept lower w c) (scan : Nat)
    (id : Option Id) (d : Digest) (findings : List Finding) (report : Option (List Finding)) :
    ∀ c ∈ reported lower (w.storeScanResult d id findings report) reports scan d findings,
      Kept lower (w.storeScanResult d id findings report) c := by
  intro c hc
  rcases mem_append.mp hc with hc | hc
  · obtain ⟨hc, hne⟩ := mem_filter.mp hc
    refine (hreports c hc).of (fun r hr => ⟨r, hr, fun hd => hd, fun hv => hv, rfl⟩)
      fun row hrow => ⟨row, ?_, rfl⟩
    unfold World.storeScanResult
    rw [find_setScanState_ne (of_decide_eq_true hne), hrow]
  · obtain ⟨r, hr, rfl⟩ := mem_map.mp hc
    obtain ⟨hr, hviolates⟩ := mem_filter.mp hr
    obtain ⟨hmem, hholds⟩ := mem_filter.mp hr
    have hfind : (w.storeScanResult d id findings report).repo r.id = some r :=
      hw.repos.find_self hmem
    have hrow := find_setScanState_self w d id fun row =>
      { row with
        status := .scanned, findings := some findings
        summary := some (summarizeFindings findings), report := report }
    unfold reportFor
    cases hold : reports.find? fun c => decide (c.repositoryId = r.id ∧ c.digest = d) with
    | none =>
      exact ⟨⟨r, hfind, of_decide_eq_true hholds, hviolates⟩, ⟨_, hrow, rfl⟩,
        fun h => absurd h Bool.false_ne_true, fun h => absurd h Bool.false_ne_true⟩
    | some c =>
      -- a report of an earlier scan goes on with the new findings
      have hkept := hreports c (mem_of_find?_eq_some hold)
      have hpred : decide (c.repositoryId = r.id ∧ c.digest = d) = true :=
        find?_some (p := fun c : Report => decide (c.repositoryId = r.id ∧ c.digest = d)) hold
      obtain ⟨hrepo, rfl⟩ := of_decide_eq_true hpred
      refine ⟨⟨r, ?_, of_decide_eq_true hholds, hviolates⟩, ⟨_, hrow, rfl⟩,
        fun hrefreshed => ?_, hkept.due⟩
      · rw [hrepo]
        exact hfind
      · obtain ⟨r₀, hr₀, hblock⟩ := hkept.blocked hrefreshed
        exact ⟨r₀, hr₀, hblock⟩

theorem orgPolicy_keeps (hreports : ∀ c ∈ reports, Kept lower w c) (id : Id)
    (settings : OrgSettings) :
    ∀ c ∈ samePolicy w (w.setOrgSettings id settings) reports,
      Kept lower (w.setOrgSettings id settings) c := by
  intro c hc
  obtain ⟨hc, hsame⟩ := mem_filter.mp hc
  refine (hreports c hc).ofWorld rfl rfl fun r hr hv => ?_
  have hrepo : (w.setOrgSettings id settings).repo c.repositoryId = some r := hr
  have hpolicy := of_decide_eq_true hsame
  unfold World.policy at hpolicy
  rw [hr, hrepo] at hpolicy
  simp only [Option.map_some, Option.some.injEq] at hpolicy
  unfold violates at hv ⊢
  rw [hpolicy]
  exact hv

theorem repoPolicy_keeps (hreports : ∀ c ∈ reports, Kept lower w c) (id : Id)
    (level : Option RepoLevel) (unrated signature : Option Bool) :
    ∀ c ∈ samePolicy w (w.setRepoPolicy id level unrated signature) reports,
      Kept lower (w.setRepoPolicy id level unrated signature) c := by
  intro c hc
  obtain ⟨hc, hsame⟩ := mem_filter.mp hc
  have hpolicy := of_decide_eq_true hsame
  refine (hreports c hc).of (fun r hr => ?_) fun row hrow => ⟨row, hrow, rfl⟩
  by_cases hk : c.repositoryId = id
  · subst hk
    let r' : Repo :=
      { r with
        row := { r.row with
          blockPullsAt := level, blockUnrated := unrated, requireSignature := signature } }
    have hmap : (w.setRepoPolicy c.repositoryId level unrated signature).repo c.repositoryId =
        (w.repo c.repositoryId).map fun r => { r with
          row := { r.row with
            blockPullsAt := level, blockUnrated := unrated, requireSignature := signature } } :=
      repo_updateRepo_self fun _ => rfl
    have hrepo : (w.setRepoPolicy c.repositoryId level unrated signature).repo c.repositoryId =
        some r' := by
      rw [hmap, hr]
      rfl
    refine ⟨r', hrepo, fun hd => hd, fun hv => ?_, rfl⟩
    unfold World.policy at hpolicy
    rw [hr, hrepo] at hpolicy
    simp only [Option.map_some, Option.some.injEq] at hpolicy
    unfold violates at hv ⊢
    rw [hpolicy]
    exact hv
  · have hsame : (w.setRepoPolicy id level unrated signature).repo c.repositoryId =
        w.repo c.repositoryId := repo_updateRepo_ne (fun _ => rfl) hk
    exact ⟨r, hsame.trans hr, fun hd => hd, fun hv => hv, rfl⟩

theorem repoPolicy_keyed (hw : w.Keyed) (id : Id) (level : Option RepoLevel)
    (unrated signature : Option Bool) : (w.setRepoPolicy id level unrated signature).Keyed :=
  hw.updateRepo ⟨fun _ => rfl, fun _ hm => hm, fun _ hb => hb⟩

theorem createException_keeps (hreports : ∀ c ∈ reports, Kept lower w c) (rule : ExceptionRule) :
    ∀ c ∈ stillViolating lower (w.insertException rule) reports,
      Kept lower (w.insertException rule) c := by
  intro c hc
  obtain ⟨hc, hstill⟩ := mem_filter.mp hc
  refine (hreports c hc).ofWorld rfl rfl fun r hr _ => ?_
  have hrepo : (w.insertException rule).repo c.repositoryId = some r := hr
  rw [hrepo] at hstill
  exact hstill

theorem deleteException_keeps (hreports : ∀ c ∈ reports, Kept lower w c) (id : Id) :
    ∀ c ∈ reports, Kept lower (w.deleteException id) c := by
  intro c hc
  refine (hreports c hc).ofWorld rfl rfl fun r _ hv => ?_
  refine violation_mono (fun rule hrule => ?_) le_rfl hv
  obtain ⟨hrule, happlies⟩ := mem_filter.mp hrule
  exact mem_filter.mpr ⟨(mem_filter.mp hrule).1, happlies⟩

theorem tick_keeps (hreports : ∀ c ∈ reports, Kept lower w c) {now : Int} (hnow : w.now ≤ now) :
    ∀ c ∈ reports, Kept lower { w with now := now } c := by
  intro c hc
  exact (hreports c hc).ofWorld rfl rfl fun r _ hv => violation_mono (fun _ h => h) hnow hv

end changes

/-! ## Every history -/

theorem scanned_of_condition {h : History} {id : Id} (hc : refreshesScanned lower h id = true) :
    returns lower h.world id = true → ∀ c ∈ h.reports, c.repositoryId = id → c.due = true →
      isScanned h.world c.digest = true := by
  intro hreturns c hmem hid hdue
  unfold refreshesScanned at hc
  rw [hreturns, Bool.not_true, Bool.false_or, all_eq_true] at hc
  have hone := hc c hmem
  rw [decide_eq_true hid, hdue] at hone
  simpa using hone

theorem event_keeps {h h' : History} {e : Event} (hk : Kepts lower h) (hc : InOrder lower h e)
    (hs : step lower h e = some h') : Kepts lower h' := by
  obtain ⟨hw, hreports⟩ := hk
  cases e with
  | push id row =>
    cases hs
    exact ⟨push_keyed hw id row, fun c hmem => (hreports c hmem).push id row⟩
  | tag id tag =>
    cases hs
    exact ⟨tag_keyed hw id tag, fun c hmem => (hreports c hmem).tag id tag⟩
  | sign id row =>
    cases hs
    exact ⟨sign_keyed hw id row, fun c hmem => (hreports c hmem).sign id row⟩
  | unsign id m s =>
    cases hs
    exact ⟨unsign_keyed hw id m s, fun c hmem => (hreports c hmem).unsign id m s⟩
  | scanStatus d id status =>
    simp only [step] at hs
    split at hs
    · cases hs
    · cases hs
      obtain ⟨hkeyed, hkeeps⟩ := scanStatus_keeps hw d id status
      exact ⟨hkeyed, fun c hmem => hkeeps c (hreports c hmem)⟩
  | finished id d findings report =>
    cases hs
    exact ⟨store_keyed hw _ _ _ _, finished_keeps hw hreports _ _ _ _ _⟩
  | followUp i =>
    obtain ⟨f, hf, rfl⟩ := Option.map_eq_some_iff.mp hs
    have hcond : inOrder lower h (.followUp i) = true := hc
    unfold inOrder at hcond
    simp only [hf, Option.all_some, Bool.and_eq_true, all_eq_true] at hcond
    obtain ⟨hscanned, hrefreshed⟩ := hcond
    refine ⟨refresh_keyed hw, fun c hmem => ?_⟩
    obtain ⟨c₀, hc₀, rfl⟩ := mem_map.mp hmem
    have hkept := seeAll_kept hw hreports (scanned_of_condition hscanned) c₀ hc₀
    unfold Report.follow
    split
    · rename_i hfollows
      -- the report becomes due with its repository refreshed
      have hseen := hrefreshed c₀ hc₀
      rw [decide_eq_true hfollows, Bool.not_true, Bool.false_or] at hseen
      exact ⟨hkept.repo, hkept.row, hkept.blocked, fun _ => hseen⟩
    · exact hkept
  | refresh id =>
    cases hs
    have hcond : refreshesScanned lower h id = true := hc
    exact ⟨refresh_keyed hw, seeAll_kept hw hreports (scanned_of_condition hcond)⟩
  | orgPolicy id settings =>
    cases hs
    exact ⟨⟨hw.repos, hw.scans, hw.manifests, hw.blocks⟩, orgPolicy_keeps hreports id settings⟩
  | repoPolicy id level unrated signature =>
    cases hs
    exact ⟨repoPolicy_keyed hw _ _ _ _, repoPolicy_keeps hreports _ _ _ _⟩
  | createException rule =>
    cases hs
    exact ⟨⟨hw.repos, hw.scans, hw.manifests, hw.blocks⟩, createException_keeps hreports rule⟩
  | deleteException id =>
    cases hs
    exact ⟨⟨hw.repos, hw.scans, hw.manifests, hw.blocks⟩, deleteException_keeps hreports id⟩
  | tick now =>
    simp only [step] at hs
    split at hs
    · rename_i hnow
      cases hs
      exact ⟨⟨hw.repos, hw.scans, hw.manifests, hw.blocks⟩, tick_keeps hreports hnow⟩
    · cases hs

/-- **A vulnerable image stays blocked** in every history in order: in every state reached,
what a finished scan reported is blocked from the end of its follow-up work on, until a later
scan, another policy or an exception lets it pass. -/
theorem stays_blocked {h : History} (hrun : (histories lower).Run (InOrder lower) h) :
    StaysBlocked h := by
  have hkept : Kepts lower h := by
    refine hrun.invariant ?_ fun s e s' _ hk hc hs => event_keeps hk hc hs
    rintro s ⟨hkeyed, -, hnone⟩
    refine ⟨hkeyed, fun c hc => ?_⟩
    rw [hnone] at hc
    cases hc
  intro c hc hdue
  have hc := hkept.reports c hc
  exact hc.blocked (hc.due hdue)

def oneImage : World where
  now := 0
  settings := [("org", ⟨some .critical, false, false⟩)]
  repos :=
    [⟨⟨"app", "org", none, none, none⟩, [⟨sampleDigest 'c', Registryd.Manifest.mediaTypeOCIManifest,
        some (imageOf (sampleDigest 'd')), none⟩], [], [], []⟩]
  scans := []
  exceptions := []

theorem oneImage_keyed : oneImage.Keyed := by
  refine ⟨by decide +kernel, by decide, fun r hr => ?_, fun r hr => ?_⟩ <;>
    cases mem_singleton.mp hr
  · decide +kernel
  · decide

def openssl : Finding := ⟨"CVE-2026-0001", .critical, "openssl"⟩

/-- A scan finds a critical vulnerability, and its follow-up blocks the image. -/
def firstScan : List Event := [.finished "app" (sampleDigest 'c') [openssl] none, .followUp 0]

theorem stays_blocked_first : ∃ h, (histories id).Run (InOrder id) h ∧
    (∃ c ∈ h.reports, c.due = true) ∧ StaysBlocked h := by
  have hdue : (((histories id).replay (InOrder id) ⟨oneImage, [], 0, []⟩ firstScan).map
      fun h => h.reports.any fun c => c.due) = some true := by decide +kernel
  obtain ⟨h, hh, hany⟩ := Option.map_eq_some_iff.mp hdue
  obtain ⟨c, hc, hcdue⟩ := any_eq_true.mp hany
  have hrun := Machine.run_of_replay (M := histories id) ⟨oneImage_keyed, rfl, rfl⟩ hh
  exact ⟨h, hrun, ⟨c, hc, hcdue⟩, stays_blocked hrun⟩

/-- The image is scanned again, and before the result is there something else refreshes the
repository. -/
def rescan : List Event :=
  firstScan ++ [.scanStatus (sampleDigest 'c') (some "app") .indexing, .refresh "app"]

theorem rescan_unblocks : ¬ ∀ h, (histories id).Reachable h → StaysBlocked h := by
  intro hall
  have hstate : (((histories id).replay (fun _ _ => True) ⟨oneImage, [], 0, []⟩ rescan).map
      fun h => (h.reports, h.world.repos.map (·.blocks))) =
        some ([⟨"app", sampleDigest 'c', 0, [openssl], false, true⟩], [[]]) := by
    decide +kernel
  obtain ⟨h, hh, hpair⟩ := Option.map_eq_some_iff.mp hstate
  obtain ⟨hreports, hblocks⟩ := Prod.mk.inj hpair
  have hrun := Machine.run_of_replay (M := histories id) ⟨oneImage_keyed, rfl, rfl⟩ hh
  obtain ⟨r, hr, b, hb, -⟩ := hall h hrun _ (hreports ▸ mem_singleton_self _) rfl
  have hmem : r.blocks ∈ h.world.repos.map (·.blocks) := mem_map_of_mem (mem_of_repo hr).1
  rw [hblocks] at hmem
  rw [mem_singleton.mp hmem] at hb
  cases hb

end Chicoree.PullBlocks
