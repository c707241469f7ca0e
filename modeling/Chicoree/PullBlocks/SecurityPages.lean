import Mathlib.Data.List.Dedup
import Chicoree.Lib.Firsts
import Chicoree.PullBlocks.Policy

/-! # Accepted risks on the security pages

`security.ts` decides in SQL, over the `scan_findings` rows of an image, what the pull policy
decides by `applyExceptions` over its stored findings. `lowerSql` is SQL's `lower`. -/

namespace Chicoree.PullBlocks

open List
open Firsts (firsts)
open Registryd (Digest)

/-! ## Rows -/

/-- A finding with the version of its package. -/
structure VersionedFinding extends Finding where
  version : String
deriving DecidableEq

/-- A row of `scan_findings`. -/
structure FindingRow where
  digest : Digest
  vulnerabilityId : String
  package : String
  version : String
  severity : Severity
deriving DecidableEq

/-- What `replaceScanFindings` tells findings apart by. -/
def VersionedFinding.key (f : VersionedFinding) : String :=
  f.id ++ "|" ++ f.package ++ "|" ++ f.version

/-- The parts of the key. -/
def VersionedFinding.parts (f : VersionedFinding) : String × String × String :=
  (f.id, f.package, f.version)

/-- The row of a finding. -/
def VersionedFinding.row (digest : Digest) (f : VersionedFinding) : FindingRow :=
  ⟨digest, f.id, f.package, f.version, f.severity⟩

/-- The rows of an image: one of each key, the first. -/
def replaceScanFindings (digest : Digest) (findings : List VersionedFinding) : List FindingRow :=
  (firsts VersionedFinding.key [] findings).map (VersionedFinding.row digest)

/-! ## The pages -/

section pages

variable (lowerSql : String → String) (exceptions : List ExceptionRule) (repo : RepoRow) (now : Int)

/-- `EXCEPTED` of a row of the repository. -/
def excepted (sf : FindingRow) : Bool :=
  exceptions.any fun ve =>
    decide (ve.organizationId = repo.organizationId ∧
      (ve.repositoryId = none ∨ ve.repositoryId = some repo.id) ∧
      lowerSql ve.vulnerabilityId = lowerSql sf.vulnerabilityId ∧
      (ve.package = none ∨ ve.package = some sf.package)) &&
      ve.expiresAt.all fun t => decide (now < t)

/-- The counts of one image: distinct rows that no exception covers. -/
def pageSummary (rows : List FindingRow) : SeveritySummary :=
  ((rows.filter fun sf => !excepted lowerSql exceptions repo now sf).dedup).foldl
    (fun s sf => s.bump sf.severity) {}

end pages

/-- The exceptions that are loaded for a repository. -/
def rulesFor (exceptions : List ExceptionRule) (repo : RepoRow) : List ExceptionRule :=
  exceptions.filter fun ve => decide (ve.organizationId = repo.organizationId ∧
    (ve.repositoryId = none ∨ ve.repositoryId = some repo.id))

/-! ## The same risks -/

section sameRisks

variable (lowerSql lower : String → String) (exceptions : List ExceptionRule) (repo : RepoRow)
  (now : Int) (digest : Digest) (findings : List VersionedFinding)

/-- The findings that SQL leaves uncovered are those that the policy does. -/
def SameUncovered : Prop :=
  (findings.filter fun f =>
      !excepted lowerSql exceptions repo now (f.row digest)).map (·.toFinding) =
    ((applyExceptions lower (findings.map (·.toFinding)) (rulesFor exceptions repo)
      (some repo.id) now).filter fun a => a.2.isNone).map (·.1)

/-- Pages and policy agree on the findings of an image and on their counts. -/
structure SameRisks : Prop where
  uncovered : SameUncovered lowerSql lower exceptions repo now digest findings
  counts : pageSummary lowerSql exceptions repo now (replaceScanFindings digest findings) =
    effectiveSummary lower (findings.map (·.toFinding)) (rulesFor exceptions repo)
      (some repo.id) now

/-- Pages and policy agree on the findings, and on the counts of those that differ in their
identifier, package or version. -/
structure SameDistinctRisks : Prop where
  uncovered : SameUncovered lowerSql lower exceptions repo now digest findings
  counts : pageSummary lowerSql exceptions repo now (replaceScanFindings digest findings) =
    effectiveSummary lower ((firsts VersionedFinding.parts [] findings).map (·.toFinding))
      (rulesFor exceptions repo) (some repo.id) now
  /-- Where all of them differ these are the counts of the image. -/
  distinct : (findings.map VersionedFinding.parts).Nodup →
    SameRisks lowerSql lower exceptions repo now digest findings

end sameRisks

/-- Text of ASCII. -/
def Ascii (s : String) : Prop := ∀ c ∈ s.toList, c.toNat < 128

section proofs

variable {lowerSql lower : String → String} {exceptions : List ExceptionRule} {repo : RepoRow}
  {now : Int} {digest : Digest} {findings : List VersionedFinding}

theorem excepted_iff {f : VersionedFinding}
    (hpackage : ∀ ve ∈ rulesFor exceptions repo, ve.package ≠ some "")
    (hids : ∀ ve ∈ rulesFor exceptions repo, lowerSql ve.vulnerabilityId = lowerSql f.id ↔
      lower ve.vulnerabilityId = lower f.id) :
    excepted lowerSql exceptions repo now (f.row digest) = true ↔
      Accepted lower (rulesFor exceptions repo) (some repo.id) now f.toFinding := by
  have hloaded (ve : ExceptionRule) : ve ∈ rulesFor exceptions repo ↔ ve ∈ exceptions ∧
      ve.organizationId = repo.organizationId ∧
        (ve.repositoryId = none ∨ ve.repositoryId = some repo.id) := by
    simp [rulesFor]
  have hlive (ve : ExceptionRule) :
      (ve.expiresAt.all fun t => decide (now < t)) = !isExpired ve now := by
    unfold isExpired
    cases ve.expiresAt with
    | none => rfl
    | some t => by_cases h : now < t <;> simp [h, Int.not_le.mpr, Int.not_lt.mp]
  have hpack (ve : ExceptionRule) (hve : ve ∈ rulesFor exceptions repo) :
      (!(truthyText ve.package && decide (ve.package ≠ some f.package))) = true ↔
        ve.package = none ∨ ve.package = some f.package := by
    cases hx : ve.package with
    | none => simp [truthyText]
    | some x =>
      have hne : x ≠ "" := fun h => hpackage ve hve (by rw [hx, h])
      simp [truthyText, hne]
  have hrepo (ve : ExceptionRule) (hve : ve ∈ rulesFor exceptions repo) :
      (!(truthyText ve.repositoryId && decide (ve.repositoryId ≠ some repo.id))) = true := by
    rcases ((hloaded ve).mp hve).2.2 with hnone | hsome
    · simp [hnone, truthyText]
    · simp [hsome]
  have happlies (ve : ExceptionRule) (hve : ve ∈ rulesFor exceptions repo) :
      exceptionApplies lower ve f.toFinding (some repo.id) now = true ↔
        lowerSql ve.vulnerabilityId = lowerSql f.id ∧
          (ve.package = none ∨ ve.package = some f.package) ∧ (!isExpired ve now) = true := by
    unfold exceptionApplies
    rw [Bool.and_eq_true, Bool.and_eq_true, Bool.and_eq_true, hpack ve hve, hrepo ve hve,
      decide_eq_true_eq, hids ve hve]
    tauto
  unfold Accepted excepted
  rw [any_eq_true]
  refine exists_congr fun ve => ?_
  rw [Bool.and_eq_true, decide_eq_true_eq, hlive]
  constructor
  · rintro ⟨hmem, ⟨horg, hscope, hid, hpackage'⟩, hactive⟩
    have hve := (hloaded ve).mpr ⟨hmem, horg, hscope⟩
    exact ⟨hve, (happlies ve hve).mpr ⟨hid, hpackage', hactive⟩⟩
  · rintro ⟨hve, hok⟩
    obtain ⟨hid, hpackage', hactive⟩ := (happlies ve hve).mp hok
    obtain ⟨hmem, horg, hscope⟩ := (hloaded ve).mp hve
    exact ⟨hmem, ⟨horg, hscope, hid, hpackage'⟩, hactive⟩

theorem sameUncovered (hpackage : ∀ ve ∈ rulesFor exceptions repo, ve.package ≠ some "")
    (hids : ∀ ve ∈ rulesFor exceptions repo, ∀ f ∈ findings,
      lowerSql ve.vulnerabilityId = lowerSql f.id ↔ lower ve.vulnerabilityId = lower f.id) :
    SameUncovered lowerSql lower exceptions repo now digest findings := by
  unfold SameUncovered applyExceptions
  simp only [filter_map, map_map]
  congr 1
  refine filter_congr fun f hf => ?_
  have hiff : excepted lowerSql exceptions repo now (f.row digest) = true ↔
      Accepted lower (rulesFor exceptions repo) (some repo.id) now f.toFinding :=
    excepted_iff hpackage fun ve hve => hids ve hve f hf
  rw [Bool.eq_iff_iff]
  simp only [Function.comp]
  rw [exception_isNone, ← hiff]
  simp

/-- The rows count the findings that are kept. -/
theorem pageSummary_eq {kept : List VersionedFinding}
    (hkept : firsts VersionedFinding.key [] findings = kept)
    (huncovered : SameUncovered lowerSql lower exceptions repo now digest kept) :
    pageSummary lowerSql exceptions repo now (replaceScanFindings digest findings) =
      effectiveSummary lower (kept.map (·.toFinding)) (rulesFor exceptions repo)
        (some repo.id) now := by
  have hrows : (kept.map (VersionedFinding.row digest)).Nodup := by
    have hdistinct : (kept.map VersionedFinding.key).Nodup := by
      rw [← hkept]
      exact pairwise_map.mpr (Firsts.firsts_pairwise [] findings)
    have hkey : (fun sf : FindingRow => sf.vulnerabilityId ++ "|" ++ sf.package ++ "|" ++
        sf.version) ∘ VersionedFinding.row digest = VersionedFinding.key := rfl
    exact List.Nodup.of_map _ (by rw [map_map, hkey]; exact hdistinct)
  unfold pageSummary replaceScanFindings effectiveSummary summarizeFindings
  rw [hkept, (hrows.filter _).dedup, ← huncovered, filter_map, foldl_map, foldl_map]
  rfl

/-- Both ways to lower text compare two identifiers alike, if they do so outside of ASCII. -/
theorem same_ids {a b : String} (hsql : ∀ s, Ascii s → lowerSql s = s.toLower)
    (hjs : ∀ s, Ascii s → lower s = s.toLower)
    (hother : ¬(Ascii a ∧ Ascii b) → (lowerSql a = lowerSql b ↔ lower a = lower b)) :
    lowerSql a = lowerSql b ↔ lower a = lower b := by
  by_cases h : Ascii a ∧ Ascii b
  · rw [hsql a h.1, hsql b h.2, hjs a h.1, hjs b h.2]
  · exact hother h

end proofs

/-- An accepted risk means the same on the pages and to the policy, each identifier, package and
version counted once. -/
theorem same_risks (lowerSql lower : String → String) (exceptions : List ExceptionRule)
    (repo : RepoRow) (now : Int) (digest : Digest) (findings : List VersionedFinding)
    (hsql : ∀ s, Ascii s → lowerSql s = s.toLower) (hjs : ∀ s, Ascii s → lower s = s.toLower)
    (hjoined : ∀ f ∈ findings, ∀ g ∈ findings, f.key = g.key → f.parts = g.parts)
    (hpackage : ∀ ve ∈ rulesFor exceptions repo, ve.package ≠ some "")
    (hother : ∀ ve ∈ rulesFor exceptions repo, ∀ f ∈ findings,
      ¬(Ascii ve.vulnerabilityId ∧ Ascii f.id) →
        (lowerSql ve.vulnerabilityId = lowerSql f.id ↔ lower ve.vulnerabilityId = lower f.id)) :
    SameDistinctRisks lowerSql lower exceptions repo now digest findings := by
  have hids : ∀ ve ∈ rulesFor exceptions repo, ∀ f ∈ findings,
      lowerSql ve.vulnerabilityId = lowerSql f.id ↔ lower ve.vulnerabilityId = lower f.id :=
    fun ve hve f hf => same_ids hsql hjs (hother ve hve f hf)
  have hkept : firsts VersionedFinding.key [] findings =
      firsts VersionedFinding.parts [] findings := by
    refine Firsts.firsts_congr (fun f hf g hg => ⟨hjoined f hf g hg, fun h => ?_⟩) (by simp)
    unfold VersionedFinding.parts at h
    obtain ⟨hid, hpack, hversion⟩ : f.id = g.id ∧ f.package = g.package ∧
        f.version = g.version := by
      simpa using h
    unfold VersionedFinding.key
    rw [hid, hpack, hversion]
  have huncovered : SameUncovered lowerSql lower exceptions repo now digest
      (firsts VersionedFinding.parts [] findings) :=
    sameUncovered hpackage fun ve hve f hf => hids ve hve f (Firsts.mem_of_firsts hf)
  have hcounts := pageSummary_eq hkept huncovered
  refine ⟨sameUncovered hpackage hids, hcounts, fun hdistinct => ⟨sameUncovered hpackage hids, ?_⟩⟩
  rw [hcounts, Firsts.firsts_of_nodup hdistinct (by simp)]

/-- A critical finding that an exception of the organization accepts in one package. -/
def opensslFinding : VersionedFinding := ⟨⟨"CVE-2024-1", .critical, "openssl"⟩, "3.0"⟩

def acceptsOpenssl (package : String) : ExceptionRule :=
  ⟨"e1", "o1", none, "cve-2024-1", some package, none⟩

def appRow : RepoRow := ⟨"r1", "o1", none, none, none⟩

/-- Unicode's simple lower case of a dotted capital I, and its full one in two characters. -/
def simpleLower (s : String) : String :=
  String.ofList (s.toList.map fun c => if c = 'İ' then 'i' else c.toLower)

def fullLower (s : String) : String :=
  String.ofList (s.toList.flatMap fun c => if c = 'İ' then ['i', '\u0307'] else [c.toLower])

theorem lower_ascii {s : String} (hs : Ascii s) :
    simpleLower s = s.toLower ∧ fullLower s = s.toLower := by
  have hne : ∀ c ∈ s.toList, c ≠ 'İ' := by
    rintro c hc rfl
    exact absurd (hs _ hc) (by decide)
  have hlower : s.toLower.toList = s.toList.map Char.toLower := String.toList_map
  constructor
  · rw [← String.toList_inj, simpleLower, String.toList_ofList, hlower]
    exact map_congr_left fun c hc => if_neg (hne c hc)
  · rw [← String.toList_inj, fullLower, String.toList_ofList, hlower, map_eq_flatMap]
    exact flatMap_congr fun c hc => if_neg (hne c hc)

/-- A finding that comes twice beside one that an exception accepts; and that one alone. -/
theorem same_risks_openssl :
    SameDistinctRisks simpleLower fullLower [acceptsOpenssl "openssl"] appRow 0 "sha256:a"
        [opensslFinding, ⟨⟨"GHSA-1", .high, "curl"⟩, "8.0"⟩, ⟨⟨"GHSA-1", .high, "curl"⟩, "8.0"⟩] ∧
      SameRisks simpleLower fullLower [acceptsOpenssl "openssl"] appRow 0 "sha256:a"
        [opensslFinding] := by
  have hascii (fs : List VersionedFinding) (hfs : ∀ f ∈ fs, f.id = "CVE-2024-1" ∨ f.id = "GHSA-1") :
      ∀ ve ∈ rulesFor [acceptsOpenssl "openssl"] appRow, ∀ f ∈ fs,
        Ascii ve.vulnerabilityId ∧ Ascii f.id := by
    intro ve hve f hf
    have hve' : ve = acceptsOpenssl "openssl" := by simpa using (mem_filter.mp hve).1
    subst hve'
    refine ⟨by simp [Ascii, acceptsOpenssl], ?_⟩
    rcases hfs f hf with hid | hid
    · rw [hid]
      simp [Ascii]
    · rw [hid]
      simp [Ascii]
  constructor
  · exact same_risks _ _ _ _ _ _ _ (fun s hs => (lower_ascii hs).1) (fun s hs => (lower_ascii hs).2)
      (by decide) (by decide) fun ve hve f hf h => absurd (hascii _ (by decide) ve hve f hf) h
  · exact (same_risks _ _ _ _ _ _ _ (fun s hs => (lower_ascii hs).1)
      (fun s hs => (lower_ascii hs).2) (by decide) (by decide)
      fun ve hve f hf h => absurd (hascii _ (by decide) ve hve f hf) h).distinct (by decide)

/-- A finding that stands twice counts twice for the policy and once on the pages, and so do two
whose keys are the same text. An empty package is no limit to the policy and matches nothing on
the pages. An identifier beyond ASCII is lowered in two ways. -/
theorem risks_differ :
    ¬SameRisks simpleLower fullLower [] appRow 0 "sha256:a" [opensslFinding, opensslFinding] ∧
      ¬SameRisks simpleLower fullLower [] appRow 0 "sha256:a"
        [⟨⟨"A", .high, "b|c"⟩, "d"⟩, ⟨⟨"A|b", .high, "c"⟩, "d"⟩] ∧
      ¬SameRisks simpleLower fullLower [⟨"e1", "o1", none, "CVE-2024-1", some "", none⟩] appRow 0
        "sha256:a" [opensslFinding] ∧
      ¬SameRisks simpleLower fullLower [⟨"e1", "o1", none, "GHSA-İ", none, none⟩] appRow 0
        "sha256:a" [⟨⟨"ghsa-i", .high, "curl"⟩, "8.0"⟩] := by
  refine ⟨fun h => ?_, fun h => ?_, fun h => ?_, fun h => ?_⟩
  · exact absurd h.counts (by decide)
  · exact absurd h.counts (by decide)
  · exact absurd h.counts (by decide)
  · exact absurd h.counts (by decide)

end Chicoree.PullBlocks
