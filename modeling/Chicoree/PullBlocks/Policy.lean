import Chicoree.Registryd.Store

/-! # Pull policies

`pull-policy-shared.ts` and the part of `scanner-shared.ts` it judges by: severities, the
exceptions that accept a finding, the counts a policy sees, and why an image violates it.
`lower` is `toLowerCase`. -/

namespace Chicoree.PullBlocks

open List
open Registryd (Digest)

abbrev Id := String

def truthyText : Option String → Bool
  | some s => decide (s ≠ "")
  | none => false

/-! ## Findings -/

inductive Severity where
  | critical
  | high
  | medium
  | low
  | negligible
  | unknown
deriving DecidableEq

/-- Counts by severity; a severity that is missing counts 0. -/
structure SeveritySummary where
  critical : Nat := 0
  high : Nat := 0
  medium : Nat := 0
  low : Nat := 0
  negligible : Nat := 0
  unknown : Nat := 0
deriving DecidableEq

def SeveritySummary.count (s : SeveritySummary) : Severity → Nat
  | .critical => s.critical
  | .high => s.high
  | .medium => s.medium
  | .low => s.low
  | .negligible => s.negligible
  | .unknown => s.unknown

/-- `summary[key]++` -/
def SeveritySummary.bump (s : SeveritySummary) : Severity → SeveritySummary
  | .critical => { s with critical := s.critical + 1 }
  | .high => { s with high := s.high + 1 }
  | .medium => { s with medium := s.medium + 1 }
  | .low => { s with low := s.low + 1 }
  | .negligible => { s with negligible := s.negligible + 1 }
  | .unknown => { s with unknown := s.unknown + 1 }

structure Finding where
  id : String
  severity : Severity
  package : String
deriving DecidableEq

def summarizeFindings (findings : List Finding) : SeveritySummary :=
  findings.foldl (fun s f => s.bump f.severity) {}

/-- A row of `vulnerability_exceptions`; without a repository it is for the whole
organization. -/
structure ExceptionRule where
  id : Id
  organizationId : Id
  repositoryId : Option Id
  vulnerabilityId : String
  package : Option String
  expiresAt : Option Int

def isExpired (rule : ExceptionRule) (now : Int) : Bool :=
  match rule.expiresAt with
  | none => false
  | some t => decide (t ≤ now)

section exceptions

variable (lower : String → String)

def exceptionApplies (rule : ExceptionRule) (finding : Finding) (repositoryId : Option Id)
    (now : Int) : Bool :=
  !isExpired rule now &&
    !(truthyText rule.repositoryId && decide (rule.repositoryId ≠ repositoryId)) &&
      decide (lower rule.vulnerabilityId = lower finding.id) &&
        !(truthyText rule.package && decide (rule.package ≠ some finding.package))

/-- Every finding with the exception that accepts it; the repository's own go first. -/
def applyExceptions (findings : List Finding) (rules : List ExceptionRule)
    (repositoryId : Option Id) (now : Int) : List (Finding × Option ExceptionRule) :=
  let active := rules.filter fun r => !isExpired r now
  findings.map fun finding =>
    let applying := active.filter fun r => exceptionApplies lower r finding repositoryId now
    (finding, (applying.find? fun r => truthyText r.repositoryId).or applying.head?)

def effectiveSummary (findings : List Finding) (rules : List ExceptionRule)
    (repositoryId : Option Id) (now : Int) : SeveritySummary :=
  summarizeFindings (((applyExceptions lower findings rules repositoryId now).filter
    fun a => a.2.isNone).map (·.1))

def Accepted (rules : List ExceptionRule) (repositoryId : Option Id) (now : Int)
    (finding : Finding) : Prop :=
  ∃ rule ∈ rules, exceptionApplies lower rule finding repositoryId now = true

end exceptions

inductive ScanStatus where
  | pending
  | indexing
  | scanned
  | failed
deriving DecidableEq

/-- A row of `vulnerability_scans`. The report is kept as the findings that normalising it
gives. -/
structure ScanRow where
  digest : Digest
  repositoryId : Option Id
  status : ScanStatus
  summary : Option SeveritySummary
  findings : Option (List Finding)
  report : Option (List Finding)

def findingsOf (row : ScanRow) : List Finding :=
  match row.findings with
  | some findings => findings
  | none => row.report.getD []

/-- What the policy judges: the findings no exception accepts; a row that was never
normalised keeps its stored counts. -/
def effectiveScanSummary (lower : String → String) (scan : ScanRow)
    (rules : List ExceptionRule) (repositoryId : Option Id) (now : Int) :
    Option SeveritySummary :=
  if findingsOf scan = [] ∧ scan.findings = none ∧ scan.report = none then scan.summary
  else some (effectiveSummary lower (findingsOf scan) rules repositoryId now)

/-! ## Policies -/

inductive Level where
  | critical
  | high
  | medium
  | low
deriving DecidableEq

def Level.text : Level → String
  | .critical => "critical"
  | .high => "high"
  | .medium => "medium"
  | .low => "low"

structure Policy where
  /-- Block at this severity and above; `none` never blocks. -/
  level : Option Level
  /-- Findings without a rating count too. -/
  unrated : Bool
deriving DecidableEq

/-- The override of a repository. -/
inductive RepoLevel where
  | off
  | block (level : Level)

structure OrgSettings where
  blockPullsAt : Option Level
  blockUnrated : Bool
  requireSignature : Bool

structure RepoRow where
  id : Id
  organizationId : Id
  blockPullsAt : Option RepoLevel
  blockUnrated : Option Bool
  requireSignature : Option Bool

def covers : Level → List Severity
  | .critical => [.critical]
  | .high => [.critical, .high]
  | .medium => [.critical, .high, .medium]
  | .low => [.critical, .high, .medium, .low]

def orgPolicy (org : Option OrgSettings) : Policy :=
  ⟨org.bind (·.blockPullsAt), (org.map (·.blockUnrated)).getD false⟩

def effectivePolicy (org : Option OrgSettings) (repo : RepoRow) : Policy :=
  match repo.blockPullsAt with
  | some .off => ⟨none, false⟩
  | some (.block level) =>
    ⟨some level, repo.blockUnrated.getD ((org.map (·.blockUnrated)).getD false)⟩
  | none => orgPolicy org

def describePolicy (policy : Policy) : String :=
  match policy.level with
  | none => "off"
  | some level =>
    let base := if level = .critical then "critical findings" else level.text ++ " and above"
    if policy.unrated then base ++ ", unrated too" else base

/-- `key.toLowerCase()` -/
def Severity.lowerText : Severity → String
  | .critical => "critical"
  | .high => "high"
  | .medium => "medium"
  | .low => "low"
  | .negligible => "negligible"
  | .unknown => "unknown"

def countText (n : Nat) (what : String) : String := n.repr ++ " " ++ what

/-- The parts of a reason: the covered severities that occur, and the unrated findings. -/
def violationParts (summary : SeveritySummary) (level : Level) (unrated : Bool) : List String :=
  ((covers level).filterMap fun key =>
    if 0 < summary.count key then some (countText (summary.count key) key.lowerText)
    else none) ++
  if unrated ∧ 0 < summary.unknown then [countText summary.unknown "unrated"] else []

/-- `/^1 /` -/
def startsWithOne (part : String) : Bool := decide (part.toList.take 2 = ['1', ' '])

def violationText (parts : List String) (policy : Policy) : String :=
  String.intercalate ", " parts ++ " finding" ++ (match parts with
    | [part] => if startsWithOne part then "" else "s"
    | _ => "s") ++ "; policy blocks " ++ describePolicy policy

def violation (summary : Option SeveritySummary) (policy : Policy) : Option String :=
  match policy.level, summary with
  | some level, some summary =>
    match violationParts summary level policy.unrated with
    | [] => none
    | parts => some (violationText parts policy)
  | _, _ => none

def effectiveSignaturePolicy (org : Option OrgSettings) (repo : RepoRow) : Bool :=
  repo.requireSignature.getD ((org.map (·.requireSignature)).getD false)

section order

variable {lower : String → String} {rules rules' : List ExceptionRule}
  {repositoryId : Option Id} {now : Int}

theorem exception_isNone {finding : Finding} : ((((rules.filter fun r => !isExpired r now).filter
        fun r => exceptionApplies lower r finding repositoryId now).find?
          fun r => truthyText r.repositoryId).or
      ((rules.filter fun r => !isExpired r now).filter
        fun r => exceptionApplies lower r finding repositoryId now).head?).isNone = true ↔
      ¬ Accepted lower rules repositoryId now finding := by
  have hempty : ((rules.filter fun r => !isExpired r now).filter
      fun r => exceptionApplies lower r finding repositoryId now) = [] ↔
        ¬ Accepted lower rules repositoryId now finding := by
    rw [filter_eq_nil_iff]
    constructor
    · rintro h ⟨rule, hrule, happlies⟩
      have hlive : (!isExpired rule now) = true := by
        unfold exceptionApplies at happlies
        simp only [Bool.and_eq_true] at happlies
        exact happlies.1.1.1
      exact h rule (mem_filter.mpr ⟨hrule, hlive⟩) happlies
    · intro h rule hrule happlies
      exact h ⟨rule, (mem_filter.mp hrule).1, happlies⟩
  rw [← hempty]
  generalize ((rules.filter fun r => !isExpired r now).filter
    fun r => exceptionApplies lower r finding repositoryId now) = applying
  cases applying with
  | nil | cons rule rest => simp

theorem effectiveSummary_congr (h : ∀ r, r ∈ rules ↔ r ∈ rules') (findings : List Finding) :
    effectiveSummary lower findings rules repositoryId now =
      effectiveSummary lower findings rules' repositoryId now := by
  have haccepted (finding : Finding) : Accepted lower rules repositoryId now finding ↔
      Accepted lower rules' repositoryId now finding := by
    unfold Accepted
    simp only [h]
  unfold effectiveSummary applyExceptions
  simp only [filter_map, map_map]
  congr 2
  refine filter_congr fun finding _ => ?_
  rw [Bool.eq_iff_iff]
  simp only [Function.comp]
  rw [exception_isNone, exception_isNone, haccepted]

theorem effectiveScanSummary_congr (h : ∀ r, r ∈ rules ↔ r ∈ rules') (scan : ScanRow) :
    effectiveScanSummary lower scan rules repositoryId now =
      effectiveScanSummary lower scan rules' repositoryId now := by
  unfold effectiveScanSummary
  rw [effectiveSummary_congr h]

end order

/-! ## What violates a policy -/

def Policy.Counts (policy : Policy) (severity : Severity) : Prop :=
  ∃ level, policy.level = some level ∧
    (severity ∈ covers level ∨ policy.unrated = true ∧ severity = .unknown)

section violations

variable {lower : String → String} {rules rules' : List ExceptionRule}
  {repositoryId : Option Id} {now now' : Int} {policy : Policy} {findings : List Finding}

theorem count_bump (s : SeveritySummary) (severity k : Severity) :
    (s.bump severity).count k = s.count k + if severity = k then 1 else 0 := by
  cases severity <;> cases k <;> rfl

theorem count_summarize (findings : List Finding) (k : Severity) :
    (summarizeFindings findings).count k = findings.countP fun f => decide (f.severity = k) := by
  have hfold (s : SeveritySummary) : (findings.foldl (fun s f => s.bump f.severity) s).count k =
        s.count k + findings.countP fun f => decide (f.severity = k) := by
    induction findings generalizing s with
    | nil => rfl
    | cons f findings ih =>
      rw [foldl_cons, ih, count_bump, countP_cons]
      by_cases hk : f.severity = k
      · simp [hk]
        omega
      · simp [hk]
  have hzero : ({} : SeveritySummary).count k = 0 := by cases k <;> rfl
  unfold summarizeFindings
  rw [hfold, hzero, Nat.zero_add]

theorem count_effectiveSummary (k : Severity) :
    0 < (effectiveSummary lower findings rules repositoryId now).count k ↔
      ∃ f ∈ findings, ¬ Accepted lower rules repositoryId now f ∧ f.severity = k := by
  unfold effectiveSummary applyExceptions
  rw [count_summarize, countP_pos_iff]
  simp only [filter_map, map_map, mem_map, mem_filter, Function.comp, decide_eq_true_eq]
  constructor
  · rintro ⟨f, ⟨f', ⟨hf', hnone⟩, rfl⟩, hk⟩
    exact ⟨f', hf', exception_isNone.mp hnone, hk⟩
  · rintro ⟨f, hf, hnot, hk⟩
    exact ⟨f, ⟨f, ⟨hf, exception_isNone.mpr hnot⟩, rfl⟩, hk⟩

theorem violation_isSome {summary : SeveritySummary} : (violation (some summary) policy).isSome ↔
      ∃ k, policy.Counts k ∧ 0 < summary.count k := by
  unfold violation Policy.Counts
  cases hlevel : policy.level with
  | none => simp
  | some level =>
    have hparts : violationParts summary level policy.unrated = [] ↔
        ¬ ∃ k, (k ∈ covers level ∨ policy.unrated = true ∧ k = .unknown) ∧ 0 < summary.count k := by
      unfold violationParts
      rw [append_eq_nil_iff, filterMap_eq_nil_iff]
      constructor
      · rintro ⟨hcovered, hunrated⟩ ⟨k, hk | ⟨hu, rfl⟩, hpos⟩
        · have hnone := hcovered k hk
          rw [if_pos hpos] at hnone
          cases hnone
        · have hpos' : 0 < summary.unknown := hpos
          rw [if_pos ⟨hu, hpos'⟩] at hunrated
          cases hunrated
      · intro h
        refine ⟨fun k hk => ?_, ?_⟩
        · exact if_neg fun hpos => h ⟨k, .inl hk, hpos⟩
        · exact if_neg fun hu => h ⟨.unknown, .inr ⟨hu.1, rfl⟩, hu.2⟩
    cases hlist : violationParts summary level policy.unrated with
    | nil =>
      simp only [hlist, Option.isSome_none, Bool.false_eq_true, false_iff]
      rintro ⟨k, ⟨level', hlevel', hk⟩, hpos⟩
      cases hlevel'
      exact hparts.mp hlist ⟨k, hk, hpos⟩
    | cons part parts =>
      have hex : ∃ k, (k ∈ covers level ∨ policy.unrated = true ∧ k = .unknown) ∧
          0 < summary.count k := by
        by_contra hnot
        have hnil := hparts.mpr hnot
        rw [hlist] at hnil
        cases hnil
      obtain ⟨k, hk, hpos⟩ := hex
      simp only [hlist, Option.isSome_some, true_iff]
      exact ⟨k, ⟨level, rfl, hk⟩, hpos⟩

theorem violation_effective : (violation
    (some (effectiveSummary lower findings rules repositoryId now)) policy).isSome ↔
      ∃ f ∈ findings, ¬ Accepted lower rules repositoryId now f ∧ policy.Counts f.severity := by
  rw [violation_isSome]
  constructor
  · rintro ⟨k, hk, hpos⟩
    obtain ⟨f, hf, hnot, rfl⟩ := (count_effectiveSummary k).mp hpos
    exact ⟨f, hf, hnot, hk⟩
  · rintro ⟨f, hf, hnot, hk⟩
    exact ⟨f.severity, hk, (count_effectiveSummary _).mpr ⟨f, hf, hnot, rfl⟩⟩

theorem violation_mono (hrules : ∀ rule ∈ rules', rule ∈ rules) (hnow : now ≤ now')
    (h : (violation (some (effectiveSummary lower findings rules repositoryId now))
      policy).isSome) :
    (violation (some (effectiveSummary lower findings rules' repositoryId now'))
      policy).isSome := by
  obtain ⟨f, hf, hnot, hcounts⟩ := violation_effective.mp h
  refine violation_effective.mpr ⟨f, hf, ?_, hcounts⟩
  rintro ⟨rule, hrule, happlies⟩
  refine hnot ⟨rule, hrules rule hrule, ?_⟩
  unfold exceptionApplies at happlies ⊢
  simp only [Bool.and_eq_true] at happlies ⊢
  obtain ⟨⟨⟨hlive, hrepo⟩, hid⟩, hpackage⟩ := happlies
  refine ⟨⟨⟨?_, hrepo⟩, hid⟩, hpackage⟩
  -- an exception that applies later has not expired now
  unfold isExpired at hlive ⊢
  cases hexpires : rule.expiresAt with
  | none => rfl
  | some t =>
    rw [hexpires] at hlive
    simp only [Bool.not_eq_true', decide_eq_false_iff_not] at hlive ⊢
    omega

end violations

section reasons

variable {summary : SeveritySummary} {level : Level} {unrated : Bool} {policy : Policy}

theorem mem_violationParts {part : String} (h : part ∈ violationParts summary level unrated) :
    ∃ n what, part = countText n what ∧ ('(' : Char) ∉ what.toList := by
  rcases mem_append.mp h with h | h
  · obtain ⟨key, -, hkey⟩ := mem_filterMap.mp h
    split at hkey
    · refine ⟨_, _, (Option.some.inj hkey).symm, ?_⟩
      cases key <;> decide
    · cases hkey
  · split at h
    · exact ⟨_, _, mem_singleton.mp h, by decide⟩
    · cases h

theorem digit_of_repr {n : Nat} {c : Char} (h : c ∈ n.repr.toList) : c.isDigit = true := by
  rw [Nat.toList_repr] at h
  exact Nat.isDigit_of_mem_toDigits (by decide) (by decide) h

theorem repr_toList_ne_nil (n : Nat) : n.repr.toList ≠ [] := by
  rw [Nat.toList_repr]
  exact Nat.toDigits_ne_nil

theorem violation_digit {summary : Option SeveritySummary} {why : String}
    (h : violation summary policy = some why) :
    ∃ c rest, why.toList = c :: rest ∧ c.isDigit = true := by
  unfold violation at h
  split at h
  · split at h
    · cases h
    · rename_i level summary _ _ hne
      cases h
      cases hparts : violationParts summary level policy.unrated with
      | nil => exact absurd hparts hne
      | cons part parts =>
        obtain ⟨n, what, rfl, -⟩ := mem_violationParts (hparts ▸ mem_cons_self)
        obtain ⟨c, digits, hdigits⟩ := exists_cons_of_ne_nil (repr_toList_ne_nil n)
        have hc : c.isDigit = true := digit_of_repr (n := n) (by simp [hdigits])
        refine ⟨c, ((violationText (countText n what :: parts) policy).toList).tail, ?_, hc⟩
        unfold violationText countText
        cases parts with
        | nil => simp [hdigits]
        | cons p ps => simp [String.intercalate_cons_cons, hdigits]
  · cases h

theorem mem_intercalate {sep : String} {parts : List String} {c : Char}
    (h : c ∈ (String.intercalate sep parts).toList) :
    c ∈ sep.toList ∨ ∃ part ∈ parts, c ∈ part.toList := by
  induction parts with
  | nil => simp at h
  | cons part parts ih =>
    cases parts with
    | nil =>
      rw [String.intercalate_singleton] at h
      exact .inr ⟨part, mem_singleton_self part, h⟩
    | cons next parts =>
      rw [String.intercalate_cons_cons, String.toList_append, String.toList_append,
        mem_append, mem_append] at h
      rcases h with (h | h) | h
      · exact .inr ⟨part, mem_cons_self, h⟩
      · exact .inl h
      · rcases ih h with h | ⟨part', hmem, h⟩
        · exact .inl h
        · exact .inr ⟨part', mem_cons_of_mem _ hmem, h⟩

theorem describePolicy_no_paren (policy : Policy) : '(' ∉ (describePolicy policy).toList := by
  obtain ⟨level, unrated⟩ := policy
  cases level with
  | none =>
    show '(' ∉ "off".toList
    decide
  | some level => cases level <;> cases unrated <;> decide +kernel

theorem violation_no_paren {summary : Option SeveritySummary} {why : String}
    (h : violation summary policy = some why) : '(' ∉ why.toList := by
  unfold violation at h
  split at h
  · split at h
    · cases h
    · cases h
      unfold violationText
      simp only [String.toList_append, mem_append, not_or]
      refine ⟨⟨⟨⟨fun hmem => ?_, by decide⟩, ?_⟩, by decide⟩, describePolicy_no_paren policy⟩
      · rcases mem_intercalate hmem with hsep | ⟨part, hpart, hc⟩
        · exact absurd hsep (by decide)
        · obtain ⟨n, what, rfl, hwhat⟩ := mem_violationParts hpart
          unfold countText at hc
          rw [String.toList_append, String.toList_append, mem_append, mem_append] at hc
          rcases hc with (hc | hc) | hc
          · exact absurd (digit_of_repr hc) (by decide)
          · exact absurd hc (by decide)
          · exact hwhat hc
      · split
        · split <;> decide
        · decide
  · cases h

end reasons

end Chicoree.PullBlocks
