import Chicoree.Lib.Doubles
import Chicoree.Lib.Firsts
import Chicoree.PullBlocks.Policy
import Chicoree.RateLimits.Form
import Chicoree.Web.TagGlobs

/-! # Reports of the scanners

`normalizeClairReport` and `normalizeTrivyReport`: the findings of a report, one for every id,
package and version as one text, most severe first. -/

namespace Chicoree.Scans

open List PullBlocks
open Firsts (firsts inOrder)
open PullBlocks (Severity truthyText)
open RateLimits (trim isSpaceJs)
open Web (codeUnits)

/-! ## Findings -/

/-- A finding with all that is stored about it; the policy looks at id, severity and package. -/
structure Finding extends PullBlocks.Finding where
  version : String
  fixedIn : Option String := none
  type : String
  title : Option (List UInt16) := none
  /-- Code units, since a long text is cut between two of them. -/
  description : Option (List UInt16) := none
  links : List String := []
  layerDigest : Option String := none
  ecosystem : Option String := none
  distro : Option String := none
deriving DecidableEq

/-- `toLowerCase` of a text that is compared with ASCII letters. -/
def asciiLower (s : List Char) : List Char := s.map Char.toLower

def normalizeSeverity (value : Option String) : Severity :=
  let v := String.ofList (asciiLower (trim (value.getD "").toList))
  if v = "critical" then .critical
  else if v = "high" then .high
  else if v = "medium" ∨ v = "moderate" then .medium
  else if v = "low" then .low
  else if v = "negligible" then .negligible
  else .unknown

def severityRank : Severity → Nat
  | .critical => 0
  | .high => 1
  | .medium => 2
  | .low => 3
  | .negligible => 4
  | .unknown => 5

/-- `a || b` of texts -/
def orElse (a b : Option String) : Option String := if truthyText a then a else b

/-- `text ? text.slice(0, n) : null` -/
def cut (n : Nat) (text : Option String) : Option (List UInt16) :=
  if truthyText text then text.map fun s => (codeUnits s).take n else none

/-- The key of `seen`. -/
def Finding.key (f : Finding) : String := f.id ++ "|" ++ f.package ++ "|" ++ f.version

/-- `/^https?:\/\//` -/
def isWebLink (s : List Char) : Bool :=
  "http://".toList.isPrefixOf s || "https://".toList.isPrefixOf s

def containsText (part s : List Char) : Bool := s.tails.any part.isPrefixOf

def field {α : Type} (name : String) (record : List (String × α)) : Option α :=
  record.lookup name

section

variable (localeCompare : String → String → Ordering)

def sortFindings (findings : List Finding) : List Finding :=
  findings.mergeSort fun a b =>
    ((compare (severityRank a.severity) (severityRank b.severity)).then
      ((localeCompare a.package b.package).then (localeCompare a.id b.id))).isLE

end

/-! ## Clair -/

structure ClairDistribution where
  did : Option String := none
  name : Option String := none
  version : Option String := none
  versionId : Option String := none
  prettyName : Option String := none

structure ClairVulnerability where
  name : Option String := none
  description : Option String := none
  links : Option String := none
  normalizedSeverity : Option String := none
  /-- `package.name` -/
  packageName : Option String := none
  fixedInVersion : Option String := none
  updater : Option String := none
  distribution : Option ClairDistribution := none

structure ClairPackage where
  name : Option String := none
  version : Option String := none

structure ClairEnvironment where
  packageDb : Option String := none
  introducedIn : Option String := none
  distributionId : Option String := none

/-- The records of a report with the names of their members as they are written. -/
structure ClairReport where
  vulnerabilities : List (String × ClairVulnerability) := []
  packageVulnerabilities : List (String × Option (List String)) := []
  packages : List (String × ClairPackage) := []
  environments : List (String × List ClairEnvironment) := []
  distributions : List (String × ClairDistribution) := []

def osPackageDbs : List String :=
  ["lib/apk/", "var/lib/dpkg", "var/lib/rpm", "usr/lib/sysimage/rpm", "usr/share/rpm",
    "var/lib/rpmmanifest"]

/-- `/^(osv|pypi|npm|go|ruby|maven|crates|cargo|nuget)/i` -/
def isLibraryUpdater (updater : List Char) : Bool :=
  ["osv", "pypi", "npm", "go", "ruby", "maven", "crates", "cargo", "nuget"].any
    fun name => name.toList.isPrefixOf (asciiLower updater)

def clairType (packageDb updater : Option String) : String :=
  if truthyText packageDb && osPackageDbs.any fun p =>
    p.toList.isPrefixOf (packageDb.getD "").toList then "os"
  else if truthyText packageDb then "library"
  else if truthyText updater && isLibraryUpdater (updater.getD "").toList then "library"
  else if truthyText updater then "os"
  else "library"

/-- `[a-z0-9]` without regard to case. -/
def isWordChar (c : Char) : Bool := c.isAlphanum

/-- `/^([a-z0-9_-]+):/i`: the name before the colon. -/
def schemeOf (packageDb : List Char) : Option (List Char) :=
  let name := packageDb.takeWhile fun c => isWordChar c || c = '_' || c = '-'
  if name ≠ [] ∧ (packageDb.drop name.length).head? = some ':' then some (asciiLower name) else none

/-- `/^(osv\/)?([a-z0-9]+)/i`: the second group. -/
def updaterName (updater : List Char) : Option (List Char) :=
  let behind := (updater.drop 4).takeWhile isWordChar
  let name := updater.takeWhile isWordChar
  if "osv/".toList.isPrefixOf (asciiLower updater) ∧ behind ≠ [] then some (asciiLower behind)
  else if name ≠ [] then some (asciiLower name)
  else none

def ecosystemFor (packageDb updater distroDid : Option String) : Option String :=
  let ofUpdater :=
    match if truthyText updater then updaterName (updater.getD "").toList else none with
    | some name => some (String.ofList name)
    | none => distroDid
  if truthyText packageDb then
    let db := (packageDb.getD "").toList
    if "lib/apk/".toList.isPrefixOf db then some "alpine"
    else if "var/lib/dpkg".toList.isPrefixOf db then some (distroDid.getD "dpkg")
    else if containsText "rpm".toList db then some (distroDid.getD "rpm")
    else
      match schemeOf db with
      | some name => some (String.ofList name)
      | none => ofUpdater
  else ofUpdater

def clairLinks (links : Option String) : List String :=
  (((links.getD "").toList.splitOnP isSpaceJs).filter isWebLink).map String.ofList

/-- `` `${name} ${version}`.trim() `` -/
def distroName (d : ClairDistribution) : Option String :=
  if truthyText d.name then
    some (String.ofList (trim (d.name.getD "" ++ " " ++ (d.version.or d.versionId).getD "").toList))
  else none

def clairFinding (report : ClairReport) (pkgId vulnId : String) : Option Finding :=
  let pkg := field pkgId report.packages
  let env := ((field pkgId report.environments).getD []).head?
  let distributionId := env.bind (·.distributionId)
  let distro := if truthyText distributionId then
    field (distributionId.getD "") report.distributions else none
  (field vulnId report.vulnerabilities).map fun vuln =>
    { id := String.ofList (trim ((orElse vuln.name (some vulnId)).getD "").toList)
      severity := normalizeSeverity vuln.normalizedSeverity
      package := ((pkg.bind (·.name)).or vuln.packageName).getD "unknown"
      version := (pkg.bind (·.version)).getD ""
      fixedIn := orElse vuln.fixedInVersion none
      type := clairType (env.bind (·.packageDb)) vuln.updater
      description := cut 500 vuln.description
      links := clairLinks vuln.links
      layerDigest := orElse (env.bind (·.introducedIn)) none
      ecosystem := ecosystemFor (env.bind (·.packageDb)) vuln.updater
        ((distro.bind (·.did)).or (vuln.distribution.bind (·.did)))
      distro := orElse (orElse (distro.bind (·.prettyName))
        (orElse (vuln.distribution.bind (·.prettyName)) (distro.bind distroName))) none }

/-- An entry with the package it is listed under. -/
structure ClairEntry where
  pkgId : String
  finding : Finding

def clairMembers (report : ClairReport) (m : String × Option (List String)) : List ClairEntry :=
  (m.2.getD []).filterMap fun vulnId =>
    (clairFinding report m.1 vulnId).map fun f => ⟨m.1, f⟩

/-- Where a member of an object goes: names that are array indices come first, in ascending
order, all others behind them as they were written. -/
def indexRank (name : String) : Nat :=
  let n := Doubles.decimal name.toList
  if Nat.toDigits 10 n = name.toList ∧ n < 4294967295 then n else 4294967295

def ClairReport.entries (report : ClairReport) : List ClairEntry :=
  inOrder (fun m => indexRank m.1) (clairMembers report) report.packageVulnerabilities

def normalizeClairReport (localeCompare : String → String → Ordering) (report : ClairReport) :
    List Finding :=
  sortFindings localeCompare
    ((firsts (fun e => e.finding.key) [] report.entries).map ClairEntry.finding)

structure TrivyVulnerability where
  vulnerabilityID : Option String := none
  pkgName : Option String := none
  installedVersion : Option String := none
  fixedVersion : Option String := none
  severity : Option String := none
  title : Option String := none
  description : Option String := none
  primaryURL : Option String := none
  references : Option (List String) := none
  /-- `Layer.Digest` -/
  layerDigest : Option String := none

structure TrivyResult where
  cls : Option String := none
  type : Option String := none
  vulnerabilities : Option (List TrivyVulnerability) := none

structure TrivyReport where
  /-- `Metadata.OS` -/
  osFamily : Option String := none
  osName : Option String := none
  results : Option (List TrivyResult) := none

def trivyType (cls : Option String) : String :=
  if cls = some "os-pkgs" then "os"
  else if cls = some "lang-pkgs" then "library"
  else (orElse cls (some "library")).getD ""

def TrivyReport.distro (report : TrivyReport) : Option String :=
  if truthyText report.osFamily then
    some (report.osFamily.getD "" ++
      if truthyText report.osName then " " ++ report.osName.getD "" else "")
  else none

def trivyLinks (v : TrivyVulnerability) : List String :=
  let links := v.primaryURL.toList ++ v.references.getD []
  (firsts id [] (links.filter fun l => isWebLink l.toList)).take 10

/-- What one entry of a result becomes; one without an id is skipped. -/
def trivyFinding (report : TrivyReport) (result : TrivyResult) (v : TrivyVulnerability) :
    Option Finding :=
  let id := String.ofList (trim (v.vulnerabilityID.getD "").toList)
  let type := trivyType result.cls
  if id = "" then none
  else
    some
      { id := id
        severity := normalizeSeverity v.severity
        package := v.pkgName.getD "unknown"
        version := v.installedVersion.getD ""
        fixedIn := orElse v.fixedVersion none
        type := type
        title := cut 200 v.title
        description := cut 500 v.description
        links := trivyLinks v
        layerDigest := orElse v.layerDigest none
        ecosystem := result.type
        distro := if type = "os" then report.distro else none }

def trivyMembers (report : TrivyReport) (result : TrivyResult) : List Finding :=
  if truthyText result.cls ∧ result.cls ≠ some "os-pkgs" ∧ result.cls ≠ some "lang-pkgs" then []
  else (result.vulnerabilities.getD []).filterMap (trivyFinding report result)

def TrivyReport.entries (report : TrivyReport) : List Finding :=
  (report.results.getD []).flatMap (trivyMembers report)

def normalizeTrivyReport (localeCompare : String → String → Ordering) (report : TrivyReport) :
    List Finding :=
  sortFindings localeCompare (firsts Finding.key [] report.entries)

def Finding.SameName (f f' : Finding) : Prop :=
  f.id = f'.id ∧ f.package = f'.package ∧ f.version = f'.version

/-- Every entry is found under its name with the most severe rating of that name, and
nothing else is. -/
structure Complete (entries findings : List Finding) : Prop where
  covers : ∀ e ∈ entries, ∃ f ∈ findings, f.SameName e ∧
    (∃ e' ∈ entries, e'.SameName e ∧ f.severity = e'.severity) ∧
    ∀ e' ∈ entries, e'.SameName e → severityRank f.severity ≤ severityRank e'.severity
  nothingElse : ∀ f ∈ findings, f ∈ entries

structure SameOutcome (findings findings' : List Finding) : Prop where
  mem : ∀ f, f ∈ findings' ↔ f ∈ findings
  summary : ∀ lower rules repositoryId now,
    effectiveSummary lower (findings'.map Finding.toFinding) rules repositoryId now =
      effectiveSummary lower (findings.map Finding.toFinding) rules repositoryId now
  verdict : ∀ lower rules repositoryId now policy,
    violation (some (effectiveSummary lower
      (findings'.map Finding.toFinding) rules repositoryId now)) policy =
    violation (some (effectiveSummary lower
      (findings.map Finding.toFinding) rules repositoryId now)) policy

section

variable {α : Type} {find : α → Finding} {rank : α → Nat} {l : List α}
  {order : List α → Prop} {localeCompare : String → String → Ordering}

def kept (localeCompare : String → String → Ordering) (find : α → Finding) (l : List α) :
    List Finding :=
  sortFindings localeCompare ((firsts (fun x => (find x).key) [] l).map find)

theorem kept_perm : (kept localeCompare find l).Perm
    ((firsts (fun x => (find x).key) [] l).map find) :=
  mergeSort_perm _ _

theorem mem_kept {f : Finding} : f ∈ kept localeCompare find l ↔
    f ∈ (firsts (fun x => (find x).key) [] l).map find :=
  kept_perm.mem_iff

theorem key_of_sameName {f f' : Finding} (h : f.SameName f') : f.key = f'.key := by
  obtain ⟨hid, hpackage, hversion⟩ := h
  unfold Finding.key
  rw [hid, hpackage, hversion]

theorem kept_nodup : (kept localeCompare find l).Nodup := by
  refine kept_perm.nodup_iff.mpr ?_
  refine pairwise_map.mpr ((Firsts.firsts_pairwise [] l).imp fun hne heq => ?_)
  exact hne (congrArg Finding.key heq)

theorem summarizeFindings_perm {fs fs' : List PullBlocks.Finding} (h : fs.Perm fs') :
    summarizeFindings fs = summarizeFindings fs' := by
  refine h.foldl_eq' (fun f _ g _ s => ?_) _
  cases f.severity <;> cases g.severity <;> rfl

theorem effectiveSummary_perm {fs fs' : List PullBlocks.Finding} (h : fs.Perm fs')
    (lower : String → String) (rules : List PullBlocks.ExceptionRule)
    (repositoryId : Option PullBlocks.Id) (now : Int) :
    effectiveSummary lower fs rules repositoryId now =
      effectiveSummary lower fs' rules repositoryId now :=
  summarizeFindings_perm (((h.map _).filter _).map _)

theorem sameOutcome_of_mem {l' : List α}
    (h : ∀ f, f ∈ (firsts (fun x => (find x).key) [] l').map find ↔
      f ∈ (firsts (fun x => (find x).key) [] l).map find) :
    SameOutcome (kept localeCompare find l) (kept localeCompare find l') := by
  have hmem : ∀ f, f ∈ kept localeCompare find l' ↔ f ∈ kept localeCompare find l := by
    intro f
    rw [mem_kept, mem_kept]
    exact h f
  have hperm := ((perm_ext_iff_of_nodup kept_nodup kept_nodup).mpr hmem).map
    Finding.toFinding
  refine ⟨hmem, fun _ _ _ _ => effectiveSummary_perm hperm .., fun _ _ _ _ _ => ?_⟩
  rw [effectiveSummary_perm hperm]

/-- The condition: entries that can come first under their key are alike, and as severe as
all of the key, which have their name. -/
structure Settled (find : α → Finding) (rank : α → Nat) (l : List α) : Prop where
  alike : ∀ x y, Firsts.Leading (fun x => (find x).key) rank l x →
    Firsts.Leading (fun x => (find x).key) rank l y → (find x).key = (find y).key → find x = find y
  severe : ∀ x, Firsts.Leading (fun x => (find x).key) rank l x → ∀ y ∈ l,
    (find x).key = (find y).key → (find x).SameName (find y) ∧
      severityRank (find x).severity ≤ severityRank (find y).severity

theorem kept_faithful_iff (localeCompare : String → String → Ordering)
    (h : Firsts.Orders (fun x => (find x).key) rank l order) :
    (Complete (l.map find) (kept localeCompare find l) ∧
      ∀ l', order l' → SameOutcome (kept localeCompare find l) (kept localeCompare find l')) ↔
      Settled find rank l := by
  have hkey : ∀ x, Finding.key (find x) = (find x).key := fun _ => rfl
  have hsame := h.same_iff hkey
  constructor
  · rintro ⟨hcomplete, houtcome⟩
    have halike := hsame.mp fun l' hl' f =>
      mem_kept.symm.trans (((houtcome l' hl').mem f).trans mem_kept)
    refine ⟨halike, fun x hx y hy hkey => ?_⟩
    obtain ⟨f, hf, hname, -, hsevere⟩ := hcomplete.covers (find y) (mem_map_of_mem hy)
    obtain ⟨z, hz, rfl⟩ := mem_map.mp (mem_kept.mp hf)
    have hzx : find z = find x :=
      halike z x (h.leading h.self hz) hx ((key_of_sameName hname).trans hkey.symm)
    rw [← hzx]
    exact ⟨hname, hsevere (find y) (mem_map_of_mem hy) ⟨rfl, rfl, rfl⟩⟩
  · intro hsettled
    refine ⟨⟨fun e he => ?_, fun f hf => ?_⟩, fun l' hl' => ?_⟩
    · obtain ⟨y, hy, rfl⟩ := mem_map.mp he
      obtain ⟨x, hx, hkey⟩ : ∃ x ∈ firsts (fun x => (find x).key) [] l,
          (find x).key = (find y).key := Firsts.exists_first hy
      have hlead := h.leading h.self hx
      have hname := (hsettled.severe x hlead y hy hkey).1
      refine ⟨find x, mem_kept.mpr (mem_map_of_mem hx), hname, ?_, fun e' he' hname' => ?_⟩
      · exact ⟨find x, mem_map_of_mem hlead.1, hname, rfl⟩
      · obtain ⟨w, hw, rfl⟩ := mem_map.mp he'
        exact (hsettled.severe x hlead w hw (hkey.trans (key_of_sameName hname').symm)).2
    · obtain ⟨x, hx, rfl⟩ := mem_map.mp (mem_kept.mp hf)
      exact mem_map_of_mem (Firsts.mem_of_firsts hx)
    · exact sameOutcome_of_mem (hsame.mpr hsettled.alike l' hl')

end

/-! ## Reports in any order -/

/-- The same package with the ids of its vulnerabilities in another order. -/
def SamePackage (m m' : String × Option (List String)) : Prop :=
  m'.1 = m.1 ∧ (m'.2.getD []).Perm (m.2.getD [])

/-- The report with its packages, and the entries of each, in another order. -/
def ClairReport.Reordered (report report' : ClairReport) : Prop :=
  Firsts.Regrouped SamePackage report.packageVulnerabilities report'.packageVulnerabilities ∧
    report' = { report with packageVulnerabilities := report'.packageVulnerabilities }

def SameResult (r r' : TrivyResult) : Prop :=
  r'.cls = r.cls ∧ r'.type = r.type ∧ (r'.vulnerabilities.getD []).Perm (r.vulnerabilities.getD [])

/-- The report with its results, and the entries of each, in another order. -/
def TrivyReport.Reordered (report report' : TrivyReport) : Prop :=
  Firsts.Regrouped SameResult (report.results.getD []) (report'.results.getD []) ∧
    report'.osFamily = report.osFamily ∧ report'.osName = report.osName

def ClairReport.HidesNothing (localeCompare : String → String → Ordering)
    (report : ClairReport) : Prop :=
  Complete (report.entries.map ClairEntry.finding) (normalizeClairReport localeCompare report) ∧
    ∀ report', report.Reordered report' → SameOutcome (normalizeClairReport localeCompare report)
        (normalizeClairReport localeCompare report')

def TrivyReport.HidesNothing (localeCompare : String → String → Ordering)
    (report : TrivyReport) : Prop :=
  Complete report.entries (normalizeTrivyReport localeCompare report) ∧
    ∀ report', report.Reordered report' → SameOutcome (normalizeTrivyReport localeCompare report)
        (normalizeTrivyReport localeCompare report')

theorem filterMap_front {ι α : Type} {g : ι → Option α} {items : List ι} {x : α}
    (h : x ∈ items.filterMap g) :
    ∃ (items' : List ι) (xs : List α), items'.Perm items ∧ items'.filterMap g = x :: xs := by
  obtain ⟨i, hi, hx⟩ := mem_filterMap.mp h
  obtain ⟨a, b, rfl⟩ := append_of_mem hi
  refine ⟨i :: (a ++ b), (a ++ b).filterMap g, perm_middle.symm, ?_⟩
  rw [filterMap_cons_some hx]

theorem clair_orders (report : ClairReport) :
    Firsts.Orders (fun e => e.finding.key) (fun e => indexRank e.pkgId) report.entries
      fun l => ∃ report', report.Reordered report' ∧ l = report'.entries := by
  have horders : Firsts.Orders (fun e => e.finding.key) (fun e => indexRank e.pkgId)
      report.entries fun l => ∃ gs, Firsts.Regrouped SamePackage report.packageVulnerabilities gs ∧
        l = inOrder (fun m => indexRank m.1) (clairMembers report) gs := by
    refine Firsts.orders_inOrder (fun m => ⟨rfl, .refl _⟩) (fun m m' hm x => ?_)
      (fun m x hx => ?_) (fun m x hx => ?_) report.packageVulnerabilities
    · unfold clairMembers
      rw [hm.1]
      exact (hm.2.filterMap _).mem_iff
    · obtain ⟨items, xs, hperm, hxs⟩ := filterMap_front hx
      exact ⟨(m.1, some items), xs, ⟨rfl, hperm⟩, hxs⟩
    · obtain ⟨vulnId, -, hf⟩ := mem_filterMap.mp hx
      obtain ⟨f, -, rfl⟩ := Option.map_eq_some_iff.mp hf
      rfl
  have heq : (fun l => ∃ report', report.Reordered report' ∧ l = report'.entries) =
      fun l => ∃ gs, Firsts.Regrouped SamePackage report.packageVulnerabilities gs ∧
        l = inOrder (fun m => indexRank m.1) (clairMembers report) gs := by
    funext l
    apply propext
    constructor
    · rintro ⟨report', ⟨hregrouped, hsame⟩, rfl⟩
      refine ⟨report'.packageVulnerabilities, hregrouped, ?_⟩
      rw [hsame]
      rfl
    · rintro ⟨gs, hregrouped, rfl⟩
      exact ⟨{ report with packageVulnerabilities := gs }, ⟨hregrouped, rfl⟩, rfl⟩
  rw [heq]
  exact horders

theorem inOrder_results (report : TrivyReport) (rs : List TrivyResult) :
    inOrder (fun _ => 0) (trivyMembers report) rs = rs.flatMap (trivyMembers report) := by
  unfold Firsts.inOrder
  rw [mergeSort_of_pairwise]
  exact pairwise_of_forall fun a b => rfl

theorem trivy_orders (report : TrivyReport) : Firsts.Orders Finding.key (fun _ => 0) report.entries
      fun l => ∃ report', report.Reordered report' ∧ l = report'.entries := by
  have horders : Firsts.Orders Finding.key (fun _ => 0)
      (inOrder (fun _ => 0) (trivyMembers report) (report.results.getD [])) fun l =>
        ∃ gs, Firsts.Regrouped SameResult (report.results.getD []) gs ∧
          l = inOrder (fun _ => 0) (trivyMembers report) gs := by
    refine Firsts.orders_inOrder (fun r => ⟨rfl, rfl, .refl _⟩) (fun r r' hr x => ?_)
      (fun r x hx => ?_) (fun _ _ _ => rfl) _
    · have hfind : trivyFinding report r' = trivyFinding report r := by
        funext v
        unfold trivyFinding
        rw [hr.1, hr.2.1]
      unfold trivyMembers
      rw [hr.1, hfind]
      split
      · rfl
      · exact (hr.2.2.filterMap _).mem_iff
    · have hscanned : ¬(truthyText r.cls = true ∧ r.cls ≠ some "os-pkgs" ∧
          r.cls ≠ some "lang-pkgs") := by
        intro hother
        unfold trivyMembers at hx
        rw [if_pos hother] at hx
        cases hx
      unfold trivyMembers at hx
      rw [if_neg hscanned] at hx
      obtain ⟨items, xs, hperm, hxs⟩ := filterMap_front hx
      refine ⟨{ r with vulnerabilities := some items }, xs, ⟨rfl, rfl, hperm⟩, ?_⟩
      unfold trivyMembers
      rw [if_neg hscanned]
      exact hxs
  have heq : (fun l => ∃ report', report.Reordered report' ∧ l = report'.entries) =
      fun l => ∃ gs, Firsts.Regrouped SameResult (report.results.getD []) gs ∧
        l = inOrder (fun _ => 0) (trivyMembers report) gs := by
    have hmembers (report' : TrivyReport) (hfamily : report'.osFamily = report.osFamily)
        (hname : report'.osName = report.osName) : trivyMembers report' = trivyMembers report := by
      funext r
      unfold trivyMembers trivyFinding TrivyReport.distro
      rw [hfamily, hname]
    funext l
    apply propext
    constructor
    · rintro ⟨report', ⟨hregrouped, hfamily, hname⟩, rfl⟩
      refine ⟨_, hregrouped, ?_⟩
      rw [inOrder_results, ← hmembers report' hfamily hname]
      rfl
    · rintro ⟨gs, hregrouped, rfl⟩
      refine ⟨{ report with results := some gs }, ⟨hregrouped, rfl, rfl⟩, ?_⟩
      rw [inOrder_results, ← hmembers { report with results := some gs } rfl rfl]
      rfl
  rw [heq]
  rw [inOrder_results] at horders
  exact horders

theorem clair_hidesNothing_iff (localeCompare : String → String → Ordering)
    (report : ClairReport) : report.HidesNothing localeCompare ↔
      Settled ClairEntry.finding (fun e => indexRank e.pkgId) report.entries := by
  rw [← kept_faithful_iff localeCompare (clair_orders report)]
  refine and_congr_right fun _ => ?_
  constructor
  · rintro hall l' ⟨report', hreordered, rfl⟩
    exact hall report' hreordered
  · intro hall report' hreordered
    exact hall report'.entries ⟨report', hreordered, rfl⟩

theorem trivy_hidesNothing_iff (localeCompare : String → String → Ordering)
    (report : TrivyReport) : report.HidesNothing localeCompare ↔
      ∀ e ∈ report.entries, ∀ e' ∈ report.entries, e.key = e'.key → e = e' := by
  have hkept (r : TrivyReport) : normalizeTrivyReport localeCompare r =
      kept localeCompare id r.entries := by
    unfold kept
    rw [map_id]
    rfl
  have horders : Firsts.Orders (fun x : Finding => (id x).key) (fun _ => 0) report.entries
      fun l => ∃ report', report.Reordered report' ∧ l = report'.entries := trivy_orders report
  have hiff := kept_faithful_iff localeCompare horders
  have hsettled : Settled id (fun _ => 0) report.entries ↔
      ∀ e ∈ report.entries, ∀ e' ∈ report.entries, e.key = e'.key → e = e' := by
    constructor
    · intro h e he e' he' hkey
      exact h.alike e e' ⟨he, fun _ _ _ => Nat.le_refl 0⟩ ⟨he', fun _ _ _ => Nat.le_refl 0⟩ hkey
    · intro h
      refine ⟨fun x y hx hy hkey => h x hx.1 y hy.1 hkey, fun x hx y hy hkey => ?_⟩
      rw [h x hx.1 y hy hkey]
      exact ⟨⟨rfl, rfl, rfl⟩, Nat.le_refl _⟩
  rw [← hsettled, ← hiff]
  unfold TrivyReport.HidesNothing
  rw [map_id, hkept]
  refine and_congr_right fun _ => ?_
  constructor
  · rintro hall l' ⟨report', hreordered, rfl⟩
    rw [← hkept report']
    exact hall report' hreordered
  · intro hall report' hreordered
    rw [hkept report']
    exact hall report'.entries ⟨report', hreordered, rfl⟩

/-- One advisory for one package, rated low by one source and critical by another. -/
def ratedTwice : TrivyReport where
  results := some
    [{ cls := some "os-pkgs"
       vulnerabilities := some
        [{ vulnerabilityID := some "CVE-1", pkgName := some "zlib", severity := some "LOW" },
          { vulnerabilityID := some "CVE-1", pkgName := some "zlib",
            severity := some "CRITICAL" }] }]

end Chicoree.Scans
