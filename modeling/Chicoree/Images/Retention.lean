import Chicoree.Images.Tables

/-! # Retention plans

`retention-shared.ts` and the queries of `retention.ts`: which tags and untagged manifests a
policy removes from what was read of a repository. Times are in milliseconds. -/

namespace Chicoree.Images

open Registryd (Digest RepoId OrgId Time Repository TagRule matchTagGlob)

/-! ## The policy of a repository -/

/-- The policy that governs a repository: its own row, even a disabled one, else the default
of its organization. -/
def Tables.effectivePolicy (s : Tables) (r : Repository) : Option RetentionSettings :=
  let own := s.retentionPolicies.find? fun p => decide (p.repositoryId = some r.id)
  let org := s.retentionPolicies.find?
    fun p => decide (p.organizationId = r.orgId ∧ p.repositoryId = none)
  (own.or org).map (·.settings)

def isSpace (c : Char) : Bool :=
  let n := c.toNat
  decide (9 ≤ n ∧ n ≤ 13 ∨ n = 32 ∨ n = 0xA0 ∨ n = 0x1680 ∨ 0x2000 ≤ n ∧ n ≤ 0x200A ∨
    n = 0x2028 ∨ n = 0x2029 ∨ n = 0x202F ∨ n = 0x205F ∨ n = 0x3000 ∨ n = 0xFEFF)

/-- `parseKeepMatching`: the patterns between blanks and commas. -/
def parseKeepMatching (value : Option String) : List String :=
  (((value.getD "").toList.splitOnP fun c => isSpace c || decide (c = ',')).filter
    (!·.isEmpty)).map String.ofList

def RetentionSettings.hasTagRule (policy : RetentionSettings) : Bool :=
  policy.keepLast.isSome || policy.deleteOlderThanDays.isSome

structure PlanTag where
  name : String
  digest : Digest
  /-- When the tag was last pushed. -/
  pushedAt : Time
deriving DecidableEq

structure PlanManifest where
  digest : Digest
  pushedAt : Time
  /-- An index that still exists lists it. -/
  isChild : Bool
  /-- Its subject still exists. -/
  isReferrer : Bool
  hasReferrers : Bool

def TagRow.plan (t : TagRow) : PlanTag := ⟨t.name, t.manifestDigest, t.updatedAt⟩

/-- `listUntaggedManifests`, newest first. -/
def Tables.untaggedManifests (s : Tables) (repo : RepoId) : List PlanManifest :=
  let rows := s.manifests.filter fun m => decide (m.repositoryId = repo) &&
    (s.tagsForDigest repo m.digest).isEmpty
  (rows.mergeSort fun a b => decide (b.createdAt ≤ a.createdAt)).map fun m =>
    { digest := m.digest
      pushedAt := m.createdAt
      isChild := s.manifestRefs.any
        fun r => decide (r.repositoryId = repo ∧ r.refDigest = m.digest)
      isReferrer := match m.subjectDigest with
        | none => false
        | some d => s.manifestExists repo d
      hasReferrers := s.manifests.any
        fun x => decide (x.repositoryId = repo ∧ x.subjectDigest = some m.digest) }

/-! ## The plan -/

structure PlannedTag where
  name : String
  digest : Digest
  reason : String

structure PlannedDigest where
  digest : Digest
  reason : String

structure RetentionPlan where
  /-- Tags to delete. -/
  tags : List PlannedTag
  /-- Untagged manifests to delete. -/
  manifests : List PlannedDigest
  keptTags : List PlannedTag
  keptManifests : List PlannedDigest

def ageDays (d now : Time) : Int := max 0 ((now - d) / 86400000)

/-- What a policy does to a tag or a manifest, and why. -/
inductive Fate where
  | delete (reason : String)
  | keep (reason : String)

def Fate.deleteReason : Fate → Option String
  | .delete reason => some reason
  | .keep _ => none

def Fate.keepReason : Fate → Option String
  | .delete _ => none
  | .keep reason => some reason

def tagFate (policy : RetentionSettings) (rules : List TagRule) (now : Time)
    (recent : List String) (t : PlanTag) : Fate :=
  match (tagFlags rules t.name).protected_ with
  | some r => .keep ("protected by rule \"" ++ r.pattern ++ "\"")
  | none =>
    match (parseKeepMatching policy.keepMatching).find? fun p => matchTagGlob p t.name with
    | some keep => .keep ("matches keep pattern \"" ++ keep ++ "\"")
    | none =>
      if !policy.hasTagRule then .keep "the policy has no tag rule"
      else if recent.contains t.name then
        .keep ("among the " ++ toString (policy.keepLast.getD 0) ++ " most recently pushed")
      else
        let age := ageDays t.pushedAt now
        match policy.deleteOlderThanDays with
        | some days =>
          if days < age then
            .delete ("pushed " ++ toString age ++ " days ago (older than " ++ toString days ++ ")" ++
              match policy.keepLast with
              | some n => " and not among the " ++ toString n ++ " most recent"
              | none => "")
          else .keep ("pushed " ++ toString age ++ " days ago (within " ++ toString days ++ " days)")
        | none =>
          .delete ("not among the " ++ toString (policy.keepLast.getD 0) ++ " most recently pushed")

def manifestFate (policy : RetentionSettings) (now : Time) (m : PlanManifest) : Fate :=
  match policy.deleteUntaggedAfterDays with
  | none => .keep "the policy has no untagged rule"
  | some days =>
    if m.isChild then .keep "part of a multi-arch index"
    else if m.isReferrer then .keep "attached to another manifest (referrer)"
    else if m.hasReferrers then .keep "other manifests are attached to it"
    else
      let age := ageDays m.pushedAt now
      if days < age then
        .delete ("untagged, pushed " ++ toString age ++ " days ago (older than " ++
          toString days ++ ")")
      else .keep ("untagged, pushed " ++ toString age ++ " days ago (within " ++ toString days ++
        " days)")

section

variable (localeCompare : String → String → Ordering)

def newestFirst (a b : PlanTag) : Bool :=
  ((compare b.pushedAt a.pushedAt).then (localeCompare a.name b.name)).isLE

/-- `planRetention`: what a policy removes right now. -/
def planRetention (tags : List PlanTag) (untagged : List PlanManifest)
    (policy : RetentionSettings) (rules : List TagRule) (now : Time) : RetentionPlan :=
  let sorted := tags.mergeSort (newestFirst localeCompare)
  let recent := match policy.keepLast with
    | some n => (sorted.take n).map (·.name)
    | none => []
  let tagFates := sorted.map fun t => (t, tagFate policy rules now recent t)
  let manifestFates := untagged.map fun m => (m, manifestFate policy now m)
  { tags := tagFates.filterMap fun (t, f) => f.deleteReason.map (⟨t.name, t.digest, ·⟩)
    keptTags := tagFates.filterMap fun (t, f) => f.keepReason.map (⟨t.name, t.digest, ·⟩)
    manifests := manifestFates.filterMap fun (m, f) => f.deleteReason.map (⟨m.digest, ·⟩)
    keptManifests := manifestFates.filterMap fun (m, f) => f.keepReason.map (⟨m.digest, ·⟩) }

end

/-! ## Pruning a scope to its limit

`quota-enforce-shared.ts`: oldest first, leftovers and then tags, until the distinct blobs of
the remaining manifests fit; and the picture of the repositories it plans on, as
`loadScope` reads it. -/

open Registryd (Digest RepoId OrgId Time Repository TagRule)

structure ScopeBlob where
  digest : Digest
  size : Nat
deriving DecidableEq

structure ScopeManifest where
  digest : Digest
  pushedAt : Time
  subjectDigest : Option Digest
  /-- Layers and config, with their sizes. -/
  blobs : List ScopeBlob
  /-- Child manifests of an index. -/
  children : List Digest
deriving DecidableEq

structure ScopeRepository where
  id : RepoId
  path : String
  manifests : List ScopeManifest
  tags : List PlanTag
  rules : List TagRule
deriving DecidableEq

inductive StepKind where
  | tag
  | manifest
deriving DecidableEq

structure PruneStep where
  repositoryId : RepoId
  repository : String
  kind : StepKind
  /-- The name of a tag, or a digest. -/
  ref : String
  reason : String

structure PrunePlan where
  steps : List PruneStep
  beforeBytes : Nat
  afterBytes : Nat
  /-- Everything that may go went, and the scope is still above its limit. -/
  unmet : Bool

/-- The day of a time, year first. The years are counted from March, so that a leap day ends
one. -/
def isoDay (t : Time) : String :=
  let z := t / 86400000 + 719468
  let era := z / 146097
  let doe := z - era * 146097
  let yoe := (doe - doe / 1460 + doe / 36524 - doe / 146096) / 365
  let doy := doe - (365 * yoe + yoe / 4 - yoe / 100)
  let mp := (5 * doy + 2) / 153
  let day := doy - (153 * mp + 2) / 5 + 1
  let month := if mp < 10 then mp + 3 else mp - 9
  let year := yoe + era * 400 + if month ≤ 2 then 1 else 0
  let two (n : Int) : String := if n < 10 then "0" ++ toString n else toString n
  let four (n : Int) : String :=
    String.ofList (List.replicate (4 - (toString n).length) '0') ++ toString n
  four year ++ "-" ++ two month ++ "-" ++ two day

/-- `slice(7, 19)` of a digest. -/
def shortHex (d : Digest) : String := String.ofList ((d.toList.drop 7).take 12)

/-! ## The state of a plan -/

structure Pruning where
  /-- Live manifests, with their repositories. -/
  live : List (RepoId × Digest)
  /-- How many live manifests name a blob. -/
  blobRefs : List (Digest × Int)
  removedTags : List (RepoId × String) := []
  steps : List PruneStep := []

def setEntry {κ : Type} {ν : Type} [DecidableEq κ] (k : κ) (v : ν) :
    List (κ × ν) → List (κ × ν)
  | [] => [(k, v)]
  | e :: es => if e.1 = k then (k, v) :: es else e :: setEntry k v es

section

variable (repos : List ScopeRepository)

def findScope (id : RepoId) : Option ScopeRepository := repos.find? fun r => decide (r.id = id)

def scopeManifests (id : RepoId) : List ScopeManifest :=
  ((findScope repos id).map (·.manifests)).getD []

def manifestOf (id : RepoId) (d : Digest) : Option ScopeManifest :=
  (scopeManifests repos id).find? fun m => decide (m.digest = d)

def blobSizes : List (Digest × Nat) :=
  (repos.flatMap fun r => r.manifests.flatMap (·.blobs)).foldl
    (fun sizes b => setEntry b.digest b.size sizes) []

def startPruning : Pruning :=
  let blobs := repos.flatMap fun r => r.manifests.flatMap (·.blobs)
  { live := repos.flatMap fun r => r.manifests.map fun m => (r.id, m.digest)
    blobRefs := blobs.foldl
      (fun refs b => setEntry b.digest ((refs.lookup b.digest).getD 0 + 1) refs) [] }

namespace Pruning

def usage (st : Pruning) : Nat :=
  st.blobRefs.foldl (fun sum e =>
    if 0 < e.2 then sum + ((blobSizes repos).lookup e.1).getD 0 else sum) 0

def isLive (st : Pruning) (id : RepoId) (d : Digest) : Bool := st.live.contains (id, d)

def tagsOf (st : Pruning) (id : RepoId) (d : Digest) : List PlanTag :=
  (((findScope repos id).map (·.tags)).getD []).filter fun t =>
    decide (t.digest = d) && !st.removedTags.contains (id, t.name)

def liveParents (st : Pruning) (id : RepoId) (d : Digest) : List ScopeManifest :=
  (scopeManifests repos id).filter fun m => st.isLive id m.digest && m.children.contains d

def liveReferrers (st : Pruning) (id : RepoId) (d : Digest) : List ScopeManifest :=
  (scopeManifests repos id).filter fun m =>
    st.isLive id m.digest && decide (m.subjectDigest = some d)

def isProtected (st : Pruning) (repo : ScopeRepository) (d : Digest) : Bool :=
  (st.tagsOf repos repo.id d).any fun t => (tagFlags repo.rules t.name).protected_.isSome

def drop (st : Pruning) (repo : ScopeRepository) (m : ScopeManifest) (reason : String) : Pruning :=
  { st with
    live := st.live.filter fun l => decide (l ≠ (repo.id, m.digest))
    blobRefs := m.blobs.foldl
      (fun refs b => setEntry b.digest ((refs.lookup b.digest).getD 1 - 1) refs) st.blobRefs
    steps := st.steps ++ [⟨repo.id, repo.path, .manifest, m.digest, reason⟩] }

end Pruning

/-- `removeManifest`: drop a manifest and what only existed for it, its referrers first. The
fuel is the depth of the stack; a chain of subjects that closes on itself overflows it. -/
def removeManifest : Nat → Pruning → ScopeRepository → Digest → String → Option Pruning
  | 0, _, _, _, _ => none
  | fuel + 1, st, repo, d, reason =>
    match manifestOf repos repo.id d with
    | none => some st
    | some m =>
      if !st.isLive repo.id d then some st
      else do
        let st ← (st.liveReferrers repos repo.id d).foldlM (fun st ref =>
          removeManifest fuel st repo ref.digest
            ("attached to " ++ shortHex d ++ ", which is removed")) st
        m.children.foldlM (fun st child =>
          if !st.isLive repo.id child || !(st.liveParents repos repo.id child).isEmpty ||
              !(st.tagsOf repos repo.id child).isEmpty then some st
          else removeManifest fuel st repo child
            ("variant of " ++ shortHex d ++ ", which is removed")) (st.drop repo m reason)

/-- More calls than can be under way at once without a cycle. -/
def stackDepth : Nat :=
  let n := repos.foldl (fun n r => n + r.manifests.length) 1
  n * n

/-- Untagged manifests that no live index lists and that belong to no live subject. -/
def isLeftover (st : Pruning) (repo : ScopeRepository) (m : ScopeManifest) : Bool :=
  (st.tagsOf repos repo.id m.digest).isEmpty &&
    (st.liveParents repos repo.id m.digest).isEmpty &&
    !(m.subjectDigest.any (st.isLive repo.id ·))

def leftovers (st : Pruning) : List (ScopeRepository × ScopeManifest) :=
  (repos.flatMap fun r => (r.manifests.filter (isLeftover repos st r)).map fun m => (r, m)).mergeSort
    fun a b => decide (a.2.pushedAt ≤ b.2.pushedAt)

def pruneLeftovers (limitBytes : Nat) :
    List (ScopeRepository × ScopeManifest) → Pruning → Option Pruning
  | [], st => some st
  | (repo, m) :: rest, st =>
    if st.usage repos ≤ limitBytes then some st
    else if !st.isLive repo.id m.digest then pruneLeftovers limitBytes rest st
    else do
      let st ← removeManifest repos (stackDepth repos) st repo m.digest
        ("untagged since " ++ isoDay m.pushedAt ++ ", oldest first to fit the storage limit")
      pruneLeftovers limitBytes rest st

def pruneTags (limitBytes : Nat) :
    List (ScopeRepository × PlanTag) → Pruning → Option Pruning
  | [], st => some st
  | (repo, t) :: rest, st =>
    if st.usage repos ≤ limitBytes then some st
    else if st.removedTags.contains (repo.id, t.name) then pruneTags limitBytes rest st
    else if (tagFlags repo.rules t.name).protected_.isSome then pruneTags limitBytes rest st
    -- another, protected tag names the same image
    else if st.isProtected repos repo t.digest then pruneTags limitBytes rest st
    else
      let st : Pruning :=
        { st with
          removedTags := st.removedTags ++ [(repo.id, t.name)]
          steps := st.steps ++ [⟨repo.id, repo.path, .tag, t.name,
            "pushed " ++ isoDay t.pushedAt ++ ", oldest first to fit the storage limit"⟩] }
      if (st.tagsOf repos repo.id t.digest).isEmpty &&
          (st.liveParents repos repo.id t.digest).isEmpty then do
        let st ← removeManifest repos (stackDepth repos) st repo t.digest
          ("its last tag " ++ t.name ++ " is removed")
        pruneTags limitBytes rest st
      else pruneTags limitBytes rest st

variable (localeCompare : String → String → Ordering)

def tagsByAge : List (ScopeRepository × PlanTag) :=
  (repos.flatMap fun r => r.tags.map fun t => (r, t)).mergeSort fun a b =>
    ((compare a.2.pushedAt b.2.pushedAt).then (localeCompare a.2.name b.2.name)).isLE

/-- `planPruneToFit`; `none` where the stack overflows. -/
def planPruneToFit (limitBytes : Nat) : Option PrunePlan :=
  let start := startPruning repos
  let before := start.usage repos
  if before ≤ limitBytes then some ⟨[], before, before, false⟩
  else do
    let st ← pruneLeftovers repos limitBytes (leftovers repos start) start
    let st ← pruneTags repos limitBytes (tagsByAge repos localeCompare) st
    let after := st.usage repos
    some ⟨st.steps, before, after, decide (limitBytes < after)⟩

end

/-- The path people see: repositories of `library` go without it. -/
def imagePath (orgSlug name : String) : String :=
  if orgSlug = "" ∨ orgSlug = "library" then name else orgSlug ++ "/" ++ name

/-- The four queries of `loadScope`, as far as they are answered: the repositories with the
slugs of their organizations, and the manifests, references (with the size of a stored blob)
and tags of them all. -/
structure ScopeQueries where
  repositories : Option (List (Repository × String)) := none
  manifests : Option (List ManifestRow) := none
  refs : Option (List (RefRow × Option Nat)) := none
  tags : Option (List TagRow) := none

def Tables.scopeRepositories (s : Tables) (ids : List RepoId) : List (Repository × String) :=
  s.repositories.filterMap fun r =>
    if ids.contains r.id then (s.findOrganization r.orgId).map fun o => (r, o.slug) else none

def Tables.scopeRefs (s : Tables) (ids : List RepoId) : List (RefRow × Option Nat) :=
  (s.manifestRefs.filter fun r => ids.contains r.repositoryId).map fun r =>
    (r, (Table.find BlobRow.digest r.refDigest s.blobs).map (·.size))

def ScopeQueries.answer (q : ScopeQueries) (s : Tables) (ids : List RepoId) :
    Nat → ScopeQueries
  | 0 => { q with repositories := some (s.scopeRepositories ids) }
  | 1 => { q with manifests := some (s.manifests.filter fun m => ids.contains m.repositoryId) }
  | 2 => { q with refs := some (s.scopeRefs ids) }
  | _ => { q with tags := some (s.tags.filter fun t => ids.contains t.repositoryId) }

section

variable (localeCompare : String → String → Ordering)

/-- The picture of one repository: a reference without a blob is a child, where it is a
manifest. -/
def scopeOf (s : Tables) (manifests : List ManifestRow) (refs : List (RefRow × Option Nat))
    (tags : List TagRow) (r : Repository × String) : ScopeRepository :=
  let known (d : Digest) : Bool :=
    manifests.any fun m => decide (m.repositoryId = r.1.id ∧ m.digest = d)
  { id := r.1.id
    path := imagePath r.2 r.1.name
    manifests := (manifests.filter fun m => decide (m.repositoryId = r.1.id)).map fun m =>
      let mine := refs.filter
        fun x => decide (x.1.repositoryId = r.1.id ∧ x.1.manifestDigest = m.digest)
      { digest := m.digest
        pushedAt := m.createdAt
        subjectDigest := m.subjectDigest
        blobs := mine.filterMap fun x => x.2.map fun size => ⟨x.1.refDigest, size⟩
        children := (mine.filter fun x => x.2.isNone && known x.1.refDigest).map (·.1.refDigest) }
    tags := (tags.filter fun t => decide (t.repositoryId = r.1.id)).map TagRow.plan
    rules := effectiveTagRules localeCompare s r.1.orgId r.1.id }

end

end Chicoree.Images
