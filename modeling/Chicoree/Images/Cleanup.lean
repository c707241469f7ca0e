import Chicoree.Images.Retention
import Chicoree.Images.TagAdmin
import Chicoree.Lib.Machine

/-! # Cleanup runs

`runRetention` and `runQuotaEnforcement`: read a scope, plan, and delete what the plan names
tag by tag and manifest by manifest. A deletion that fails is noted and the run goes on. -/

namespace Chicoree.Images

open Registryd (Digest RepoId OrgId Time Repository Organization TagRule)

/-! ## Executing a plan -/

inductive CleanupStep where
  | tag (repositoryId : RepoId) (name : String)
  | manifest (repositoryId : RepoId) (d : Digest)
deriving DecidableEq

inductive Deletion where
  | tag (repositoryId : RepoId) (name : String) (pc : TagAdminPc)
  | manifest (repositoryId : RepoId) (d : Digest) (pc : ManifestPc)

def CleanupStep.start : CleanupStep → Deletion
  | .tag repositoryId name => .tag repositoryId name .repository
  | .manifest repositoryId d => .manifest repositoryId d .repository

/-- A plan under execution, with the tags that were read for it. -/
structure Execution where
  seen : List TagRow
  current : Option Deletion := none
  todo : List CleanupStep

def Deletion.isDone : Deletion → Bool
  | .tag _ _ (.done _) | .manifest _ _ (.done _) => true
  | _ => false

def Execution.isDone (e : Execution) : Bool := e.current.isNone && e.todo.isEmpty

section

variable (localeCompare : String → String → Ordering)

/-- One statement of a deletion. A run never changes what `latest` means. -/
def deletionAct (s : Tables) (x : Deletion) (reply : Reply) : Option (Tables × Deletion) :=
  match x with
  | .tag repositoryId name pc =>
    (tagAdminAct localeCompare s ⟨repositoryId, name, false⟩ pc reply).map
      fun out => (out.1, .tag repositoryId name out.2)
  | .manifest repositoryId d pc =>
    (manifestAct localeCompare s repositoryId d pc reply).map
      fun out => (out.1, .manifest repositoryId d out.2)

def executionAct (s : Tables) (e : Execution) (reply : Reply) : Option (Tables × Execution) :=
  match e.current with
  | none =>
    match e.todo with
    | [] => none
    | step :: rest => some (s, { e with current := some step.start, todo := rest })
  | some x =>
    if x.isDone then some (s, { e with current := none })
    else (deletionAct localeCompare s x reply).map fun out =>
      (out.1, { e with current := some out.2 })

end

/-! ## Retention -/

structure RetentionOptions where
  dryRun : Bool
  organizationSlug : Option String := none
  repositoryPath : Option String := none

/-- The organization and the name of a path; a single name belongs to `library`. -/
def pathParts (path : String) : String × String :=
  if path.toList.contains '/' then
    match path.toList.splitOn '/' with
    | org :: name :: _ => (String.ofList org, String.ofList name)
    | _ => ("", "")
  else ("library", path)

/-- `listRepositories`, ordered by the slugs of the organizations and the names. -/
def Tables.listRepositories (s : Tables) (o : RetentionOptions) : List (Repository × String) :=
  let rows := s.repositories.filterMap fun r =>
    (s.findOrganization r.orgId).map fun org => (r, org.slug)
  let wanted := rows.filter fun r =>
    (match o.organizationSlug with | some slug => decide (r.2 = slug) | none => true) &&
      match o.repositoryPath with
      | some path => decide ((r.2, r.1.name) = pathParts path)
      | none => true
  wanted.mergeSort fun a b => ((compare a.2 b.2).then (compare a.1.name b.1.name)).isLE

/-- The three queries of `planRepository`, as far as they are answered. -/
structure RetentionQueries where
  tags : Option (List TagRow) := none
  untagged : Option (List PlanManifest) := none
  rules : Option (List TagRule) := none

inductive RetentionPc where
  | listRepositories
  | policies (now : Time) (todo : List (Repository × String))
  | load (now : Time) (r : Repository) (policy : RetentionSettings) (q : RetentionQueries)
      (todo : List (Repository × String))
  | apply (now : Time) (e : Execution) (todo : List (Repository × String))
  | done

def RetentionPlan.steps (plan : RetentionPlan) (repositoryId : RepoId) : List CleanupStep :=
  plan.tags.map (fun t => .tag repositoryId t.name) ++
    plan.manifests.map fun m => .manifest repositoryId m.digest

section

variable (localeCompare : String → String → Ordering)

def RetentionQueries.answer (q : RetentionQueries) (s : Tables) (r : Repository) :
    Nat → RetentionQueries
  | 0 => { q with tags := some (s.repositoryTags r.id) }
  | 1 => { q with untagged := some (s.untaggedManifests r.id) }
  | _ => { q with rules := some (effectiveTagRules localeCompare s r.orgId r.id) }

def RetentionQueries.plan (q : RetentionQueries) (r : Repository) (policy : RetentionSettings)
    (now : Time) : Option (List TagRow × List CleanupStep) :=
  match q.tags, q.untagged, q.rules with
  | some tags, some untagged, some rules =>
    let plan := planRetention localeCompare (tags.map TagRow.plan) untagged policy rules now
    some (tags, plan.steps r.id)
  | _, _, _ => none

def retentionAct (s : Tables) (o : RetentionOptions) (pc : RetentionPc) (reply : Reply) :
    Option (Tables × RetentionPc) :=
  match pc with
  | .done => none
  | .listRepositories =>
    if reply = .failed then some (s, .done)
    else some (s, .policies s.now (s.listRepositories o))
  | .policies _ [] => some (s, .done)
  | .policies now (r :: todo) =>
    if reply = .failed then some (s, .done)
    else
      match s.effectivePolicy r.1 with
      | some policy =>
        if policy.enabled then some (s, .load now r.1 policy {} todo)
        else some (s, .policies now todo)
      | none => some (s, .policies now todo)
  | .load now r policy q todo =>
    match reply with
    | .query n => some (s, .load now r policy (q.answer localeCompare s r n) todo)
    | .ok =>
      match q.plan localeCompare r policy now with
      | some (seen, steps) =>
        if o.dryRun then some (s, .policies now todo)
        else some (s, .apply now { seen := seen, todo := steps } todo)
      | none => none
    | .failed => some (s, .done)
    | _ => none
  | .apply now e todo =>
    if e.isDone then some (s, .policies now todo)
    else (executionAct localeCompare s e reply).map fun out => (out.1, .apply now out.2 todo)

inductive EnforcePc where
  | findBreaches
  | scopes (due : List Breach)
  | load (b : Breach) (q : ScopeQueries) (due : List Breach)
  | apply (e : Execution) (due : List Breach)
  | done

def PruneStep.cleanup (x : PruneStep) : CleanupStep :=
  match x.kind with
  | .tag => .tag x.repositoryId x.ref
  | .manifest => .manifest x.repositoryId x.ref

/-- The plan for one breach, once its scope is read: nothing where the planner overflows its
stack. -/
def ScopeQueries.plan (q : ScopeQueries) (s : Tables) (limitBytes : Nat) :
    Option (Option (List TagRow × List CleanupStep)) :=
  match q.repositories, q.manifests, q.refs, q.tags with
  | some repositories, some manifests, some refs, some tags =>
    let scope := repositories.map (scopeOf localeCompare s manifests refs tags)
    some ((planPruneToFit scope localeCompare limitBytes).map fun plan =>
      (tags, plan.steps.map PruneStep.cleanup))
  | _, _, _, _ => none

/-- One statement of `runQuotaEnforcement`; which breaches are due is found out by their
usage and their notices. -/
def enforceAct (s : Tables) (dryRun : Bool) (pc : EnforcePc) (reply : Reply) :
    Option (Tables × EnforcePc) :=
  match pc with
  | .done => none
  | .findBreaches =>
    match reply with
    | .breaches due => some (s, .scopes due)
    | .failed => some (s, .done)
    | _ => none
  | .scopes [] => some (s, .done)
  | .scopes (b :: due) =>
    if b.repositoryIds.isEmpty then some (s, .scopes due) else some (s, .load b {} due)
  | .load b q due =>
    match reply with
    | .query n => some (s, .load b (q.answer s b.repositoryIds n) due)
    | .ok =>
      match q.plan localeCompare s b.limitBytes with
      | some (some (seen, steps)) =>
        if dryRun then some (s, .scopes due)
        else some (s, .apply { seen := seen, todo := steps } due)
      | some none => some (s, .done)
      | none => none
    | .failed => some (s, .done)
    | _ => none
  | .apply e due =>
    if e.isDone then some (s, .scopes due)
    else (executionAct localeCompare s e reply).map fun out => (out.1, .apply out.2 due)

end

/-! ## Every way to remove a tag

The server actions, API requests and jobs that remove tags or manifests, with the requests
of clients to registryd, side by side: one statement of one of them at a time. -/

open Transition
open Registryd (Digest RepoId OrgId Time Repository Organization TagRule TagRuleRow)

/-! ## Server actions and API requests -/

/-- The form action `deleteTag` of `repositories.ts`. -/
inductive FormPc where
  | repository
  | role (r : Repository)
  | delete (r : Repository)
  | done

/-- A request that looks its repository up and checks the role of the caller before it goes
on. -/
inductive Guarded (π : Type) where
  | repository
  | role (r : Repository)
  | body (pc : π)
  | refused (error : String)

/-- The form of `moveImage`. -/
structure MoveForm where
  sourceRepositoryId : RepoId
  /-- A tag, or a digest. -/
  reference : String
  destinationOrganizationId : OrgId
  destinationRepository : String
  destinationTag : String
  /-- Move rather than copy. -/
  move : Bool
deriving DecidableEq

def isDigestReference (reference : String) : Bool :=
  reference.toList.take 7 = "sha256:".toList

def MoveForm.sourceTag (f : MoveForm) : Option String :=
  if isDigestReference f.reference then none else some f.reference

/-- The image to travel, from where. -/
structure MoveSource where
  repository : Repository
  orgSlug : String
  digest : Digest
deriving DecidableEq

inductive MoveRefusal where
  | repositoryNotFound
  | organizationNotFound
  | denied
  | proxyCache
  | tagMissing (tag : String)
  /-- An image addressed by digest can only be copied. -/
  | digestMove
  /-- The tag is protected and may be copied only. -/
  | protectedTag (tag : String) (rule : TagRule)
  | destinationNotFound
  /-- The role, a proxy cache, or a name that is not allowed. -/
  | destinationRefused
  | currentPlace
  | immutableTag (tag : String) (current : Digest)
  | unreadable
  | quota
  | pushFailed (message : String)
  /-- Copied, but the source tag stays. -/
  | tagNotRemoved (error : String)
deriving DecidableEq

inductive MovePc where
  | sourceRepository
  | sourceOrganization (r : Repository)
  | sourceRole (r : Repository) (orgSlug : String)
  | sourceProxy (r : Repository) (orgSlug : String)
  | tagDigest (r : Repository) (orgSlug : String)
  | sourceRules (src : MoveSource)
  | destination (src : MoveSource)
  /-- The role in the destination, whether it is a proxy cache, and the names. -/
  | destinationChecks (src : MoveSource) (dst : Organization)
  | destinationRepository (src : MoveSource) (dst : Organization)
  | destinationRules (src : MoveSource) (dst : Organization) (r : Repository)
  | planCopy (src : MoveSource) (dst : Organization) (r : Option Repository)
  | createRepository (src : MoveSource) (dst : Organization) (plan : List PlannedManifest)
  | push (src : MoveSource) (orgSlug name : String) (call : RegistryCall)
      (todo : List PlannedManifest)
  | deleteTag (pc : TagAdminPc)
  | done (refusal : Option MoveRefusal)
deriving DecidableEq

def MoveForm.pushOf (f : MoveForm) (src : MoveSource) (orgSlug name : String)
    (m : PlannedManifest) : RegistryCall :=
  .resolve orgSlug name
    (.put (if m.manifest.digest = src.digest then some f.destinationTag else m.tag) m.manifest)

def MoveForm.nextPush (f : MoveForm) (src : MoveSource) (orgSlug name : String) :
    List PlannedManifest → MovePc
  | m :: todo => .push src orgSlug name (f.pushOf src orgSlug name m) todo
  | [] => if f.move ∧ f.sourceTag.isSome then .deleteTag .repository else .done none

def MoveForm.removal (f : MoveForm) : TagRemoval :=
  { repositoryId := f.sourceRepositoryId, tagName := f.reference }

section

variable (localeCompare : String → String → Ordering)

def formAct (s : Tables) (repositoryId : RepoId) (tagName : String) (pc : FormPc)
    (reply : Reply) : Option (Tables × FormPc) :=
  match pc with
  | .done => none
  | .repository =>
    if reply = .failed then some (s, .done)
    else
      match s.findRepository repositoryId with
      | none => some (s, .done)
      | some r => some (s, .role r)
  | .role r => if reply = .ok then some (s, .delete r) else some (s, .done)
  -- the statement names the tag only
  | .delete _ =>
    if reply = .failed then some (s, .done) else some (s.deleteTag repositoryId tagName, .done)

/-- The checks of `deleteTagAction`, `deleteManifestAction` and the API before their body. -/
def guardAct {π : Type} (s : Tables) (repositoryId : RepoId) (start : π)
    (body : π → Option (Tables × π)) (pc : Guarded π) (reply : Reply) :
    Option (Tables × Guarded π) :=
  match pc with
  | .refused _ => none
  | .repository =>
    if reply = .failed then some (s, .refused "Repository not found.")
    else
      match s.findRepository repositoryId with
      | none => some (s, .refused "Repository not found.")
      | some r => some (s, .role r)
  | .role _ => if reply = .ok then some (s, .body start) else some (s, .refused "Forbidden.")
  | .body pc => (body pc).map fun out => (out.1, .body out.2)

def moveAct (s : Tables) (f : MoveForm) (pc : MovePc) (reply : Reply) : Option (Tables × MovePc) :=
  match pc with
  | .done _ => none
  | .sourceRepository =>
    match s.findRepository f.sourceRepositoryId with
    | none => some (s, .done (some .repositoryNotFound))
    | some r => some (s, .sourceOrganization r)
  | .sourceOrganization r =>
    match s.findOrganization r.orgId with
    | none => some (s, .done (some .organizationNotFound))
    | some o => some (s, .sourceRole r o.slug)
  | .sourceRole r orgSlug =>
    if reply = .ok then some (s, .sourceProxy r orgSlug) else some (s, .done (some .denied))
  | .sourceProxy r orgSlug =>
    if s.isProxyOrg r.orgId then some (s, .done (some .proxyCache))
    else some (s, .tagDigest r orgSlug)
  | .tagDigest r orgSlug =>
    match f.sourceTag with
    | none =>
      if f.move then some (s, .done (some .digestMove))
      else some (s, .destination ⟨r, orgSlug, f.reference⟩)
    | some tag =>
      match s.resolveTag r.id tag with
      | none => some (s, .done (some (.tagMissing tag)))
      | some d =>
        if f.move then some (s, .sourceRules ⟨r, orgSlug, d⟩)
        else some (s, .destination ⟨r, orgSlug, d⟩)
  | .sourceRules src =>
    let rules := effectiveTagRules localeCompare s src.repository.orgId src.repository.id
    match (tagFlags rules f.reference).protected_ with
    | some r => some (s, .done (some (.protectedTag f.reference r)))
    | none => some (s, .destination src)
  | .destination src =>
    match s.findOrganization f.destinationOrganizationId with
    | none => some (s, .done (some .destinationNotFound))
    | some dst => some (s, .destinationChecks src dst)
  | .destinationChecks src dst =>
    if reply = .ok then some (s, .destinationRepository src dst)
    else some (s, .done (some .destinationRefused))
  | .destinationRepository src dst =>
    match Table.find (fun r : Repository => (r.orgId, r.name)) (dst.id, f.destinationRepository)
        s.repositories with
    | none => some (s, .planCopy src dst none)
    | some r =>
      if r.id = src.repository.id ∧ f.sourceTag = some f.destinationTag then
        some (s, .done (some .currentPlace))
      else some (s, .destinationRules src dst r)
  | .destinationRules src dst r =>
    let rules := effectiveTagRules localeCompare s dst.id r.id
    match (tagFlags rules f.destinationTag).immutable, s.resolveTag r.id f.destinationTag with
    | some _, some current =>
      if current ≠ src.digest then
        some (s, .done (some (.immutableTag f.destinationTag current)))
      else some (s, .planCopy src dst (some r))
    | _, _ => some (s, .planCopy src dst (some r))
  | .planCopy src dst r =>
    match reply, r with
    | .copyPlan plan, some r => some (s, f.nextPush src dst.slug r.name plan)
    | .copyPlan plan, none => some (s, .createRepository src dst plan)
    | _, _ => some (s, .done (some .unreadable))
  | .createRepository src dst plan =>
    match reply with
    | .created id visibility =>
      (s.createRepository ⟨id, dst.id, f.destinationRepository, visibility⟩).map
        fun s' => (s', f.nextPush src dst.slug f.destinationRepository plan)
    | _ => some (s, .done (some .quota))
  | .push src orgSlug name (.answered status message) todo =>
    if status ≠ 201 then some (s, .done (some (.pushFailed message)))
    else some (s, f.nextPush src orgSlug name todo)
  | .push src orgSlug name call todo =>
    (registryAct s call reply).map fun out => (out.1, .push src orgSlug name out.2 todo)
  | .deleteTag (.done (.ok _)) => some (s, .done none)
  | .deleteTag (.done (.error e)) => some (s, .done (some (.tagNotRemoved e)))
  | .deleteTag pc =>
    (tagAdminAct localeCompare s f.removal pc reply).map fun out => (out.1, .deleteTag out.2)

end

/-- `evictProxyTags`. -/
inductive EvictPc where
  | select
  | delete (cutoff : Time)
  | done (candidates deleted : Nat)

def evictAct (s : Tables) (unusedFor : Time) (dryRun : Bool) (pc : EvictPc) (reply : Reply) :
    Option (Tables × EvictPc) :=
  match pc with
  | .done _ _ => none
  | .select =>
    let cutoff := s.now - unusedFor
    let rows := s.tags.filter (s.unused cutoff)
    if reply = .failed ∨ dryRun ∨ rows.isEmpty then some (s, .done rows.length 0)
    else some (s, .delete cutoff)
  | .delete cutoff =>
    if reply = .failed then some (s, .done 0 0)
    else
      let deleted := (s.tags.filter (s.unused cutoff)).length
      some (s.evictTags cutoff, .done deleted deleted)

inductive Task where
  /-- A request of a client to registryd. -/
  | client (call : RegistryCall)
  /-- The form action `deleteTag`. -/
  | deleteTag (repositoryId : RepoId) (tagName : String) (pc : FormPc)
  /-- `deleteTagAction`, and the API's `DELETE` of a tag. -/
  | deleteTagAction (a : TagRemoval) (pc : Guarded TagAdminPc)
  /-- `deleteManifestAction`, and the API's `DELETE` of a manifest. -/
  | deleteManifestAction (repositoryId : RepoId) (d : Digest) (pc : Guarded ManifestPc)
  | moveImage (f : MoveForm) (pc : MovePc)
  | retention (o : RetentionOptions) (pc : RetentionPc)
  | quotaEnforcement (dryRun : Bool) (pc : EnforcePc)
  | proxyEvict (unusedFor : Time) (dryRun : Bool) (pc : EvictPc)
  /-- The `prune-untagged` job, with its answer. -/
  | pruneUntagged (olderThan : Time) (pruned : Option Nat)

def Task.fresh : Task → Bool
  | .client (.resolve _ _ _) => true
  | .deleteTag _ _ .repository => true
  | .deleteTagAction _ .repository => true
  | .deleteManifestAction _ _ .repository => true
  | .moveImage _ .sourceRepository => true
  | .retention _ .listRepositories => true
  | .quotaEnforcement _ .findBreaches => true
  | .proxyEvict _ _ .select => true
  | .pruneUntagged _ none => true
  | _ => false

section

variable (localeCompare : String → String → Ordering)

def taskAct (s : Tables) (_ : Nat) (t : Task) (reply : Reply) : Option (Tables × Task) :=
  match t with
  | .client call => (registryAct s call reply).map fun out => (out.1, .client out.2)
  | .deleteTag repositoryId tagName pc =>
    (formAct s repositoryId tagName pc reply).map
      fun out => (out.1, .deleteTag repositoryId tagName out.2)
  | .deleteTagAction a pc =>
    (guardAct s a.repositoryId .repository
      (fun pc => tagAdminAct localeCompare s a pc reply) pc reply).map
      fun out => (out.1, .deleteTagAction a out.2)
  | .deleteManifestAction repositoryId d pc =>
    (guardAct s repositoryId .repository
      (fun pc => manifestAct localeCompare s repositoryId d pc reply) pc reply).map
      fun out => (out.1, .deleteManifestAction repositoryId d out.2)
  | .moveImage f pc =>
    (moveAct localeCompare s f pc reply).map fun out => (out.1, .moveImage f out.2)
  | .retention o pc =>
    (retentionAct localeCompare s o pc reply).map fun out => (out.1, .retention o out.2)
  | .quotaEnforcement dryRun pc =>
    (enforceAct localeCompare s dryRun pc reply).map
      fun out => (out.1, .quotaEnforcement dryRun out.2)
  | .proxyEvict unusedFor dryRun pc =>
    (evictAct s unusedFor dryRun pc reply).map
      fun out => (out.1, .proxyEvict unusedFor dryRun out.2)
  | .pruneUntagged olderThan none =>
    if reply = .failed then some (s, .pruneUntagged olderThan (some 0))
    else
      let cutoff := s.now - olderThan
      some (s.pruneUntagged cutoff,
        .pruneUntagged olderThan (some (s.manifests.filter (s.loose cutoff)).length))
  | .pruneUntagged _ (some _) => none

inductive Surroundings where
  | clock (now : Time)
  /-- A pull of a proxied tag is noted. -/
  | pulled (repositoryId : RepoId) (name : String)
  | createRepository (r : Repository)
  | deleteRepository (id : RepoId)

def Tables.notePull (s : Tables) (repositoryId : RepoId) (name : String) : Tables :=
  { s with tags := s.tags.map fun t =>
      if t.key = (repositoryId, name) then { t with lastPulledAt := some s.now } else t }

def surroundings (s : Tables) : Surroundings → Option Tables
  | .clock now => some { s with now := now }
  | .pulled repositoryId name => some (s.notePull repositoryId name)
  | .createRepository r => s.createRepository r
  | .deleteRepository id => some (s.deleteRepository id)

/-- The constraints of the schema. -/
structure Tables.Valid (s : Tables) : Prop where
  repositoryIds : Table.Keyed Repository.id s.repositories
  repositoryNames : Table.Keyed (fun r : Repository => (r.orgId, r.name)) s.repositories
  organizationIds : Table.Keyed Organization.id s.organizations
  organizationSlugs : Table.Keyed Organization.slug s.organizations
  tagNames : Table.Keyed TagRow.key s.tags
  issued : ∀ r ∈ s.repositories, r.id ∈ s.issued

/-- All of them side by side, from any content the schema allows, under tag rules that do
not change. -/
def removalProgram (rules : List TagRuleRow) : Program Tables Task Reply Surroundings where
  init s := s.Valid ∧ s.tagRules = rules
  fresh := Task.fresh
  act := taskAct localeCompare
  env := surroundings

end

end Chicoree.Images
