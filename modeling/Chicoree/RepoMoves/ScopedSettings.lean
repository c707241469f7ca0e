import Chicoree.Images.Tables
import Chicoree.Lib.Machine

/-! # Settings of an organization or of one repository

The five tables whose rows belong to an organization and, where a second column says so, to
one of its repositories: tag rules, retention policies, trusted keys, trusted identities and
accepted vulnerabilities. Their readers ask for both columns. The actions that change them
are sequences of statements, as are renames and transfers of a repository, and interleave. -/

namespace Chicoree.RepoMoves

open Registryd (OrgId RepoId Repository)
open Images (RetentionSettings)
open Transition

/-! ## Scoped rows -/

section

variable {β : Type}

/-- A row of an organization or, with a repository, of that repository alone. -/
structure Scoped (β : Type) where
  id : String
  organizationId : OrgId
  repositoryId : Option RepoId
  value : β
deriving DecidableEq

/-- Rows defined at exactly one scope: `listTagRules`, `listTrustedKeys`,
`listTrustedIdentities`. -/
def listScope (rows : List (Scoped β)) (org : OrgId) (repo : Option RepoId) : List (Scoped β) :=
  rows.filter fun r => decide (r.organizationId = org ∧ r.repositoryId = repo)

/-- The rows in force for a repository, its own and its organization's: `effectiveTagRules`,
`effectiveTrustedKeys`, `effectiveTrustedIdentities`, `loadExceptionRules`. -/
def effective (rows : List (Scoped β)) (org : OrgId) (repo : RepoId) : List (Scoped β) :=
  rows.filter fun r =>
    decide (r.organizationId = org) &&
      (r.repositoryId.isNone || decide (r.repositoryId = some repo))

/-- `DELETE … WHERE id = id`, or the other rows. -/
def without (id : String) (rows : List (Scoped β)) : List (Scoped β) :=
  rows.filter fun r => decide (r.id ≠ id)

/-- `UPDATE … SET organization_id = target WHERE repository_id = repo` -/
def reassign (repo : RepoId) (target : OrgId) (rows : List (Scoped β)) : List (Scoped β) :=
  Table.update Scoped.repositoryId (some repo) (fun r => { r with organizationId := target }) rows

end

structure TagRule where
  pattern : String
  immutable : Bool
  isProtected : Bool
deriving DecidableEq

structure TrustedKey where
  name : String
  publicKeyPem : String
  fingerprint : String
  keyType : String
deriving DecidableEq

structure TrustedIdentity where
  name : String
  issuer : String
  subject : String

structure VulnerabilityException where
  vulnerabilityId : String
  package : Option String
  justification : String
  expiresAt : Option Int

structure Settings where
  organizations : List OrgId := []
  repositories : List Repository := []
  tagRules : List (Scoped TagRule) := []
  retentionPolicies : List (Scoped RetentionSettings) := []
  signingKeysTrusted : List (Scoped TrustedKey) := []
  signingIdentitiesTrusted : List (Scoped TrustedIdentity) := []
  vulnerabilityExceptions : List (Scoped VulnerabilityException) := []

namespace Settings

def findRepository (s : Settings) (repo : RepoId) : Option Repository :=
  Table.find Repository.id repo s.repositories

def organizationOf (s : Settings) (repo : RepoId) : Option OrgId :=
  (s.findRepository repo).map (·.orgId)

def nameTaken (s : Settings) (org : OrgId) (name : String) : Bool :=
  s.repositories.any fun r => decide (r.orgId = org ∧ r.name = name)

/-- The repository's own row of `getRetentionPolicies`, which asks for one column only. -/
def ownRetentionPolicy (s : Settings) (repo : RepoId) : Option (Scoped RetentionSettings) :=
  Table.find Scoped.repositoryId (some repo) s.retentionPolicies

def rowIds (s : Settings) : List String :=
  s.tagRules.map (·.id) ++ s.retentionPolicies.map (·.id) ++ s.signingKeysTrusted.map (·.id) ++
    s.signingIdentitiesTrusted.map (·.id) ++ s.vulnerabilityExceptions.map (·.id)

end Settings

/-! ## Saving a setting -/

inductive Setting where
  | tagRule (rule : TagRule)
  /-- A repository that inherits drops its own row. -/
  | retention (inherit : Bool) (policy : RetentionSettings)
  | trustedKey (key : TrustedKey)
  | trustedIdentity (identity : TrustedIdentity)
  | acceptedRisk (e : VulnerabilityException)

structure SaveRequest where
  organizationId : OrgId
  repositoryId : Option RepoId
  setting : Setting

inductive SavePc where
  /-- Read the repository. -/
  | check
  /-- Read the rows of the scope. -/
  | find
  /-- A tag rule with the same pattern gets the flags of both. -/
  | merge (same : Scoped TagRule) (rule : TagRule)
  | replace (id : String) (policy : RetentionSettings)
  | dropOwn (repo : RepoId)
  | insert
  | done

/-- How a statement ends: a role, a quota, a malformed value or the database may refuse; an
insertion generates an identifier. -/
inductive Answer where
  | ok
  | refused
  | fresh (id : String)

def maxRulesPerScope : Nat := 50
def maxTrustedKeysPerScope : Nat := 50
def maxTrustedIdentitiesPerScope : Nat := 50

def checkScope (s : Settings) (rq : SaveRequest) : SavePc :=
  match rq.repositoryId with
  | none => .find
  | some repo => if s.organizationOf repo = some rq.organizationId then .find else .done

def findExisting (s : Settings) (rq : SaveRequest) : SavePc :=
  match rq.setting with
  | .tagRule rule =>
    let existing := listScope s.tagRules rq.organizationId rq.repositoryId
    match existing.find? fun r => decide (r.value.pattern = rule.pattern) with
    | some same => .merge same rule
    | none => if maxRulesPerScope ≤ existing.length then .done else .insert
  | .retention inherit policy =>
    match (if inherit then rq.repositoryId else none) with
    | some repo => .dropOwn repo
    | none =>
      match (listScope s.retentionPolicies rq.organizationId rq.repositoryId).head? with
      | some row => .replace row.id policy
      | none => .insert
  | .trustedKey key =>
    let existing := listScope s.signingKeysTrusted rq.organizationId rq.repositoryId
    if existing.any (fun k => decide (k.value.fingerprint = key.fingerprint)) ||
        existing.any (fun k => decide (k.value.name = key.name)) ||
        decide (maxTrustedKeysPerScope ≤ existing.length) then .done
    else .insert
  | .trustedIdentity identity =>
    let existing := listScope s.signingIdentitiesTrusted rq.organizationId rq.repositoryId
    if decide (maxTrustedIdentitiesPerScope ≤ existing.length) ||
        existing.any (fun e =>
          decide (e.value.issuer = identity.issuer ∧ e.value.subject = identity.subject)) then .done
    else .insert
  | .acceptedRisk _ => .insert

def SaveRequest.row {β : Type} (rq : SaveRequest) (id : String) (value : β) : Scoped β :=
  ⟨id, rq.organizationId, rq.repositoryId, value⟩

def insertSetting (s : Settings) (rq : SaveRequest) (id : String) : Settings :=
  match rq.setting with
  | .tagRule rule => { s with tagRules := s.tagRules ++ [rq.row id rule] }
  | .retention _ policy =>
    if (listScope s.retentionPolicies rq.organizationId rq.repositoryId).isEmpty then
      { s with retentionPolicies := s.retentionPolicies ++ [rq.row id policy] }
    else s
  | .trustedKey key => { s with signingKeysTrusted := s.signingKeysTrusted ++ [rq.row id key] }
  | .trustedIdentity identity =>
    { s with signingIdentitiesTrusted := s.signingIdentitiesTrusted ++ [rq.row id identity] }
  | .acceptedRisk e =>
    { s with vulnerabilityExceptions := s.vulnerabilityExceptions ++ [rq.row id e] }

def mergeRule (s : Settings) (same : Scoped TagRule) (rule : TagRule) : Settings :=
  { s with
    tagRules := Table.update Scoped.id same.id
      (fun r =>
        { r with
          value :=
            { r.value with
              immutable := same.value.immutable || rule.immutable
              isProtected := same.value.isProtected || rule.isProtected } })
      s.tagRules }

/-- The update of a policy sets every column, the scope included, and is refused where
another row has the scope. -/
def replacePolicy (s : Settings) (rq : SaveRequest) (id : String) (policy : RetentionSettings) :
    Settings :=
  if (without id (listScope s.retentionPolicies rq.organizationId rq.repositoryId)).isEmpty then
    { s with
      retentionPolicies :=
        Table.update Scoped.id id (fun _ => rq.row id policy) s.retentionPolicies }
  else s

def dropPolicy (s : Settings) (repo : RepoId) : Settings :=
  { s with
    retentionPolicies := s.retentionPolicies.filter fun r => decide (r.repositoryId ≠ some repo) }

/-- One statement of `addTagRule`, `saveRetentionPolicy`, `addTrustedKeyAction`,
`addTrustedIdentityAction` or `acceptRiskAction`. -/
def saveAct (s : Settings) (rq : SaveRequest) : SavePc → Answer → Option (Settings × SavePc)
  | .done, _ => none
  | _, .refused => some (s, .done)
  | .check, .ok => some (s, checkScope s rq)
  | .find, .ok => some (s, findExisting s rq)
  | .merge same rule, .ok => some (mergeRule s same rule, .done)
  | .replace id policy, .ok => some (replacePolicy s rq id policy, .done)
  | .dropOwn repo, .ok => some (dropPolicy s repo, .done)
  | .insert, .fresh id => if id ∈ s.rowIds then none else some (insertSetting s rq id, .done)
  | _, _ => none

inductive Removal where
  | tagRule (id : String)
  | trustedKey (id : String)
  | trustedIdentity (id : String)
  | acceptedRisk (id : String)
  /-- `expireExceptions`: what expired before this point. -/
  | expire (cutoff : Int)

def VulnerabilityException.expiredBefore (e : VulnerabilityException) (cutoff : Int) : Bool :=
  e.expiresAt.any fun t => decide (t < cutoff)

def removeSetting (s : Settings) : Removal → Settings
  | .tagRule id => { s with tagRules := without id s.tagRules }
  | .trustedKey id => { s with signingKeysTrusted := without id s.signingKeysTrusted }
  | .trustedIdentity id =>
    { s with signingIdentitiesTrusted := without id s.signingIdentitiesTrusted }
  | .acceptedRisk id => { s with vulnerabilityExceptions := without id s.vulnerabilityExceptions }
  | .expire cutoff =>
    { s with
      vulnerabilityExceptions :=
        s.vulnerabilityExceptions.filter fun r => !r.value.expiredBefore cutoff }

/-! ## Renames and transfers -/

structure TransferRequest where
  repositoryId : RepoId
  targetOrganizationId : OrgId

structure RenameRequest where
  repositoryId : RepoId
  name : String

/-- The checks are made first, in statements of their own; the transaction follows. -/
inductive MovePc where
  | plan
  | commit
  | done

/-- `planRepositoryMove`, as far as it reads these tables. -/
def planTransfer (s : Settings) (rq : TransferRequest) : MovePc :=
  match s.findRepository rq.repositoryId with
  | none => .done
  | some repo =>
    if rq.targetOrganizationId ∉ s.organizations ∨ rq.targetOrganizationId = repo.orgId ∨
        s.nameTaken rq.targetOrganizationId repo.name = true then .done
    else .commit

/-- The transaction keeps the unique names of repositories and the unique scopes of
policies. -/
def transferCommits (s : Settings) (rq : TransferRequest) : Bool :=
  match s.findRepository rq.repositoryId with
  | none => false
  | some repo =>
    !(s.repositories.any fun r =>
        decide (r.id ≠ repo.id ∧ r.orgId = rq.targetOrganizationId ∧ r.name = repo.name)) &&
      decide ((s.retentionPolicies.filter
        fun r => decide (r.repositoryId = some rq.repositoryId)).length ≤ 1)

/-- The transaction of `moveRepositoryToOrganization`. -/
def transferRepository (s : Settings) (rq : TransferRequest) : Settings :=
  { s with
    repositories := Table.update Repository.id rq.repositoryId
      (fun r => { r with orgId := rq.targetOrganizationId }) s.repositories
    tagRules := reassign rq.repositoryId rq.targetOrganizationId s.tagRules
    retentionPolicies := reassign rq.repositoryId rq.targetOrganizationId s.retentionPolicies }

def transferAct (s : Settings) (rq : TransferRequest) :
    MovePc → Answer → Option (Settings × MovePc)
  | .plan, .ok => some (s, planTransfer s rq)
  | .commit, .ok => some (if transferCommits s rq then transferRepository s rq else s, .done)
  | .plan, .refused | .commit, .refused => some (s, .done)
  | _, _ => none

def planRename (s : Settings) (rq : RenameRequest) : MovePc :=
  match s.findRepository rq.repositoryId with
  | none => .done
  | some repo =>
    if rq.name = repo.name ∨ s.nameTaken repo.orgId rq.name = true then .done else .commit

def renameCommits (s : Settings) (rq : RenameRequest) : Bool :=
  match s.findRepository rq.repositoryId with
  | none => false
  | some repo =>
    !(s.repositories.any fun r =>
        decide (r.id ≠ repo.id ∧ r.orgId = repo.orgId ∧ r.name = rq.name))

def renameRepository (s : Settings) (rq : RenameRequest) : Settings :=
  { s with
    repositories := Table.update Repository.id rq.repositoryId
      (fun r => { r with name := rq.name }) s.repositories }

def renameAct (s : Settings) (rq : RenameRequest) :
    MovePc → Answer → Option (Settings × MovePc)
  | .plan, .ok => some (s, planRename s rq)
  | .commit, .ok => some (if renameCommits s rq then renameRepository s rq else s, .done)
  | .plan, .refused | .commit, .refused => some (s, .done)
  | _, _ => none

inductive Task where
  | save (rq : SaveRequest) (pc : SavePc)
  | transfer (rq : TransferRequest) (pc : MovePc)
  | rename (rq : RenameRequest) (pc : MovePc)

def Task.fresh : Task → Bool
  | .save _ .check | .transfer _ .plan | .rename _ .plan => true
  | _ => false

def taskAct (s : Settings) (_ : Nat) : Task → Answer → Option (Settings × Task)
  | .save rq pc, a => (saveAct s rq pc a).map fun out => (out.1, .save rq out.2)
  | .transfer rq pc, a => (transferAct s rq pc a).map fun out => (out.1, .transfer rq out.2)
  | .rename rq pc, a => (renameAct s rq pc a).map fun out => (out.1, .rename rq out.2)

def RowsFollow {β : Type} (organizationOf : RepoId → Option OrgId) (rows : List (Scoped β)) :
    Prop :=
  ∀ row ∈ rows, ∀ repo, row.repositoryId = some repo → organizationOf repo = some row.organizationId

/-- The rows of every repository carry its organization, in each of the tables. -/
structure Follows (s : Settings) : Prop where
  tagRules : RowsFollow s.organizationOf s.tagRules
  retentionPolicies : RowsFollow s.organizationOf s.retentionPolicies
  signingKeysTrusted : RowsFollow s.organizationOf s.signingKeysTrusted
  signingIdentitiesTrusted : RowsFollow s.organizationOf s.signingIdentitiesTrusted
  vulnerabilityExceptions : RowsFollow s.organizationOf s.vulnerabilityExceptions

def settingsProgram : Program Settings Task Answer Removal where
  init := Follows
  fresh := Task.fresh
  act := taskAct
  env s removal := some (removeSetting s removal)

end Chicoree.RepoMoves
