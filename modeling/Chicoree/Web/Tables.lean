import Chicoree.Lib.Table

/-! # Roles and permissions

Organization roles (`org-roles.ts`), the permissions on one repository
(`repo-access-shared.ts`), and what the registry lets each role do. -/

namespace Chicoree.Web

/-! ## Roles -/

inductive OrgRole where
  | owner
  | admin
  | member
  | viewer
deriving DecidableEq

inductive RegistryAction where
  | pull
  | push
  | delete
deriving DecidableEq

def roleRegistryActions : OrgRole → List RegistryAction
  | .owner => [.pull, .push, .delete]
  | .admin => [.pull, .push, .delete]
  | .member => [.pull, .push]
  | .viewer => [.pull]

def managerRoles : List OrgRole := [.owner, .admin]

def writerRoles : List OrgRole := [.owner, .admin, .member]

inductive RepoPermission where
  | pull
  | push
  | admin
deriving DecidableEq

def RepoPermission.ofText : String → Option RepoPermission
  | "pull" => some .pull
  | "push" => some .push
  | "admin" => some .admin
  | _ => none

def RepoPermission.rank : RepoPermission → Nat
  | .pull => 1
  | .push => 2
  | .admin => 3

def permissionFromRole : Option OrgRole → Option RepoPermission
  | some .owner => some .admin
  | some .admin => some .admin
  | some .member => some .push
  | some .viewer => some .pull
  | none => none

def maxPermission : Option RepoPermission → Option RepoPermission → Option RepoPermission
  | none, b => b
  | a, none => a
  | some a, some b => if a.rank ≥ b.rank then some a else some b

/-! ## Permissions by rank -/

def rankOf : Option RepoPermission → Nat
  | none => 0
  | some p => p.rank

theorem rankOf_maxPermission (a b : Option RepoPermission) :
    rankOf (maxPermission a b) = max (rankOf a) (rankOf b) := by
  cases a with
  | none => simp [maxPermission, rankOf]
  | some a =>
    cases b with
    | none => simp [maxPermission, rankOf]
    | some b =>
      show rankOf (if a.rank ≥ b.rank then some a else some b) = max a.rank b.rank
      split
      · show a.rank = max a.rank b.rank
        omega
      · show b.rank = max a.rank b.rank
        omega

theorem eq_admin_iff_rank (p : Option RepoPermission) : p = some .admin ↔ 3 ≤ rankOf p := by
  cases p with
  | none => simp [rankOf]
  | some p => cases p <;> simp [rankOf, RepoPermission.rank]

theorem push_or_admin_iff_rank (p : Option RepoPermission) :
    p = some .push ∨ p = some .admin ↔ 2 ≤ rankOf p := by
  cases p with
  | none => simp [rankOf]
  | some p => cases p <;> simp [rankOf, RepoPermission.rank]

theorem rankOf_permissionFromRole_pos (role : Option OrgRole) :
    0 < rankOf (permissionFromRole role) ↔ role.isSome = true := by
  cases role with
  | none => simp [permissionFromRole, rankOf]
  | some r => cases r <;> simp [permissionFromRole, rankOf, RepoPermission.rank]

theorem mem_managerRoles_iff (role : OrgRole) :
    role ∈ managerRoles ↔ 3 ≤ rankOf (permissionFromRole (some role)) := by
  cases role <;> simp [managerRoles, permissionFromRole, rankOf, RepoPermission.rank]

theorem mem_writerRoles_iff (role : OrgRole) :
    role ∈ writerRoles ↔ 2 ≤ rankOf (permissionFromRole (some role)) := by
  cases role <;> simp [writerRoles, permissionFromRole, rankOf, RepoPermission.rank]

def RegistryAction.rank : RegistryAction → Nat
  | .pull => 1
  | .push => 2
  | .delete => 3

theorem mem_roleRegistryActions_iff {role : OrgRole} {a : RegistryAction} :
    a ∈ roleRegistryActions role ↔ a.rank ≤ rankOf (permissionFromRole (some role)) := by
  cases role <;> cases a <;>
    simp [roleRegistryActions, permissionFromRole, rankOf, RepoPermission.rank, RegistryAction.rank]

/-! ## The web app's tables

The rows that decide who may do what, and those the REST API changes. `Database`
carries the uniqueness the schema declares. -/

abbrev Id := String

inductive Visibility where
  | public_
  | private_
deriving DecidableEq

structure Organization where
  id : Id
  slug : String
  name : String := ""
deriving DecidableEq

structure Member where
  id : Id
  organizationId : Id
  userId : Id
  role : OrgRole
deriving DecidableEq

/-- A severity a pull policy blocks at. -/
inductive Level where
  | critical
  | high
  | medium
  | low
deriving DecidableEq

structure Repository where
  id : Id
  organizationId : Id
  name : String
  visibility : Visibility
  description : String := ""
  /-- Nothing inherits; `some none` is off. -/
  blockPullsAt : Option (Option Level) := none
  blockUnrated : Option Bool := none
  requireSignature : Option Bool := none
deriving DecidableEq

structure OrganizationProxy where
  organizationId : Id
  upstreamUrl : String
deriving DecidableEq

structure OrganizationSettings where
  organizationId : Id
  defaultVisibility : Option Visibility := none
  blockPullsAt : Option Level := none
  blockUnrated : Bool := false
  requireSignature : Bool := false
  trustMemberKeys : Bool := true
deriving DecidableEq

inductive SubjectType where
  | user
  | team
deriving DecidableEq

structure RepositoryGrant where
  repositoryId : Id
  subjectType : SubjectType
  subjectId : Id
  permission : String
deriving DecidableEq

structure TeamMember where
  teamId : Id
  userId : Id
deriving DecidableEq

structure User where
  id : Id
  email : String
  name : String := ""

inductive InvitationStatus where
  | pending
  | accepted
  | rejected
  | canceled
deriving DecidableEq

structure Invitation where
  id : Id
  organizationId : Id
  email : String
  role : OrgRole
  status : InvitationStatus
  expiresAt : Nat
  inviterId : Id
deriving DecidableEq

structure Team where
  id : Id
  organizationId : Id
  slug : String
  name : String
  description : String := ""
deriving DecidableEq

/-- No list of repositories means every repository of the organization. -/
structure ServiceAccount where
  id : Id
  organizationId : Id
  name : String
  description : String := ""
  permission : RepoPermission
  tokenHash : String
  repositoryIds : Option (List Id)
  createdBy : Option Id := none
  createdAt : Nat := 0
  expiresAt : Option Nat := none
deriving DecidableEq

/-- A workflow identity trusted to act, like a service account without a secret. -/
structure CiIdentity where
  id : Id
  organizationId : Id
  name : String
  issuer : String
  subject : String
  permission : RepoPermission
  repositoryIds : Option (List Id)
  createdBy : Option Id := none
deriving DecidableEq

inductive WebhookScope where
  | repository (repositoryId : Id)
  | organization (organizationId : Id)
deriving DecidableEq

/-- What the body of a webhook request sets. -/
structure WebhookValues where
  name : String
  url : String
  method : String := "POST"
  format : String := "json"
  headers : List (String × String) := []
  authType : String := "none"
  authHeaderName : Option String := none
  payloadTemplate : Option String := none
  events : List String
  enabled : Bool := true
  authSecret : Option String := none
  signingSecret : Option String := none
deriving DecidableEq

structure Webhook where
  id : Id
  scope : WebhookScope
  values : WebhookValues
  lastStatus : Option Nat := none
deriving DecidableEq

structure Limits where
  maxOrganizations : Option Nat := none
  maxPublicRepos : Option Nat := none
  maxPrivateRepos : Option Nat := none
  maxStorageBytes : Option Nat := none
  maxMembers : Option Nat := none
  label : String := ""
  note : String := ""
deriving DecidableEq

structure OrganizationLimits where
  organizationId : Id
  limits : Limits
deriving DecidableEq

structure UserLimits where
  userId : Id
  limits : Limits
deriving DecidableEq

structure Tag where
  repositoryId : Id
  name : String
  manifestDigest : String
deriving DecidableEq

structure RepositoryStar where
  userId : Id
  repositoryId : Id
deriving DecidableEq

structure RepositoryBlob where
  repositoryId : Id
  blobDigest : String
deriving DecidableEq

structure Tables where
  organizations : List Organization := []
  members : List Member := []
  repositories : List Repository := []
  organizationProxies : List OrganizationProxy := []
  organizationSettings : List OrganizationSettings := []
  repositoryGrants : List RepositoryGrant := []
  teamMembers : List TeamMember := []
  users : List User := []
  invitations : List Invitation := []
  teams : List Team := []
  serviceAccounts : List ServiceAccount := []
  ciIdentities : List CiIdentity := []
  webhooks : List Webhook := []
  organizationLimits : List OrganizationLimits := []
  userLimits : List UserLimits := []
  tags : List Tag := []
  repositoryStars : List RepositoryStar := []
  repositoryBlobs : List RepositoryBlob := []

def Repository.path (r : Repository) : Id × String := (r.organizationId, r.name)

/-- Tables that keep the unique constraints of the schema. -/
structure Database extends Tables where
  organization_ids : Table.Keyed Organization.id organizations
  organization_slugs : Table.Keyed Organization.slug organizations
  repository_ids : Table.Keyed Repository.id repositories
  repository_paths : Table.Keyed Repository.path repositories
  team_ids : Table.Keyed Team.id teams

variable (t : Tables)

def Tables.organizationBySlug (slug : String) : Option Organization :=
  Table.find Organization.slug slug t.organizations

def Tables.organizationById (id : Id) : Option Organization :=
  Table.find Organization.id id t.organizations

def Tables.repositoryByPath (organizationId : Id) (name : String) : Option Repository :=
  Table.find Repository.path (organizationId, name) t.repositories

def Tables.repositoryById (id : Id) : Option Repository :=
  Table.find Repository.id id t.repositories

def Tables.proxyOf (organizationId : Id) : Option OrganizationProxy :=
  Table.find OrganizationProxy.organizationId organizationId t.organizationProxies

def Tables.settingsOf (organizationId : Id) : Option OrganizationSettings :=
  Table.find OrganizationSettings.organizationId organizationId t.organizationSettings

def Tables.membership (organizationId userId : Id) : Option Member :=
  Table.find (fun m : Member => (m.organizationId, m.userId)) (organizationId, userId) t.members

def acme : Organization := { id := "o1", slug := "acme", name := "Acme" }

def publicApp : Repository :=
  { id := "r1", organizationId := "o1", name := "app", visibility := .public_ }

def privateTools : Repository :=
  { id := "r2", organizationId := "o1", name := "tools", visibility := .private_ }

def acmeDatabase : Database where
  organizations := [acme]
  members := [{ id := "m1", organizationId := "o1", userId := "ada", role := .owner }]
  repositories := [publicApp, privateTools]
  organization_ids := by decide
  organization_slugs := by decide
  repository_ids := by decide
  repository_paths := by decide
  team_ids := by decide

end Chicoree.Web

/-! ## Grants

What the grants on a repository give a user, directly or through their teams
(`grantedPermission`), and the permission that results with their role
(`effectivePermission`). -/

namespace Chicoree.Web

variable (t : Tables)

def grantsTo (userId : Id) (g : RepositoryGrant) : Bool :=
  match g.subjectType with
  | .user => decide (g.subjectId = userId)
  | .team => t.teamMembers.any fun m => decide (m.userId = userId ∧ m.teamId = g.subjectId)

def bestPermission (best : Option RepoPermission) (grants : List RepositoryGrant) :
    Option RepoPermission :=
  grants.foldl (fun best g =>
    match RepoPermission.ofText g.permission with
    | some p => maxPermission best (some p)
    | none => best) best

/-- The highest permission the user's own grants and team grants give on the
repository. -/
def grantedPermission (userId repositoryId : Id) : Option RepoPermission :=
  bestPermission none (t.repositoryGrants.filter fun g =>
    decide (g.repositoryId = repositoryId) && grantsTo t userId g)

/-- Role baseline plus grants; grants count only for members of the organization. -/
def effectivePermission (userId : Id) (isAdmin : Bool) (role : Option OrgRole)
    (repositoryId : Id) : Option RepoPermission :=
  if isAdmin then some .admin
  else
    match role with
    | none => permissionFromRole none
    | some r =>
      maxPermission (permissionFromRole (some r)) (grantedPermission t userId repositoryId)

/-! ## More grants, no less permission -/

theorem rankOf_bestPermission_le (best : Option RepoPermission)
    (grants : List RepositoryGrant) : rankOf best ≤ rankOf (bestPermission best grants) := by
  induction grants generalizing best with
  | nil => exact Nat.le_refl _
  | cons g grants ih =>
    simp only [bestPermission, List.foldl_cons]
    split
    · rename_i p _
      have h := ih (maxPermission best (some p))
      rw [rankOf_maxPermission] at h
      exact Nat.le_trans (Nat.le_max_left _ _) h
    · exact ih best

def Tables.addGrant (g : RepositoryGrant) : Tables :=
  { t with repositoryGrants := t.repositoryGrants ++ [g] }

variable {t}

theorem rankOf_grantedPermission_le (g : RepositoryGrant) (userId repositoryId : Id) :
    rankOf (grantedPermission t userId repositoryId) ≤
      rankOf (grantedPermission (t.addGrant g) userId repositoryId) := by
  have happend : grantedPermission (t.addGrant g) userId repositoryId =
      bestPermission (grantedPermission t userId repositoryId)
        ([g].filter fun g => decide (g.repositoryId = repositoryId) && grantsTo t userId g) := by
    unfold grantedPermission bestPermission
    rw [← List.foldl_append, ← List.filter_append]
    rfl
  rw [happend]
  exact rankOf_bestPermission_le _ _

theorem rankOf_effectivePermission {userId repositoryId : Id} {role : OrgRole} :
    rankOf (effectivePermission t userId false (some role) repositoryId) =
      max (rankOf (permissionFromRole (some role)))
        (rankOf (grantedPermission t userId repositoryId)) := by
  rw [← rankOf_maxPermission]
  rfl

end Chicoree.Web
