import Chicoree.Web.Handlers

/-! # Handlers under /orgs/{org}

Every handler loads the organization first and makes one check; what the check is about
is the text of its refusal. -/

namespace Chicoree.Web

variable (sv : Services) (t : Tables) (c : Caller)

/-! ## Owners and admins: `requireOrgManager` -/

/-- The new account's fields. -/
structure ServiceAccountBody where
  name : String
  description : String := ""
  permission : RepoPermission := .pull
  expiresAt : Option Nat := none
  /-- Names of repositories. -/
  repositories : Option (List String) := none

structure CiIdentityBody where
  name : String
  issuer : String
  subject : String
  permission : RepoPermission := .push
  repositories : Option (List String) := none

structure InvitationBody where
  email : String
  role : OrgRole := .member

/-- The fields of an organization's policies; one that is absent stays. -/
structure OrgPoliciesBody where
  defaultVisibility : Option (Option Visibility) := none
  blockPullsAt : Option (Option Level) := none
  blockUnrated : Option Bool := none
  requireSignature : Option Bool := none
  trustMemberKeys : Option Bool := none

structure TeamBody where
  name : String
  slug : String
  description : String := ""

/-- Requests that need an owner or admin of the organization. -/
inductive ManagedRequest where
  | auditGet
  | usageGet (month : Body Unit)
  | serviceAccountsGet
  | serviceAccountsPost (body : Body ServiceAccountBody) (id : Id) (tokenHash : String)
  | serviceAccountGet (id : Id)
  | serviceAccountDelete (id : Id)
  | serviceAccountRotate (id : Id) (tokenHash : String)
  | ciIdentitiesGet
  | ciIdentitiesPost (body : Body CiIdentityBody) (id : Id)
  | ciIdentityDelete (id : Id)
  | invitationsGet
  | invitationsPost (body : Body InvitationBody) (id : Id)
  | invitationDelete (id : Id)
  | memberPatch (userId : Id) (body : Body (Option OrgRole))
  | memberDelete (userId : Id)
  | policiesPatch (body : Body OrgPoliciesBody)
  | teamsPost (body : Body TeamBody) (id : Id)
  /-- The body is read against the team as it is. -/
  | teamPatch (team : String) (body : Team → Body TeamBody)
  | teamDelete (team : String)
  | teamMemberPut (team : String) (userId : Id)
  | teamMemberDelete (team : String) (userId : Id)
  | webhooks (request : WebhookRequest)
  | orgPatch (body : Body String)
  | orgDelete

/-- What the refusal says is not allowed. -/
def ManagedRequest.what : ManagedRequest → String
  | .auditGet => "read the audit log"
  | .usageGet _ => "read the usage"
  | .serviceAccountsGet => "list service accounts"
  | .serviceAccountsPost .. => "create service accounts"
  | .serviceAccountGet _ => "read service accounts"
  | .serviceAccountDelete _ => "delete service accounts"
  | .serviceAccountRotate .. => "rotate service accounts"
  | .ciIdentitiesGet => "list CI identities"
  | .ciIdentitiesPost .. => "add CI identities"
  | .ciIdentityDelete _ => "remove CI identities"
  | .invitationsGet => "list invitations"
  | .invitationsPost .. => "invite members"
  | .invitationDelete _ => "cancel invitations"
  | .memberPatch .. => "change member roles"
  | .memberDelete _ => "remove members"
  | .policiesPatch _ => "change the policies"
  | .teamsPost .. => "create teams"
  | .teamPatch .. => "change teams"
  | .teamDelete _ => "delete teams"
  | .teamMemberPut .. => "change teams"
  | .teamMemberDelete .. => "change teams"
  | .webhooks _ => "manage webhooks"
  | .orgPatch _ => "rename the organization"
  | .orgDelete => "delete the organization"

def auditGet (a : OrgAccess) : Plan :=
  .ok (.answer (wholeOrganization t a.org.id))

def usageGet (a : OrgAccess) (month : Body Unit) : Plan := do
  month
  .ok (.answer (wholeOrganization t a.org.id))

/-! ### Service accounts -/

/-- The repositories of a list of names; an empty list restricts nothing. -/
def listedRepositories (organizationId : Id) (names : Option (List String)) :
    Except ApiError (Option (List Id)) :=
  match (names.getD []).eraseDups with
  | [] => .ok none
  | names =>
    let rows := t.repositories.filter fun r =>
      decide (r.organizationId = organizationId) && names.contains r.name
    let missing := names.filter fun n => !(rows.any fun r => decide (r.name = n))
    if missing = [] then .ok (some (rows.map (·.id)))
    else .error (unprocessable ("Unknown repositories: " ++ ", ".intercalate missing ++ "."))

def serviceAccountsOf (organizationId : Id) : List ServiceAccount :=
  t.serviceAccounts.filter fun sa => decide (sa.organizationId = organizationId)

def serviceAccountById (organizationId id : Id) : Except ApiError ServiceAccount :=
  found (t.serviceAccounts.find? fun sa =>
    decide (sa.id = id ∧ sa.organizationId = organizationId)) "No such service account."

def serviceAccountNamed (organizationId : Id) (name : String) : Bool :=
  (serviceAccountsOf t organizationId).any fun sa => decide (sa.name = name)

/-- The organization, and the repositories that the accounts are limited to. -/
def serviceAccountRows (a : OrgAccess) (accounts : List ServiceAccount) : List Resource :=
  .organization a.org.id :: namedRepositories t (accounts.map (·.repositoryIds))

def serviceAccountsGet (a : OrgAccess) : Plan :=
  .ok (.answer (serviceAccountRows t a (serviceAccountsOf t a.org.id)))

/-- `POST /service-accounts` -/
def serviceAccountsPost (a : OrgAccess) (body : Body ServiceAccountBody) (id : Id)
    (tokenHash : String) : Plan := do
  let u ← requireUser c
  let b ← body
  let repositoryIds ← listedRepositories t a.org.id b.repositories
  refuseIf (serviceAccountNamed t a.org.id b.name)
    (conflict ("A service account named " ++ b.name ++ " already exists."))
  let sa : ServiceAccount := {
    id := id, organizationId := a.org.id, name := b.name, description := b.description
    permission := b.permission, tokenHash := tokenHash, repositoryIds := repositoryIds
    createdBy := some u.userId, createdAt := sv.now, expiresAt := b.expiresAt }
  .ok { shows := serviceAccountRows t a [sa], writes := [.insert .serviceAccount sa] }

def serviceAccountGet (a : OrgAccess) (id : Id) : Plan := do
  let sa ← serviceAccountById t a.org.id id
  .ok (.answer (serviceAccountRows t a [sa]))

def serviceAccountDelete (a : OrgAccess) (id : Id) : Plan := do
  let sa ← serviceAccountById t a.org.id id
  .ok { shows := [.organization a.org.id], writes := [.delete .serviceAccount sa] }

/-- A new token, and the expiry that comes with it. -/
def serviceAccountRotate (a : OrgAccess) (id : Id) (tokenHash : String) : Plan := do
  let sa ← serviceAccountById t a.org.id id
  let expiresAt ← (sv.replacementExpiry sa).mapError unprocessable
  .ok { shows := serviceAccountRows t a [sa]
        writes := [.update .serviceAccount sa
          { sa with tokenHash := tokenHash, expiresAt := expiresAt }] }

def ciIdentitiesGet (a : OrgAccess) : Plan :=
  let rows := t.ciIdentities.filter fun ci => decide (ci.organizationId = a.org.id)
  .ok (.answer (.organization a.org.id :: namedRepositories t (rows.map (·.repositoryIds))))

/-- `POST /ci-identities` -/
def ciIdentitiesPost (a : OrgAccess) (body : Body CiIdentityBody) (id : Id) : Plan := do
  let b ← body
  let repositoryIds ← listedRepositories t a.org.id b.repositories
  let ci : CiIdentity := {
    id := id, organizationId := a.org.id, name := b.name, issuer := b.issuer
    subject := b.subject, permission := b.permission, repositoryIds := repositoryIds
    createdBy := c.userId }
  .ok { shows := .organization a.org.id :: namedRepositories t [repositoryIds]
        writes := [.insert .ciIdentity ci] }

def ciIdentityDelete (a : OrgAccess) (id : Id) : Plan := do
  let ci ← found (t.ciIdentities.find? fun ci =>
    decide (ci.id = id ∧ ci.organizationId = a.org.id)) "No such CI identity."
  .ok { shows := [.organization a.org.id], writes := [.delete .ciIdentity ci] }

def invitationTtl : Nat := 48 * 3600 * 1000

def invitationsGet (a : OrgAccess) : Plan :=
  .ok (.answer [.organization a.org.id])

def memberByEmail (organizationId : Id) (email : String) : Bool :=
  (t.users.find? fun u => decide (u.email = email)).any fun u =>
    (t.membership organizationId u.id).isSome

def pendingInvitation (organizationId : Id) (email : String) : Option Invitation :=
  t.invitations.find? fun i =>
    decide (i.organizationId = organizationId ∧ i.email = email ∧ i.status = .pending)

/-- `POST /invitations`: an invitation that has run out does not count as pending. -/
def invitationsPost (a : OrgAccess) (body : Body InvitationBody) (id : Id) : Plan := do
  let u ← requireUser c
  let b ← body
  refuseIf (b.role = .owner ∧ a.role ≠ some .owner ∧ u.isAdmin = false)
    (forbidden "Only organization owners can invite owners.")
  refuseWith ((sv.checkMemberQuota t a.org.id).map forbidden)
  refuseIf (memberByEmail t a.org.id b.email) (conflict (b.email ++ " is already a member."))
  refuseWith (((pendingInvitation t a.org.id b.email).filter fun i =>
    decide (sv.now < i.expiresAt)).map fun i =>
      conflict (b.email ++ " already has a pending invitation (" ++ i.id ++ ")."))
  let row : Invitation := {
    id := id, organizationId := a.org.id, email := b.email, role := b.role
    status := .pending, expiresAt := sv.now + invitationTtl, inviterId := u.userId }
  .ok { shows := [.organization a.org.id], writes := [.insert .invitation row] }

/-- Cancelled, not deleted. -/
def invitationDelete (a : OrgAccess) (id : Id) : Plan := do
  let row ← found ((t.invitations.find? fun i =>
    decide (i.id = id ∧ i.organizationId = a.org.id)).filter fun i =>
      decide (i.status = .pending)) "No such pending invitation."
  .ok { shows := [.organization a.org.id]
        writes := [.update .invitation row { row with status := .canceled }] }

/-- Only owners (and instance administrators) hand out or take away the owner role. -/
def requireOwnerFor (a : OrgAccess) (what : String) : Check :=
  refuseIf (a.role ≠ some .owner ∧ c.isAdmin = false)
    (forbidden ("Only organization owners can " ++ what ++ "."))

variable {a : OrgAccess} {what : String} {x : Unit}

@[simp] theorem requireOwnerFor_eq_ok :
    requireOwnerFor c a what = .ok x ↔ a.role = some .owner ∨ c.isAdmin = true := by
  rw [requireOwnerFor, refuseIf_eq_ok, not_and, or_iff_not_imp_left]
  simp

/-- How many owners are left. -/
def ownerCount (organizationId : Id) : Nat :=
  t.members.countP fun m => decide (m.organizationId = organizationId ∧ m.role = .owner)

/-- The member whose role is changed, with an account. -/
def target (organizationId userId : Id) : Except ApiError Member :=
  found (t.members.find? fun m =>
    decide (m.organizationId = organizationId ∧ m.userId = userId) && t.users.any fun u => decide (u.id = m.userId)) "No such member."

variable {organizationId : Id}

theorem target_where {t : Tables} {userId : Id} {m : Member}
    (h : target t organizationId userId = .ok m) : m.organizationId = organizationId := by
  have hp := (found_where h).2
  simp only [Bool.and_eq_true, decide_eq_true_eq] at hp
  exact hp.1.1

def lastOwner : ApiError :=
  conflict "The organization needs at least one owner; make someone else an owner first."

/-- `PATCH /members/{userId}` -/
def memberPatch (a : OrgAccess) (userId : Id) (body : Body (Option OrgRole)) : Plan := do
  let m ← target t a.org.id userId
  let role ← body
  let role ← given role
    (conflict "\"role\" is required: one of owner, admin, member, viewer.")
  checkIf (role = .owner ∨ m.role = .owner) (requireOwnerFor c a "change who owns the organization")
  refuseIf (m.role = .owner ∧ role ≠ .owner ∧ ownerCount t a.org.id ≤ 1) lastOwner
  .ok { shows := [.organization a.org.id]
        writes := if m.role ≠ role then [.update .member m { m with role := role }] else [] }

/-- `DELETE /members/{userId}` -/
def memberDelete (a : OrgAccess) (userId : Id) : Plan := do
  let m ← target t a.org.id userId
  checkIf (m.role = .owner) (requireOwnerFor c a "remove an owner")
  refuseIf (m.role = .owner ∧ ownerCount t a.org.id ≤ 1) lastOwner
  .ok { shows := [.organization a.org.id], writes := [.delete .member m] }

def OrgPoliciesBody.isEmpty (b : OrgPoliciesBody) : Bool :=
  b.defaultVisibility.isNone && b.blockPullsAt.isNone && b.blockUnrated.isNone &&
    b.requireSignature.isNone && b.trustMemberKeys.isNone

/-- The settings with the fields that are sent. -/
def OrgPoliciesBody.set (b : OrgPoliciesBody) (s : OrganizationSettings) : OrganizationSettings :=
  { s with
    defaultVisibility := b.defaultVisibility.getD s.defaultVisibility
    blockPullsAt := b.blockPullsAt.getD s.blockPullsAt
    blockUnrated := b.blockUnrated.getD s.blockUnrated
    requireSignature := b.requireSignature.getD s.requireSignature
    trustMemberKeys := b.trustMemberKeys.getD s.trustMemberKeys }

/-- `PATCH /policies`: the row is written whether or not there is one. -/
def policiesPatch (a : OrgAccess) (body : Body OrgPoliciesBody) : Plan := do
  let b ← body
  refuseIf b.isEmpty (unprocessable ("Send at least one of defaultVisibility, " ++
    "blockPullsAt, blockUnrated, requireSignature, trustMemberKeys."))
  let stored := (t.settingsOf a.org.id).getD { organizationId := a.org.id }
  .ok { shows := [.organization a.org.id]
        writes := [t.upsertWrite .organizationSettings
          (fun s => decide (s.organizationId = a.org.id)) (b.set stored)] }

/-- A team by its id or slug. -/
def findTeam (organizationId : Id) (idOrSlug : String) : Except ApiError Team :=
  found (t.teams.find? fun x => decide (x.organizationId = organizationId) &&
    (decide (x.id = idOrSlug) || decide (x.slug = idOrSlug))) "No such team."

theorem findTeam_where {t : Tables} {idOrSlug : String} {team : Team}
    (h : findTeam t organizationId idOrSlug = .ok team) :
    team ∈ t.teams ∧ team.organizationId = organizationId := by
  obtain ⟨hmem, hp⟩ := found_where h
  simp only [Bool.and_eq_true, decide_eq_true_eq] at hp
  exact ⟨hmem, hp.1⟩

def teamSlugTaken (organizationId : Id) (slug : String) : Bool :=
  t.teams.any fun x => decide (x.organizationId = organizationId ∧ x.slug = slug)

def slugTaken (slug : String) : ApiError :=
  unprocessable ("A team with the slug " ++ slug ++ " already exists.")

def teamsPost (a : OrgAccess) (body : Body TeamBody) (id : Id) : Plan := do
  let b ← body
  refuseIf (teamSlugTaken t a.org.id b.slug) (slugTaken b.slug)
  let team : Team := {
    id := id, organizationId := a.org.id, slug := b.slug, name := b.name
    description := b.description }
  .ok { shows := [.organization a.org.id], writes := [.insert .team team] }

def teamPatch (a : OrgAccess) (idOrSlug : String) (body : Team → Body TeamBody) : Plan := do
  let team ← findTeam t a.org.id idOrSlug
  let b ← body team
  refuseIf (b.slug ≠ team.slug ∧ teamSlugTaken t a.org.id b.slug = true) (slugTaken b.slug)
  .ok { shows := [.organization a.org.id]
        writes := [.update .team team
          { team with name := b.name, slug := b.slug, description := b.description }] }

/-- A team goes with its grants and its seats. -/
def teamDelete (a : OrgAccess) (idOrSlug : String) : Plan := do
  let team ← findTeam t a.org.id idOrSlug
  let grants := t.deleteWhere .repositoryGrant fun g =>
    decide (g.subjectType = .team ∧ g.subjectId = team.id)
  let seats := t.deleteWhere .teamMember fun s => decide (s.teamId = team.id)
  .ok { shows := [.organization a.org.id], writes := grants ++ seats ++ [.delete .team team] }

/-- A seat that is there already stays. -/
def teamMemberPut (a : OrgAccess) (idOrSlug : String) (userId : Id) : Plan := do
  let team ← findTeam t a.org.id idOrSlug
  refuseIf (t.membership a.org.id userId).isNone
    (unprocessable "Only members of the organization can be added to its teams.")
  let seat : TeamMember := { teamId := team.id, userId := userId }
  .ok { shows := [.organization a.org.id]
        writes := if seat ∈ t.teamMembers then [] else [.insert .teamMember seat] }

def teamMemberDelete (a : OrgAccess) (idOrSlug : String) (userId : Id) : Plan := do
  let team ← findTeam t a.org.id idOrSlug
  let seat : TeamMember := { teamId := team.id, userId := userId }
  refuseIf (seat ∉ t.teamMembers) (notFound "Not a member of this team.")
  .ok { shows := [.organization a.org.id], writes := [.delete .teamMember seat] }

def requireOwner (a : OrgAccess) (what : String) : Check :=
  refuseIf (a.role ≠ some .owner ∧ c.isAdmin = false)
    (forbidden ("Only organization owners can " ++ what ++ "."))

@[simp] theorem requireOwner_eq_ok :
    requireOwner c a what = .ok x ↔ a.role = some .owner ∨ c.isAdmin = true :=
  requireOwnerFor_eq_ok c

def librarySlug : String := "library"

def orgPatch (a : OrgAccess) (body : Body String) : Plan := do
  requireOwner c a "rename the organization"
  let name ← body
  .ok { shows := orgDetail t a
        writes := [.update .organization a.org { a.org with name := name }] }

/-- What goes with a repository. -/
def repositoryRows (r : Repository) : List Write :=
  t.deleteWhere .tag (fun x => decide (x.repositoryId = r.id)) ++
    t.deleteWhere .repositoryGrant (fun x => decide (x.repositoryId = r.id)) ++
    t.deleteWhere .repositoryStar (fun x => decide (x.repositoryId = r.id)) ++
    t.deleteWhere .repositoryBlob (fun x => decide (x.repositoryId = r.id)) ++
    t.deleteWhere .webhook (fun x => decide (x.scope = .repository r.id)) ++
    [.delete .repository r]

/-- What goes with an organization. -/
def organizationRows (o : Organization) : List Write :=
  (organizationRepositories t o.id).flatMap (repositoryRows t) ++
    (t.teams.filter fun x => decide (x.organizationId = o.id)).flatMap (fun team =>
      t.deleteWhere .teamMember fun s => decide (s.teamId = team.id)) ++
    t.deleteWhere .team (fun x => decide (x.organizationId = o.id)) ++
    t.deleteWhere .member (fun x => decide (x.organizationId = o.id)) ++
    t.deleteWhere .invitation (fun x => decide (x.organizationId = o.id)) ++
    t.deleteWhere .serviceAccount (fun x => decide (x.organizationId = o.id)) ++
    t.deleteWhere .ciIdentity (fun x => decide (x.organizationId = o.id)) ++
    t.deleteWhere .webhook (fun x => decide (x.scope = .organization o.id)) ++
    t.deleteWhere .organizationSettings (fun x => decide (x.organizationId = o.id)) ++
    t.deleteWhere .organizationProxy (fun x => decide (x.organizationId = o.id)) ++
    t.deleteWhere .organizationLimits (fun x => decide (x.organizationId = o.id)) ++
    [.delete .organization o]

/-- `DELETE /orgs/{org}` -/
def orgDelete (a : OrgAccess) : Plan := do
  requireOwner c a "delete the organization"
  refuseIf (a.org.slug = librarySlug) (forbidden "The library organization cannot be deleted.")
  .ok { shows := [.organization a.org.id], writes := organizationRows t a.org }

def orgWebhookContext (a : OrgAccess) : WebhookContext where
  scope := .organization a.org.id
  resource := .organization a.org.id
  subjects := (organizationRepositories t a.org.id).map Repository.resource

def ManagedRequest.plan (a : OrgAccess) : ManagedRequest → Plan
  | .auditGet => Web.auditGet t a
  | .usageGet month => Web.usageGet t a month
  | .serviceAccountsGet => Web.serviceAccountsGet t a
  | .serviceAccountsPost body id tokenHash => Web.serviceAccountsPost sv t c a body id tokenHash
  | .serviceAccountGet id => Web.serviceAccountGet t a id
  | .serviceAccountDelete id => Web.serviceAccountDelete t a id
  | .serviceAccountRotate id tokenHash => Web.serviceAccountRotate sv t a id tokenHash
  | .ciIdentitiesGet => Web.ciIdentitiesGet t a
  | .ciIdentitiesPost body id => Web.ciIdentitiesPost t c a body id
  | .ciIdentityDelete id => Web.ciIdentityDelete t a id
  | .invitationsGet => Web.invitationsGet a
  | .invitationsPost body id => Web.invitationsPost sv t c a body id
  | .invitationDelete id => Web.invitationDelete t a id
  | .memberPatch userId body => Web.memberPatch t c a userId body
  | .memberDelete userId => Web.memberDelete t c a userId
  | .policiesPatch body => Web.policiesPatch t a body
  | .teamsPost body id => Web.teamsPost t a body id
  | .teamPatch team body => Web.teamPatch t a team body
  | .teamDelete team => Web.teamDelete t a team
  | .teamMemberPut team userId => Web.teamMemberPut t a team userId
  | .teamMemberDelete team userId => Web.teamMemberDelete t a team userId
  | .webhooks request => webhookHandlers sv t (orgWebhookContext t a) request
  | .orgPatch body => Web.orgPatch t c a body
  | .orgDelete => Web.orgDelete t c a

/-- A handler behind `requireOrgManager`. -/
def managed (org : String) (request : ManagedRequest) : Plan := do
  let a ← loadOrg t c org
  requireOrgManager c a request.what
  request.plan sv t c a

/-! ## Members, and everybody who sees the organization -/

structure RepositoryBody where
  name : String
  description : String := ""
  visibility : Option Visibility := none
  /-- Why the name will not do, in a proxy cache or elsewhere. -/
  problem : Bool → Option String

inductive OrgRequest where
  | orgGet
  | reposGet
  | membersGet
  | teamsGet
  | teamGet (team : String)
  | teamMembersGet (team : String)
  | policiesGet
  | reposPost (body : Body RepositoryBody) (id : Id)

def OrgRequest.check (a : OrgAccess) : OrgRequest → Check
  | .orgGet | .reposGet => .ok ()
  | .membersGet => requireOrgMember c a "list the members"
  | .teamsGet => requireOrgMember c a "list the teams"
  | .teamGet _ | .teamMembersGet _ => requireOrgMember c a "see the teams"
  | .policiesGet => requireOrgMember c a "read the policies"
  | .reposPost .. => requireOrgWriter c a "create repositories here"

def orgGet (a : OrgAccess) : Plan :=
  .ok (.answer (orgDetail t a))

def reposGet (a : OrgAccess) : Plan :=
  let rows := (organizationRepositories t a.org.id).filter (repoFilter t c)
  .ok (.answer (.organization a.org.id :: rows.map Repository.resource))

def membersGet (a : OrgAccess) : Plan :=
  .ok (.answer [.organization a.org.id])

def teamsGet (a : OrgAccess) : Plan :=
  .ok (.answer [.organization a.org.id])

def teamGet (a : OrgAccess) (team : String) : Plan := do
  let _ ← findTeam t a.org.id team
  .ok (.answer [.organization a.org.id])

def teamMembersGet (a : OrgAccess) (team : String) : Plan :=
  teamGet t a team

def policiesGet (a : OrgAccess) : Plan :=
  .ok (.answer [.organization a.org.id])

def reposPost (a : OrgAccess) (body : Body RepositoryBody) (id : Id) : Plan := do
  match c with
  | .user u =>
    let b ← body
    let visibility := b.visibility.getD (defaultVisibility sv t a.org.id (some u.userId))
    refuseWith ((b.problem a.proxy).map unprocessable)
    refuseIf (t.repositoryByPath a.org.id b.name).isSome
      (conflict ("A repository named " ++ b.name ++ " already exists."))
    refuseWith ((sv.checkRepoQuota t a.org.id visibility).map unprocessable)
    -- the primary key
    refuseIf (t.repositoryById id).isSome internal
    let r : Repository := {
      id := id, organizationId := a.org.id, name := b.name, visibility := visibility
      description := b.description }
    .ok { shows := [r.resource], writes := [.insert .repository r] }
  | _ => .error (unprocessable "Only users can create repositories.")

def OrgRequest.plan (a : OrgAccess) : OrgRequest → Plan
  | .orgGet => Web.orgGet t a
  | .reposGet => Web.reposGet t c a
  | .membersGet => Web.membersGet a
  | .teamsGet => Web.teamsGet a
  | .teamGet team => Web.teamGet t a team
  | .teamMembersGet team => Web.teamMembersGet t a team
  | .policiesGet => Web.policiesGet a
  | .reposPost body id => Web.reposPost sv t c a body id

def orgRoute (org : String) (request : OrgRequest) : Plan := do
  let a ← loadOrg t c org
  request.check c a
  request.plan sv t c a

inductive OrgLimitsRequest where
  | get
  /-- The body is read against the stored limits. -/
  | patch (body : Limits → Body Limits)
  | delete

def OrgLimitsRequest.check : OrgLimitsRequest → Check
  | .get => requireInstanceAdmin c "read limits" true
  | .patch _ => requireInstanceAdmin c "change limits" false
  | .delete => requireInstanceAdmin c "remove limits" false

def getOrgLimitsRow (organizationId : Id) : Option OrganizationLimits :=
  t.organizationLimits.find? fun l => decide (l.organizationId = organizationId)

def orgLimitsPatch (a : OrgAccess) (body : Limits → Body Limits) : Plan := do
  let next ← body (((getOrgLimitsRow t a.org.id).map (·.limits)).getD {})
  let row : OrganizationLimits := { organizationId := a.org.id, limits := next }
  .ok { shows := [.organization a.org.id]
        writes := [t.upsertWrite .organizationLimits
          (fun l => decide (l.organizationId = a.org.id)) row] }

def OrgLimitsRequest.plan (a : OrgAccess) : OrgLimitsRequest → Plan
  | .get => .ok (.answer [.organization a.org.id])
  | .patch body => orgLimitsPatch t a body
  | .delete =>
    .ok { shows := [.organization a.org.id]
          writes := t.deleteWhere .organizationLimits fun l =>
            decide (l.organizationId = a.org.id) }

def orgLimits (org : String) (request : OrgLimitsRequest) : Plan := do
  request.check c
  let a ← loadOrg t c org
  request.plan t a

end Chicoree.Web
