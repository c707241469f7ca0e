import Chicoree.Lib.Machine
import Chicoree.Web.RepoHandlers

/-! # Memberships, seats and grants side by side

Memberships end in several places, and seats and grants are handed out while they do.
Each handler is the sequence of its statements; what the handlers check in other tables
(permissions, quotas, the proxy configuration) is part of a step's label. -/

namespace Chicoree.Web

/-- How a statement, or a check, turned out. -/
inductive StepReply where
  | ok
  | refused
  | failed
  /-- The statement inserts under a generated identifier. -/
  | fresh (id : Id)
deriving DecidableEq

def RepositoryGrant.key (g : RepositoryGrant) : Id × SubjectType × Id :=
  (g.repositoryId, g.subjectType, g.subjectId)

/-! ## Cleaning up after a membership -/

inductive DropPc where
  | teams
  | seats (teamIds : List Id)
  | repositories
  | grants (repositoryIds : List Id)
  | done
deriving DecidableEq

def dropOrganizationAccess (t : Tables) (organizationId userId : Id) :
    DropPc → StepReply → Option (Tables × DropPc)
  | .done, _ => none
  -- the hook only logs an error
  | _, .failed => some (t, .done)
  | .teams, .ok =>
    let teamIds :=
      (t.teams.filter fun x => decide (x.organizationId = organizationId)).map (·.id)
    some (t, if teamIds.isEmpty then .repositories else .seats teamIds)
  | .seats teamIds, .ok =>
    let seats := t.teamMembers.filter fun x =>
      !(teamIds.contains x.teamId && decide (x.userId = userId))
    some ({ t with teamMembers := seats }, .repositories)
  | .repositories, .ok =>
    let repositoryIds :=
      (t.repositories.filter fun r => decide (r.organizationId = organizationId)).map (·.id)
    some (t, if repositoryIds.isEmpty then .done else .grants repositoryIds)
  | .grants repositoryIds, .ok =>
    let grants := t.repositoryGrants.filter fun g =>
      !(repositoryIds.contains g.repositoryId &&
        decide (g.subjectType = .user ∧ g.subjectId = userId))
    some ({ t with repositoryGrants := grants }, .done)
  | _, _ => none

def Tables.dropMember (t : Tables) (id : Id) : Tables :=
  { t with members := t.members.filter fun m => decide (m.id ≠ id) }

/-- A removal through the app, with its hook. -/
inductive RemovePc where
  | find
  | delete (m : Member)
  | drop (m : Member) (pc : DropPc)
  | done
deriving DecidableEq

structure RemoveRequest where
  organizationId : Id
  memberId : Id

/-- One statement of a removal through the app, `afterRemoveMember` included. -/
def removeMember (t : Tables) (rq : RemoveRequest) :
    RemovePc → StepReply → Option (Tables × RemovePc)
  | .find, .ok =>
    match t.members.find? fun m =>
        decide (m.id = rq.memberId ∧ m.organizationId = rq.organizationId) with
    | some m => some (t, .delete m)
    | none => some (t, .done)
  | .find, .refused => some (t, .done)
  | .delete m, .ok => some (t.dropMember m.id, .drop m .teams)
  | .find, .failed | .delete _, .failed => some (t, .done)
  | .drop m pc, a =>
    (dropOrganizationAccess t m.organizationId m.userId pc a).map fun out =>
      (out.1, if out.2 = .done then .done else .drop m out.2)
  | _, _ => none

/-- `DELETE /orgs/{org}/members/{userId}`. -/
inductive MemberDeletePc where
  | loadOrg
  | target (organizationId : Id)
  | ownerCount (m : Member)
  | delete (m : Member)
  | done (status : Nat)
deriving DecidableEq

structure MemberDeleteRequest where
  org : String
  userId : Id

/-- One statement of the REST handler, which calls no hook. -/
def memberDeleteStep (t : Tables) (rq : MemberDeleteRequest) :
    MemberDeletePc → StepReply → Option (Tables × MemberDeletePc)
  | .done _, _ => none
  | _, .failed => some (t, .done 500)
  | .loadOrg, .ok =>
    match t.organizationBySlug rq.org with
    | some o => some (t, .target o.id)
    | none => some (t, .done 404)
  | .loadOrg, .refused => some (t, .done 403)
  | .target o, .ok =>
    match target t o rq.userId with
    | .error _ => some (t, .done 404)
    | .ok m => some (t, if m.role = .owner then .ownerCount m else .delete m)
  -- `requireOwnerFor`
  | .ownerCount _, .refused => some (t, .done 403)
  | .ownerCount m, .ok =>
    if ownerCount t m.organizationId ≤ 1 then some (t, .done 409) else some (t, .delete m)
  | .delete m, .ok => some (t.dropMember m.id, .done 200)
  | _, _ => none

/-- Where the loop of `syncGroupBindings` stands with its first organization. -/
inductive BindingPc where
  | existing
  | memberQuota
  | insert
  | lastOwner (m : Member)
  | update (m : Member)
  | delete (m : Member)
deriving DecidableEq

/-- The organizations of a sign-in that are still to do, each with the role the groups
give, or with none. -/
abbrev Bindings := List (Id × Option OrgRole)

section identifiers

-- identifiers are generated once: the organization and user a membership's identifier
-- was generated for
variable (generatedFor : Id → Id × Id)

def syncGroupBindings (t : Tables) (userId : Id) :
    Bindings → BindingPc → StepReply → Option (Tables × Bindings × BindingPc)
  | [], _, _ => none
  | _ :: _, _, .failed => some (t, [], .existing)
  | (o, role) :: rest, .existing, .ok =>
    match role, t.membership o userId with
    | some _, none => some (t, (o, role) :: rest, .memberQuota)
    | some r, some m =>
      if m.role = r then some (t, rest, .existing)
      else some (t, (o, role) :: rest, if m.role = .owner then .lastOwner m else .update m)
    | none, some m =>
      some (t, (o, role) :: rest, if m.role = .owner then .lastOwner m else .delete m)
    | none, none => some (t, rest, .existing)
  | todo, .memberQuota, .ok => some (t, todo, .insert)
  -- a full organization takes no new members; the sign-in goes on
  | _ :: rest, .memberQuota, .refused => some (t, rest, .existing)
  | (o, some r) :: rest, .insert, .fresh id =>
    if (t.members.any fun m => decide (m.id = id)) || decide (generatedFor id ≠ (o, userId)) then
      none
    else some ({ t with members := t.members ++ [⟨id, o, userId, r⟩] }, rest, .existing)
  | (o, role) :: rest, .lastOwner m, .ok =>
    if ownerCount t o ≤ 1 then some (t, rest, .existing)
    else some (t, (o, role) :: rest, if role.isSome then .update m else .delete m)
  | (_, some r) :: rest, .update m, .ok =>
    let members := t.members.map fun x => if x.id = m.id then { x with role := r } else x
    some ({ t with members := members }, rest, .existing)
  | _ :: rest, .delete m, .ok => some (t.dropMember m.id, rest, .existing)
  | _, _, _ => none

/-! ## Seats and grants -/

structure SeatRequest where
  organizationId : Id
  teamId : Id
  userId : Id

inductive SeatPc where
  | findTeam
  | membership (team : Team)
  | insert (team : Team)
  | done
deriving DecidableEq

def addTeamMember (t : Tables) (rq : SeatRequest) :
    SeatPc → StepReply → Option (Tables × SeatPc)
  | .findTeam, .ok =>
    match t.teams.find? fun x =>
        decide (x.id = rq.teamId ∧ x.organizationId = rq.organizationId) with
    | some team => some (t, .membership team)
    | none => some (t, .done)
  | .membership team, .ok =>
    match t.membership rq.organizationId rq.userId with
    | some _ => some (t, .insert team)
    | none => some (t, .done)
  | .insert team, .ok =>
    -- the foreign key on the team
    if t.teams.any fun x => decide (x.id = team.id) then
      some ({ t with teamMembers := Table.insertNew id ⟨team.id, rq.userId⟩ t.teamMembers }, .done)
    else some (t, .done)
  | .done, _ => none
  | _, .failed => some (t, .done)
  | _, _ => none

structure GrantRequest where
  org : String
  repo : String
  subjectType : SubjectType
  subjectId : Id
  permission : RepoPermission

inductive GrantPc where
  | getRepo
  | subject (repo : Repository)
  | insert (repo : Repository)
  | done
deriving DecidableEq

def GrantRequest.grant (rq : GrantRequest) (repo : Repository) : RepositoryGrant :=
  ⟨repo.id, rq.subjectType, rq.subjectId, rq.permission.text⟩

/-- One statement of `setRepoGrant` and of the lookup before it. -/
def setRepoGrant (t : Tables) (rq : GrantRequest) :
    GrantPc → StepReply → Option (Tables × GrantPc)
  | .getRepo, .ok =>
    match (t.organizationBySlug rq.org).bind fun o => t.repositoryByPath o.id rq.repo with
    | some r => some (t, .subject r)
    | none => some (t, .done)
  -- the caller may not manage the repository
  | .getRepo, .refused => some (t, .done)
  | .subject r, .ok =>
    match grantSubjectProblem t r.organizationId rq.subjectType rq.subjectId with
    | none => some (t, .insert r)
    | some _ => some (t, .done)
  | .insert r, .ok =>
    if t.repositories.any fun x => decide (x.id = r.id) then
      let grants := Table.upsert RepositoryGrant.key (rq.grant r) t.repositoryGrants
      some ({ t with repositoryGrants := grants }, .done)
    else some (t, .done)
  | .done, _ => none
  | _, .failed => some (t, .done)
  | _, _ => none

structure MoveRequest where
  repositoryId : Id
  targetOrganizationId : Id

inductive MovePc where
  | plan
  | transaction (repo : Repository)
  | done
deriving DecidableEq

/-- The transaction of a transfer: its grants stay with the repository. -/
def Tables.moveRepository (t : Tables) (id organizationId : Id) : Tables :=
  { t with repositories := t.repositories.map fun r =>
      if r.id = id then { r with organizationId := organizationId } else r }

def moveRepositoryToOrganization (t : Tables) (rq : MoveRequest) :
    MovePc → StepReply → Option (Tables × MovePc)
  | .plan, .ok =>
    match t.repositoryById rq.repositoryId with
    | none => some (t, .done)
    | some r =>
      if r.organizationId = rq.targetOrganizationId then some (t, .done)
      else if (t.repositoryByPath rq.targetOrganizationId r.name).isSome then some (t, .done)
      else some (t, .transaction r)
  -- not a manager of both, a proxy cache, a quota
  | .plan, .refused => some (t, .done)
  | .transaction r, .ok =>
    -- the foreign key, and the path that has to stay unique
    if (t.organizationById rq.targetOrganizationId).isNone ||
        (t.repositoryByPath rq.targetOrganizationId r.name).isSome then some (t, .done)
    else some (t.moveRepository r.id rq.targetOrganizationId, .done)
  | .done, _ => none
  | _, .failed => some (t, .done)
  | _, _ => none

/-! ## All of them -/

inductive AccessTask where
  | removeMember (rq : RemoveRequest) (pc : RemovePc)
  | memberDelete (rq : MemberDeleteRequest) (pc : MemberDeletePc)
  | syncGroupBindings (userId : Id) (todo : Bindings) (pc : BindingPc)
  | addTeamMember (rq : SeatRequest) (pc : SeatPc)
  | setRepoGrant (rq : GrantRequest) (pc : GrantPc)
  | moveRepository (rq : MoveRequest) (pc : MovePc)

namespace AccessTask

def fresh : AccessTask → Bool
  | .removeMember _ pc => decide (pc = .find)
  | .memberDelete _ pc => decide (pc = .loadOrg)
  | .syncGroupBindings _ _ pc => decide (pc = .existing)
  | .addTeamMember _ pc => decide (pc = .findTeam)
  | .setRepoGrant _ pc => decide (pc = .getRepo)
  | .moveRepository _ pc => decide (pc = .plan)

def isDone : AccessTask → Bool
  | .removeMember _ pc => decide (pc = .done)
  | .memberDelete _ pc => match pc with
    | .done _ => true
    | _ => false
  | .syncGroupBindings _ todo _ => todo.isEmpty
  | .addTeamMember _ pc => decide (pc = .done)
  | .setRepoGrant _ pc => decide (pc = .done)
  | .moveRepository _ pc => decide (pc = .done)

end AccessTask

def accessAct (t : Tables) (_ : Nat) : AccessTask → StepReply → Option (Tables × AccessTask)
  | .removeMember rq pc, a =>
    (removeMember t rq pc a).map fun out => (out.1, .removeMember rq out.2)
  | .memberDelete rq pc, a =>
    (memberDeleteStep t rq pc a).map fun out => (out.1, .memberDelete rq out.2)
  | .syncGroupBindings u todo pc, a =>
    (syncGroupBindings generatedFor t u todo pc a).map fun out =>
      (out.1, .syncGroupBindings u out.2.1 out.2.2)
  | .addTeamMember rq pc, a =>
    (addTeamMember t rq pc a).map fun out => (out.1, .addTeamMember rq out.2)
  | .setRepoGrant rq pc, a =>
    (setRepoGrant t rq pc a).map fun out => (out.1, .setRepoGrant rq out.2)
  | .moveRepository rq pc, a =>
    (moveRepositoryToOrganization t rq pc a).map fun out => (out.1, .moveRepository rq out.2)

/-- What takes a single statement. -/
inductive AccessEvent where
  /-- An accepted invitation, a new organization's owner. -/
  | join (m : Member)
  | setRole (memberId : Id) (role : OrgRole)
  /-- An administrator's removal, which calls no hook. -/
  | adminRemoveMember (m : Member)
  | createTeam (team : Team)
  | createRepository (repo : Repository)
  | deleteTeam (id : Id)
  | deleteRepository (id : Id)
  | removeTeamMember (seat : TeamMember)
  | removeRepoGrant (repositoryId : Id) (subjectType : SubjectType) (subjectId : Id)

def accessEnv (t : Tables) : AccessEvent → Option Tables
  | .join m =>
    if (t.members.any fun x => decide (x.id = m.id)) ||
        decide (generatedFor m.id ≠ (m.organizationId, m.userId)) then none
    else some { t with members := t.members ++ [m] }
  | .setRole id role =>
    let members := t.members.map fun x => if x.id = id then { x with role := role } else x
    some { t with members := members }
  | .adminRemoveMember m => if m ∈ t.members then some (t.dropMember m.id) else none
  | .createTeam team =>
    if t.teams.any fun x => decide (x.id = team.id) then none
    else some { t with teams := t.teams ++ [team] }
  | .createRepository r =>
    if t.repositories.any fun x => decide (x.id = r.id) then none
    else some { t with repositories := t.repositories ++ [r] }
  | .deleteTeam id =>
    let teams := t.teams.filter fun x => decide (x.id ≠ id)
    let seats := t.teamMembers.filter fun x => decide (x.teamId ≠ id)
    let grants := t.repositoryGrants.filter fun g =>
      decide (¬(g.subjectType = .team ∧ g.subjectId = id))
    some { t with teams := teams, teamMembers := seats, repositoryGrants := grants }
  | .deleteRepository id =>
    let repositories := t.repositories.filter fun r => decide (r.id ≠ id)
    let grants := t.repositoryGrants.filter fun g => decide (g.repositoryId ≠ id)
    some { t with repositories := repositories, repositoryGrants := grants }
  | .removeTeamMember seat =>
    let seats := t.teamMembers.filter fun x => decide (x ≠ seat)
    some { t with teamMembers := seats }
  | .removeRepoGrant r subjectType subjectId =>
    let grants := t.repositoryGrants.filter fun g => !isGrantOf r subjectType subjectId g
    some { t with repositoryGrants := grants }

/-- Every seat and every grant to a user is a current member's. -/
structure AccessOfMembers (t : Tables) : Prop where
  seats : ∀ x ∈ t.teamMembers, ∃ team ∈ t.teams, team.id = x.teamId ∧
    ∃ m ∈ t.members, m.organizationId = team.organizationId ∧ m.userId = x.userId
  grants : ∀ g ∈ t.repositoryGrants, g.subjectType = .user →
    ∃ r ∈ t.repositories, r.id = g.repositoryId ∧
      ∃ m ∈ t.members, m.organizationId = r.organizationId ∧ m.userId = g.subjectId

structure SettledAccess (t : Tables) : Prop where
  ofMembers : AccessOfMembers t
  members : ∀ m ∈ t.members, generatedFor m.id = (m.organizationId, m.userId)
  teams : Table.Keyed Team.id t.teams
  repositories : Table.Keyed Repository.id t.repositories

def accessProgram : Transition.Program Tables AccessTask StepReply AccessEvent where
  init := SettledAccess generatedFor
  fresh := AccessTask.fresh
  act := accessAct generatedFor
  env := accessEnv generatedFor

end identifiers

end Chicoree.Web
