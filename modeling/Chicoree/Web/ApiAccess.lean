import Chicoree.Web.Tables

/-! # The docker token service

`access.ts`: who is calling, the restriction of a token (`token-policy-shared.ts`),
and the actions a caller may take on a repository. -/

namespace Chicoree.Web

/-! ## Callers -/

/-- What a token is limited to: one organization, and possibly a list of its
repositories. A list that is there is not empty. -/
structure TokenRestriction where
  organizationId : Id
  repositoryIds : Option (List Id)
  listed : repositoryIds ≠ some []

def restrictionAllows (restriction : Option TokenRestriction) (organizationId : Id)
    (repositoryId : Option Id) : Bool :=
  restriction.all fun rs => decide (rs.organizationId = organizationId) &&
    rs.repositoryIds.all fun ids => repositoryId.any ids.contains

inductive TokenScope where
  | read
  | write
deriving DecidableEq

/-- A user, by session (no scope) or by access token. -/
structure UserCaller where
  userId : Id
  isAdmin : Bool := false
  patScope : Option TokenScope := none
  restriction : Option TokenRestriction := none

/-- A service account or a CI identity. -/
structure ServiceCaller where
  saId : Id
  organizationId : Id
  permission : RepoPermission
  repositoryIds : Option (List Id) := none

inductive Caller where
  | anonymous
  | user (u : UserCaller)
  | sa (s : ServiceCaller)

def hostOf (url : String) : List Char :=
  let chars := url.toList
  let rest := if "https://".toList.isPrefixOf chars then chars.drop 8
    else if "http://".toList.isPrefixOf chars then chars.drop 7 else chars
  let authority := rest.takeWhile fun c => c ≠ '/' && c ≠ '?' && c ≠ '#'
  (authority.reverse.takeWhile (· ≠ '@')).reverse.map Char.toLower

def isDockerHubUrl (url : String) : Bool :=
  ["registry-1.docker.io", "index.docker.io", "docker.io", "registry.hub.docker.com",
    "hub.docker.com"].any fun h => decide (h.toList = (hostOf url).takeWhile (· ≠ ':'))

/-- Docker Hub's library images are stored under their short name. -/
def proxyLocalName (dockerHub : Bool) (requested : String) : String :=
  let chars := requested.toList
  let rest := chars.drop 8
  if dockerHub ∧ "library/".toList.isPrefixOf chars ∧ rest ≠ [] ∧ '/' ∉ rest then
    String.ofList rest
  else requested

def isNested (repoName : String) : Bool := decide ('/' ∈ repoName.toList)

/-! ## Actions -/

variable (t : Tables)

def raisedActions (granted : Option RepoPermission) (baseline : List RegistryAction) :
    List RegistryAction :=
  match granted with
  | some .admin => [.pull, .push, .delete]
  | some .push =>
    if baseline.contains .push then baseline
    else (baseline ++ [RegistryAction.pull, .push]).eraseDups
  | _ => baseline

def memberActions (u : UserCaller) (org : Organization) (repo : Option Repository) :
    List RegistryAction :=
  match t.membership org.id u.userId, repo with
  | none, _ => []
  | some m, none => roleRegistryActions m.role
  | some m, some r =>
    raisedActions (grantedPermission t u.userId r.id) (roleRegistryActions m.role)

def userActions (u : UserCaller) (org : Organization) (repo : Option Repository)
    (visibility : Option Visibility) : List RegistryAction :=
  let allowed : List RegistryAction :=
    if u.isAdmin then [.pull, .push, .delete]
    else
      let raised := memberActions t u org repo
      if raised = [] ∧ visibility = some .public_ then [.pull] else raised
  let inScope := if u.patScope = some .read then allowed.filter (· = .pull) else allowed
  if restrictionAllows u.restriction org.id (repo.map (·.id)) then inScope else []

def permissionActions : RepoPermission → List RegistryAction
  | .admin => [.pull, .push, .delete]
  | .push => [.pull, .push]
  | .pull => [.pull]

def saActions (s : ServiceCaller) (org : Organization) (repo : Option Repository)
    (visibility : Option Visibility) : List RegistryAction :=
  if s.organizationId ≠ org.id then if visibility = some .public_ then [.pull] else []
  else
    match s.repositoryIds, repo with
    | none, _ => permissionActions s.permission
    | some _, none => []
    -- only repositories that exist and are listed
    | some ids, some r => if ids.contains r.id then permissionActions s.permission else []

def callerActions (caller : Caller) (org : Organization) (repo : Option Repository)
    (visibility : Option Visibility) : List RegistryAction :=
  match caller with
  | .anonymous => if visibility = some .public_ then [.pull] else []
  | .user u => userActions t u org repo visibility
  | .sa s => saActions s org repo visibility

/-- The visibility of a repository; one a proxy has not cached yet is as visible as
it will be once created. -/
def visibilityOf (org : Organization) (proxy : Option OrganizationProxy)
    (repo : Option Repository) : Option Visibility :=
  match repo, proxy with
  | some r, _ => some r.visibility
  | none, none => none
  | none, some _ => some (((t.settingsOf org.id).bind (·.defaultVisibility)).getD .private_)

def allowedRepositoryActions (caller : Caller) (orgSlug repoName : String)
    (requested : List RegistryAction) : List RegistryAction :=
  match t.organizationBySlug orgSlug with
  | none => []
  | some org =>
    let proxy := t.proxyOf org.id
    if isNested repoName ∧ proxy = none then []
    else
      let repoName := match proxy with
        | some p => proxyLocalName (isDockerHubUrl p.upstreamUrl) repoName
        | none => repoName
      let repo := t.repositoryByPath org.id repoName
      let allowed := callerActions t caller org repo (visibilityOf t org proxy repo)
      let allowed := if proxy.isSome then allowed.filter (· = .pull) else allowed
      requested.filter fun a => allowed.contains a

end Chicoree.Web

/-! ## What an API caller may see and do

`api/access.ts`: the filters of the listings, the two lookups every handler starts
with, and the checks a handler chooses from. A refusal carries its code and text. -/

namespace Chicoree.Web

inductive ApiErrorCode where
  | badRequest
  | unauthorized
  | forbidden
  | notFound
  | conflict
  | unprocessable
  | internal
deriving DecidableEq

structure ApiError where
  code : ApiErrorCode
  message : String
deriving DecidableEq

def forbidden (message : String) : ApiError := ⟨.forbidden, message⟩

def notFound (message : String) : ApiError := ⟨.notFound, message⟩

def conflict (message : String) : ApiError := ⟨.conflict, message⟩

def unprocessable (message : String) : ApiError := ⟨.unprocessable, message⟩

def internal : ApiError := ⟨.internal, "Something went wrong on the server."⟩

def unauthorized : ApiError := ⟨.unauthorized, "Authentication required."⟩

variable (t : Tables)

inductive Viewer where
  | anonymous
  | user (userId : Id) (isAdmin : Bool)

/-- The viewer behind a caller; service accounts look as visitors. -/
def Caller.viewer : Caller → Viewer
  | .user u => .user u.userId u.isAdmin
  | _ => .anonymous

def isMember (organizationId userId : Id) : Bool :=
  t.members.any fun m => decide (m.organizationId = organizationId ∧ m.userId = userId)

/-- Rows of `repositories` a viewer may see. -/
def visibleRepositoriesFilter (viewer : Viewer) (r : Repository) : Bool :=
  match viewer with
  | .anonymous => decide (r.visibility = .public_)
  | .user userId isAdmin =>
    isAdmin || decide (r.visibility = .public_) || isMember t r.organizationId userId

/-- Rows of `organization` a viewer is a member of. -/
def memberOfOrganizationFilter (viewer : Viewer) (o : Organization) : Bool :=
  match viewer with
  | .anonymous => false
  | .user userId isAdmin => isAdmin || isMember t o.id userId

def withinList (organizationId : Id) (repositoryIds : Option (List Id)) (r : Repository) : Bool :=
  decide (r.organizationId = organizationId) &&
    repositoryIds.all fun ids => ids.isEmpty || ids.contains r.id

/-- Rows of `repositories` the caller may see. -/
def repoFilter (c : Caller) (r : Repository) : Bool :=
  match c with
  | .anonymous => decide (r.visibility = .public_)
  | .sa s => decide (r.visibility = .public_) || withinList s.organizationId s.repositoryIds r
  | .user u =>
    visibleRepositoriesFilter t c.viewer r &&
      u.restriction.all fun rs => withinList rs.organizationId rs.repositoryIds r

/-- Rows of `organization` the caller may see: their own, and those with a
repository they may see. -/
def orgFilter (c : Caller) (o : Organization) : Bool :=
  let hasVisibleRepo := t.repositories.any fun r =>
    decide (r.organizationId = o.id) && repoFilter t c r
  match c with
  | .anonymous => hasVisibleRepo
  | .sa s => decide (o.id = s.organizationId) || hasVisibleRepo
  | .user u =>
    match u.restriction with
    | some rs => decide (o.id = rs.organizationId)
    | none => memberOfOrganizationFilter t c.viewer o || hasVisibleRepo

/-- The caller's role in an organization: admins act as owners; service accounts and
anonymous callers have none. -/
def orgRole (c : Caller) (organizationId : Id) : Option OrgRole :=
  match c with
  | .user u =>
    if u.isAdmin then some .owner
    else (t.membership organizationId u.userId).map (·.role)
  | _ => none

structure OrgAccess where
  org : Organization
  role : Option OrgRole
  /-- The organization is a proxy cache. -/
  proxy : Bool

def loadOrg (c : Caller) (slug : String) : Except ApiError OrgAccess :=
  match t.organizations.find? fun o => decide (o.slug = slug) && orgFilter t c o with
  | none => .error (notFound "No such organization.")
  | some o =>
    match t.organizationById o.id with
    | none => .error (notFound "No such organization.")
    | some org => .ok ⟨org, orgRole t c o.id, (t.proxyOf o.id).isSome⟩

theorem loadOrg_restriction {u : UserCaller} {slug : String} {a : OrgAccess}
    (h : loadOrg t (.user u) slug = .ok a) {rs : TokenRestriction}
    (hrs : u.restriction = some rs) : a.org.id = rs.organizationId := by
  unfold loadOrg at h
  split at h
  · cases h
  · rename_i o ho
    split at h
    · cases h
    · rename_i org horg
      cases h
      have hfilter := List.find?_some ho
      simp only [orgFilter, hrs, Bool.and_eq_true, decide_eq_true_eq] at hfilter
      rw [(Table.find_some horg).2]
      exact hfilter.2

structure Can where
  /-- Change settings, delete the repository. -/
  manage : Bool
  /-- Delete tags and images. -/
  delete : Bool
  /-- Push: retag, copy images in. -/
  write : Bool

structure RepoAccess extends OrgAccess where
  repo : Repository
  can : Can

def userCan (u : UserCaller) (role : Option OrgRole) (org : Organization)
    (repo : Repository) : Can :=
  let inScope := decide (u.patScope ≠ some .read) &&
    restrictionAllows u.restriction org.id (some repo.id)
  let granted := if role.isSome ∧ !u.isAdmin then grantedPermission t u.userId repo.id else none
  let manage := inScope && role.any fun r =>
    managerRoles.contains r || decide (granted = some .admin)
  { manage := manage
    delete := manage
    write := inScope && role.any fun r => writerRoles.contains r ||
      decide (granted = some .push) || decide (granted = some .admin) }

def saCan (s : ServiceCaller) (org : Organization) (repo : Repository) : Can :=
  let listed := s.repositoryIds.all fun ids => ids.contains repo.id
  let own := decide (s.organizationId = org.id) && listed
  { manage := false
    delete := own && decide (s.permission = .admin)
    write := own && decide (s.permission ≠ .pull) }

def callerCan (c : Caller) (role : Option OrgRole) (org : Organization) (repo : Repository) : Can :=
  match c with
  | .anonymous => ⟨false, false, false⟩
  | .user u => userCan t u role org repo
  | .sa s => saCan s org repo

def loadRepo (c : Caller) (orgSlug repoName : String) : Except ApiError RepoAccess :=
  let missing : Except ApiError RepoAccess := .error (notFound "No such repository.")
  let named := t.repositories.find? fun r => decide (r.name = repoName) &&
    t.organizations.any (fun o => decide (o.id = r.organizationId ∧ o.slug = orgSlug)) &&
    repoFilter t c r
  match named.bind fun r => t.repositoryById r.id with
  | none => missing
  | some repo =>
    match t.organizationById repo.organizationId with
    | none => missing
    | some org =>
      let proxy := (t.proxyOf repo.organizationId).isSome
      let role := orgRole t c org.id
      let can := callerCan t c role org repo
      -- proxy caches are filled by their upstream only
      .ok { org, role, proxy, repo, can := { can with write := can.write && !proxy } }

/-! ## Checks -/

/-- Why a write is refused, worded for the credential in use. -/
def denial (c : Caller) (what : String) : ApiError :=
  match c with
  | .anonymous => forbidden ("Sign in or send a token to " ++ what ++ ".")
  | .sa _ => forbidden ("You don't have permission to " ++ what ++ ".")
  | .user u =>
    if u.patScope = some .read then
      forbidden ("This access token is read-only; " ++ what ++ " needs a read & write token.")
    else if u.restriction.isSome then
      forbidden ("This access token is limited to another organization or repository; " ++
        "it cannot " ++ what ++ ".")
    else forbidden ("You don't have permission to " ++ what ++ ".")

/-- A check passes, or refuses. -/
abbrev Check := Except ApiError Unit

def Caller.isSa : Caller → Bool
  | .sa _ => true
  | _ => false

def requireManage (c : Caller) (a : RepoAccess) (what : String) : Check :=
  if c.isSa then
    .error (forbidden ("Service accounts cannot " ++ what ++
      "; only organization owners and admins can."))
  else if !a.can.manage then .error (denial c what)
  else .ok ()

def requireDelete (c : Caller) (a : RepoAccess) (what : String) : Check :=
  if !a.can.delete then
    if c.isSa then
      .error (forbidden ("This service account cannot " ++ what ++
        "; it needs the admin permission in this organization."))
    else .error (denial c what)
  else .ok ()

def requireWrite (c : Caller) (a : RepoAccess) (what : String) : Check :=
  if a.proxy then
    .error (forbidden (a.org.name ++ " is a proxy cache; only its upstream fills it."))
  else if !a.can.write then
    if c.isSa then
      .error (forbidden ("This service account cannot " ++ what ++
        "; it needs the push or admin permission in this organization."))
    else .error (denial c what)
  else .ok ()

def requireOrgManager (c : Caller) (a : OrgAccess) (what : String) : Check :=
  match c with
  | .sa _ => .error (forbidden ("Service accounts cannot " ++ what ++ "."))
  | .anonymous => if a.role.any managerRoles.contains then .ok () else .error (denial c what)
  | .user u =>
    if u.restriction.any fun rs => decide (rs.organizationId ≠ a.org.id) then
      .error (denial c what)
    else if a.role.any managerRoles.contains then .ok ()
    else .error (denial c what)

def requireOrgMember (c : Caller) (a : OrgAccess) (what : String) : Check :=
  if c.isSa then .error (forbidden ("Service accounts cannot " ++ what ++ "."))
  else if a.role.isNone then .error (denial c what)
  else .ok ()

/-- Owner, admin or member with a write token that is not limited to a repository
list. -/
def requireOrgWriter (c : Caller) (a : OrgAccess) (what : String) : Check :=
  let byRole : Check :=
    if a.role.any writerRoles.contains then .ok () else .error (denial c what)
  match c with
  | .sa _ =>
    .error (forbidden ("Service accounts cannot " ++ what ++ "; push to a new name instead."))
  | .anonymous => byRole
  | .user u =>
    if u.patScope = some .read then .error (denial c what)
    else
      match u.restriction with
      | none => byRole
      | some rs =>
        if rs.organizationId ≠ a.org.id ∨ rs.repositoryIds.isSome then
          .error (forbidden ("This access token is limited to " ++
            (if rs.repositoryIds.isSome then "a few repositories" else "another organization") ++
            "; it cannot " ++ what ++ "."))
        else byRole

/-- Instance administrators only; a read-only token passes when `read` is set. -/
def requireInstanceAdmin (c : Caller) (what : String) (read : Bool) : Check :=
  match c with
  | .user u =>
    if !read ∧ u.patScope = some .read then .error (denial c what)
    else if !u.isAdmin then
      .error (forbidden ("Only instance administrators can " ++ what ++ "."))
    else .ok ()
  | _ => .error (forbidden ("Only instance administrators can " ++ what ++ "."))

def requireUser : Caller → Except ApiError UserCaller
  | .anonymous => .error unauthorized
  | .sa _ => .error (forbidden
      "Service accounts cannot use this endpoint; use a personal access token.")
  | .user u => .ok u

def isReadOnlyToken : Caller → Bool
  | .user u => decide (u.patScope = some .read)
  | _ => false

end Chicoree.Web
