import Chicoree.Web.OrgHandlers

/-! # Handlers under /repos/{org}/{repo}

Every handler loads the repository; most make one check right after. Copies make
theirs late, stars and scans make theirs first. -/

namespace Chicoree.Web

variable (sv : Services) (t : Tables) (c : Caller)

/-! ## Reading -/

/-- What can be read of a repository without more than seeing it. -/
inductive RepoDocument where
  | repository
  | policies
  | tags
  | tag (name : String)
  | chart (name : String)
  | untagged
  | sizeHistory
  | manifest (digest : Body String)
  | vulnerabilities (digest : Body String)
  | artifacts (digest : Body String)
  | packages (digest : Body String)
  | scan (digest : Body String)

def tagRow (repositoryId : Id) (name : String) : Option Tag :=
  t.tags.find? fun x => decide (x.repositoryId = repositoryId ∧ x.name = name)

def imageDocument (a : RepoAccess) (digest : Body String) : Plan := do
  let digest ← digest
  sv.document a.repo digest
  .ok (.answer [a.repo.resource])

def tagDocument (a : RepoAccess) (name : String) : Plan := do
  let row ← found (tagRow t a.repo.id name) "No such tag."
  sv.document a.repo row.manifestDigest
  .ok (.answer [a.repo.resource])

def repoGet (a : RepoAccess) : RepoDocument → Plan
  | .repository => .ok (.answer (repoDetail t a.repo))
  | .policies => .ok (.answer [a.repo.resource, .organization a.org.id])
  | .tags | .untagged | .sizeHistory => .ok (.answer [a.repo.resource])
  | .tag name => tagDocument sv t a name
  | .chart name => tagDocument sv t a name
  | .manifest digest => imageDocument sv a digest
  | .vulnerabilities digest => imageDocument sv a digest
  | .artifacts digest => imageDocument sv a digest
  | .packages digest => imageDocument sv a digest
  | .scan digest => imageDocument sv a digest

structure RepoBody where
  description : Option String := none
  visibility : Option Visibility := none

def repoPatch (a : RepoAccess) (body : Body RepoBody) : Plan := do
  let b ← body
  refuseIf (b.description.isNone ∧ b.visibility.isNone)
    (unprocessable "Send \"description\" and/or \"visibility\".")
  let next := b.visibility.getD a.repo.visibility
  checkIf (next ≠ a.repo.visibility)
    (refuseWith ((sv.checkRepoQuota t a.org.id next).map unprocessable))
  let r : Repository := { a.repo with
    description := b.description.getD a.repo.description, visibility := next }
  .ok { shows := repoDetail t r, writes := [.update .repository a.repo r] }

def repoDelete (a : RepoAccess) : Plan :=
  .ok { shows := [a.repo.resource], writes := repositoryRows t a.repo }

/-- The overrides of a repository; one that is absent stays. -/
structure RepoPoliciesBody where
  blockPullsAt : Option (Option (Option Level)) := none
  blockUnrated : Option (Option Bool) := none
  requireSignature : Option (Option Bool) := none

def repoPoliciesPatch (a : RepoAccess) (body : Body RepoPoliciesBody) : Plan := do
  let b ← body
  refuseIf (b.blockPullsAt.isNone ∧ b.blockUnrated.isNone ∧ b.requireSignature.isNone)
    (unprocessable "Send at least one of blockPullsAt, blockUnrated, requireSignature.")
  let r : Repository := { a.repo with
    blockPullsAt := b.blockPullsAt.getD a.repo.blockPullsAt
    blockUnrated := b.blockUnrated.getD a.repo.blockUnrated
    requireSignature := b.requireSignature.getD a.repo.requireSignature }
  .ok { shows := [r.resource, .organization a.org.id]
        writes := [.update .repository a.repo r] }

def accessGet (a : RepoAccess) : Plan :=
  .ok (.answer [a.repo.resource])

def subject (subjectType : Option SubjectType) : Except ApiError SubjectType :=
  found subjectType "The subject is /access/user/\x7buserId\x7d or /access/team/\x7bteamId\x7d."

def RepoPermission.text : RepoPermission → String
  | .pull => "pull"
  | .push => "push"
  | .admin => "admin"

def grantSubjectProblem (organizationId : Id) (subjectType : SubjectType) (subjectId : Id) :
    Option String :=
  match subjectType with
  | .user =>
    if (t.membership organizationId subjectId).isNone then
      some "Only members of the organization can be granted access."
    else none
  | .team =>
    if t.teams.any fun x => decide (x.id = subjectId ∧ x.organizationId = organizationId) then
      none
    else some "No such team in this organization."

def isGrantOf (repositoryId : Id) (subjectType : SubjectType) (subjectId : Id)
    (g : RepositoryGrant) : Bool :=
  decide (g.repositoryId = repositoryId ∧ g.subjectType = subjectType ∧ g.subjectId = subjectId)

def accessPut (a : RepoAccess) (subjectType : Option SubjectType) (subjectId : Id)
    (body : Body RepoPermission) : Plan := do
  let permission ← body
  let subjectType ← subject subjectType
  refuseWith ((grantSubjectProblem t a.org.id subjectType subjectId).map unprocessable)
  let g : RepositoryGrant := {
    repositoryId := a.repo.id, subjectType := subjectType, subjectId := subjectId
    permission := permission.text }
  .ok { shows := [a.repo.resource]
        writes := [t.upsertWrite .repositoryGrant
          (isGrantOf a.repo.id subjectType subjectId) g] }

def accessDelete (a : RepoAccess) (subjectType : Option SubjectType) (subjectId : Id) :
    Plan := do
  let subjectType ← subject subjectType
  let removed := t.deleteWhere .repositoryGrant (isGrantOf a.repo.id subjectType subjectId)
  refuseIf removed.isEmpty (notFound "No such grant.")
  .ok { shows := [a.repo.resource], writes := removed }

def repoWebhookContext (a : RepoAccess) : WebhookContext where
  scope := .repository a.repo.id
  resource := a.repo.resource
  subjects := [a.repo.resource]

def manifestDelete (a : RepoAccess) (digest : Body String) : Plan := do
  let digest ← digest
  sv.deleteManifest a.repo digest
  .ok { shows := [a.repo.resource]
        writes := t.deleteWhere .tag fun x =>
          decide (x.repositoryId = a.repo.id ∧ x.manifestDigest = digest) }

def setTag (repositoryId : Id) (name digest : String) : Write :=
  t.upsertWrite .tag (fun x => decide (x.repositoryId = repositoryId ∧ x.name = name))
    { repositoryId := repositoryId, name := name, manifestDigest := digest }

def tagPut (a : RepoAccess) (name : String) (body : Body String) : Plan := do
  let digest ← body
  sv.retag a.repo name digest
  let same := (tagRow t a.repo.id name).any fun x => decide (x.manifestDigest = digest)
  .ok { shows := [a.repo.resource]
        writes := if same then [] else [setTag t a.repo.id name digest] }

/-- The registry may refuse to move `latest` when the tag is gone already. -/
def tagDelete (a : RepoAccess) (name : String) (moveLatest : Bool) : Plan := do
  let outcome ← sv.deleteTag a.repo name moveLatest
  let removed (n : String) := t.deleteWhere .tag fun x =>
    decide (x.repositoryId = a.repo.id ∧ x.name = n)
  match outcome with
  | .error e => .ok { writes := removed name, refused := some e }
  | .ok .unchanged => .ok { shows := [a.repo.resource], writes := removed name }
  | .ok .removed =>
    .ok { shows := [a.repo.resource], writes := removed name ++ removed "latest" }
  | .ok (.moved digest) =>
    .ok { shows := [a.repo.resource]
          writes := removed name ++ [setTag t a.repo.id "latest" digest] }

structure CopyBody where
  /-- The source's organization when absent. -/
  organization : Option String := none
  repository : String
  tag : Option String := none
  includeArtifacts : Bool := true
  /-- Why the name or the tag will not do. -/
  nameProblem : Option String := none
  tagProblem : String → Option String := fun _ => none

/-- The repository copied into: an existing one the caller may push to, or a new one. -/
def copyDestination (dest : OrgAccess) (name : String) : Except ApiError (Option RepoAccess) :=
  match t.repositoryByPath dest.org.id name with
  | some r => do
    let access ← loadRepo t c dest.org.slug r.name
    requireWrite c access ("push to " ++ dest.org.slug ++ "/" ++ r.name)
    return some access
  | none => do
    requireOrgWriter c dest ("create repositories in " ++ dest.org.slug)
    return none

def copiedTags (repositoryId : Id) (outcome : List (String × String) × Option String) :
    List Write :=
  outcome.1.map fun x => setTag t repositoryId x.1 x.2

def copyImage (source : RepoAccess) (digest : String) (sourceTag : Option String)
    (b : CopyBody) (id : Id) : Plan := do
  requireWrite c source "copy images from here"
  match b.tag.or sourceTag with
  | none | some "" =>
    .error (unprocessable "\"tag\" is required when the source is addressed by digest.")
  | some tag =>
    refuseWith ((b.tagProblem tag).map unprocessable)
    let dest ← loadOrg t c (b.organization.getD source.org.slug)
    refuseIf dest.proxy
      (unprocessable (dest.org.name ++ " is a proxy cache; only its upstream fills it."))
    refuseWith (b.nameProblem.map fun p => unprocessable ("Destination repository: " ++ p))
    let existing ← copyDestination t c dest b.repository
    match existing with
    | some access =>
      refuseIf (access.repo.id = source.repo.id ∧ sourceTag = some tag) (conflict
        "The destination is the image's current place; pick another repository or tag.")
      refuseWith ((sv.immutableTag access.repo tag digest).map conflict)
      refuseWith ((sv.planImageCopy source.repo digest b.includeArtifacts).map notFound)
      refuseWith ((sv.checkStorageQuota t dest.org.id digest).map fun p =>
        unprocessable (dest.org.name ++ ": " ++ p))
      let outcome := sv.executeImageCopy source.repo access.repo digest tag
      .ok { shows := [source.repo.resource, access.repo.resource]
            writes := copiedTags t access.repo.id outcome
            refused := outcome.2.map conflict }
    | none =>
      refuseWith ((sv.planImageCopy source.repo digest b.includeArtifacts).map notFound)
      let visibility := defaultVisibility sv t dest.org.id c.userId
      refuseWith ((sv.checkRepoQuota t dest.org.id visibility).map unprocessable)
      refuseWith ((sv.checkStorageQuota t dest.org.id digest).map fun p =>
        unprocessable (dest.org.name ++ ": " ++ p))
      -- the primary key
      refuseIf (t.repositoryById id).isSome internal
      -- the row is there before the registry is asked for the copy
      let r : Repository := {
        id := id, organizationId := dest.org.id, name := b.repository
        visibility := visibility }
      let outcome := sv.executeImageCopy source.repo r digest tag
      .ok { shows := [source.repo.resource, r.resource]
            writes := .insert .repository r :: copiedTags t r.id outcome
            refused := outcome.2.map conflict }

def tagCopy (a : RepoAccess) (name : String) (body : Body CopyBody) (id : Id) : Plan := do
  let row ← found (tagRow t a.repo.id name) "No such tag."
  let b ← body
  copyImage sv t c a row.manifestDigest (some name) b id

def manifestCopy (a : RepoAccess) (digest : Body String) (body : Body CopyBody) (id : Id) :
    Plan := do
  let digest ← digest
  let b ← body
  refuseIf (b.tag.getD "" = "") (unprocessable "\"tag\" is required when copying by digest.")
  copyImage sv t c a digest none b id

/-! ## All of them -/

inductive RepoRequest where
  | get (document : RepoDocument)
  | patch (body : Body RepoBody)
  | delete
  | policiesPatch (body : Body RepoPoliciesBody)
  | accessGet
  | accessPut (subjectType : Option SubjectType) (subjectId : Id) (body : Body RepoPermission)
  | accessDelete (subjectType : Option SubjectType) (subjectId : Id)
  | webhooks (request : WebhookRequest)
  | manifestDelete (digest : Body String)
  | tagPut (name : String) (body : Body String)
  | tagDelete (name : String) (moveLatest : Bool)
  | tagCopy (name : String) (body : Body CopyBody) (id : Id)
  | manifestCopy (digest : Body String) (body : Body CopyBody) (id : Id)

def RepoRequest.check (a : RepoAccess) : RepoRequest → Check
  | .get _ => .ok ()
  | .patch _ => requireManage c a "change this repository"
  | .delete => requireManage c a "delete this repository"
  | .policiesPatch _ => requireManage c a "change the policies"
  | .accessGet => requireManage c a "see who has access"
  | .accessPut .. => requireManage c a "change access"
  | .accessDelete .. => requireManage c a "change access"
  | .webhooks _ => requireManage c a "manage webhooks here"
  | .manifestDelete _ => requireDelete c a "delete images here"
  | .tagPut .. => requireWrite c a "retag images here"
  | .tagDelete .. => requireDelete c a "delete tags here"
  -- copies check once they know the image
  | .tagCopy .. | .manifestCopy .. => .ok ()

def RepoRequest.plan (a : RepoAccess) : RepoRequest → Plan
  | .get document => repoGet sv t a document
  | .patch body => repoPatch sv t a body
  | .delete => repoDelete t a
  | .policiesPatch body => repoPoliciesPatch a body
  | .accessGet => Web.accessGet a
  | .accessPut subjectType subjectId body => Web.accessPut t a subjectType subjectId body
  | .accessDelete subjectType subjectId => Web.accessDelete t a subjectType subjectId
  | .webhooks request => webhookHandlers sv t (repoWebhookContext a) request
  | .manifestDelete digest => Web.manifestDelete sv t a digest
  | .tagPut name body => Web.tagPut sv t a name body
  | .tagDelete name moveLatest => Web.tagDelete sv t a name moveLatest
  | .tagCopy name body id => Web.tagCopy sv t c a name body id
  | .manifestCopy digest body id => Web.manifestCopy sv t c a digest body id

def repoRoute (org repo : String) (request : RepoRequest) : Plan := do
  let a ← loadRepo t c org repo
  request.check c a
  request.plan sv t c a

def star (org repo : String) (starred : Bool) : Plan := do
  let u ← requireUser c
  refuseIf (isReadOnlyToken c)
    (forbidden "This access token is read-only; starring needs a read & write token.")
  let a ← loadRepo t c org repo
  let row : RepositoryStar := { userId := u.userId, repositoryId := a.repo.id }
  let present := t.repositoryStars.contains row
  .ok { shows := [a.repo.resource]
        writes := match starred, present with
          | true, false => [.insert .repositoryStar row]
          | false, true => [.delete .repositoryStar row]
          | _, _ => [] }

def scanPost (org repo : String) (digest : Body String) : Plan := do
  requireInstanceAdmin c "queue scans" false
  let a ← loadRepo t c org repo
  let digest ← digest
  refuseWith ((sv.queueRescan a.repo digest).map conflict)
  .ok (.answer [a.repo.resource])

end Chicoree.Web

/-! ## Requests

Everything a caller can ask of the REST API, and the answer. A request that is refused
before it writes leaves the tables as they are. -/

namespace Chicoree.Web

variable (sv : Services) (t : Tables) (c : Caller)

inductive UserRequest where
  | list
  | get (userId : Id)
  | organizationsGet (userId : Id)
  | usageGet (userId : Id) (month : Body Unit)
  | limitsGet (userId : Id)
  /-- The body is read against the stored limits. -/
  | limitsPatch (userId : Id) (body : Limits → Body Limits)
  | limitsDelete (userId : Id)

def UserRequest.check : UserRequest → Check
  | .list => requireInstanceAdmin c "list users" true
  | .get _ => requireInstanceAdmin c "read users" true
  | .organizationsGet _ => requireInstanceAdmin c "read users" true
  | .usageGet .. => requireInstanceAdmin c "read usage" true
  | .limitsGet _ => requireInstanceAdmin c "read limits" true
  | .limitsPatch .. => requireInstanceAdmin c "change limits" false
  | .limitsDelete _ => requireInstanceAdmin c "remove limits" false

def userDetail (userId : Id) : Except ApiError User :=
  found (t.users.find? fun u => decide (u.id = userId)) "No such user."

def membershipsOf (userId : Id) : List Resource :=
  (t.members.filter fun m => decide (m.userId = userId)).map fun m =>
    .organization m.organizationId

def userUsage (userId : Id) : List Resource :=
  .account userId :: (t.members.filter fun m =>
    decide (m.userId = userId ∧ m.role = .owner)).flatMap fun m =>
      wholeOrganization t m.organizationId

def getUserLimitsRow (userId : Id) : Option UserLimits :=
  t.userLimits.find? fun l => decide (l.userId = userId)

def limitsPatch (userId : Id) (body : Limits → Body Limits) : Plan := do
  let u ← userDetail t userId
  let next ← body (((getUserLimitsRow t u.id).map (·.limits)).getD {})
  .ok { shows := [.account u.id]
        writes := [t.upsertWrite .userLimits (fun l => decide (l.userId = u.id))
          { userId := u.id, limits := next }] }

def UserRequest.plan : UserRequest → Plan
  | .list => .ok (.answer (t.users.map fun u => .account u.id))
  | .get userId => do
    let u ← userDetail t userId
    .ok (.answer (.account u.id :: membershipsOf t u.id))
  | .organizationsGet userId => do
    let u ← userDetail t userId
    .ok (.answer (.account u.id :: membershipsOf t u.id))
  | .usageGet userId month => do
    let u ← userDetail t userId
    month
    .ok (.answer (userUsage t u.id))
  | .limitsGet userId => do
    let u ← userDetail t userId
    .ok (.answer [.account u.id])
  | .limitsPatch userId body => Web.limitsPatch t userId body
  | .limitsDelete userId => do
    let u ← userDetail t userId
    .ok { shows := [.account u.id]
          writes := t.deleteWhere .userLimits fun l => decide (l.userId = u.id) }

def users (request : UserRequest) : Plan := do
  request.check c
  request.plan t

/-! ## Requests about no organization in particular -/

structure OrganizationBody where
  slug : String
  name : String

def orgsGet : Plan :=
  let orgs := t.organizations.filter (orgFilter t c)
  .ok (.answer (orgs.flatMap fun o => .organization o.id ::
    ((organizationRepositories t o.id).filter (repoFilter t c)).map Repository.resource))

def orgsPost (body : Body OrganizationBody) (id memberId : Id) : Plan := do
  let u ← requireUser c
  refuseIf (u.patScope = some .read) (forbidden
    "This access token is read-only; creating organizations needs a read & write token.")
  refuseIf u.restriction.isSome (forbidden
    "This access token is limited to one organization; it cannot create organizations.")
  refuseIf (sv.organizationCreationByAdmins ∧ u.isAdmin = false)
    (forbidden "Only administrators can create organizations on this registry.")
  let b ← body
  refuseIf (t.organizationBySlug b.slug).isSome
    (conflict ("An organization with the slug " ++ b.slug ++ " already exists."))
  checkIf (u.isAdmin = false) (refuseWith ((sv.checkOrgCreationQuota t u.userId).map forbidden))
  let o : Organization := { id := id, slug := b.slug, name := b.name }
  let m : Member := { id := memberId, organizationId := id, userId := u.userId, role := .owner }
  let limits : List Write := match sv.defaultOrganizationLimits with
    | none => []
    | some limits => if (getOrgLimitsRow t id).isSome then []
      else [.insert .organizationLimits { organizationId := id, limits := limits }]
  .ok { shows := [.organization id]
        writes := .insert .organization o :: .insert .member m :: limits }

/-- The caller behind the credential; a token shows what it is limited to, its
repositories by name. -/
def me : Plan :=
  match c with
  | .anonymous => .error unauthorized
  | .user u => .ok (.answer (match u.restriction with
    | none => []
    | some rs =>
      .organization rs.organizationId :: namedRepositories t [rs.repositoryIds]))
  | .sa s => .ok (.answer (.organization s.organizationId ::
      namedRepositories t [s.repositoryIds]))

def meUsage (month : Body Unit) : Plan :=
  match c with
  | .user u => do
    month
    .ok (.answer (userUsage t u.userId))
  | _ => .error (forbidden "Only users can read their usage.")

/-- A limited token sees only the stars inside its limits. -/
def meStarred : Plan := do
  let u ← requireUser c
  let starred := t.repositories.filter fun r =>
    t.repositoryStars.any (fun s => decide (s.userId = u.userId ∧ s.repositoryId = r.id)) &&
      visibleRepositoriesFilter t c.viewer r
  let rows := starred.filter fun r => u.restriction.all fun rs =>
    decide (r.organizationId = rs.organizationId) &&
      rs.repositoryIds.all fun ids => ids.contains r.id
  .ok (.answer (rows.map Repository.resource))

def Caller.restriction : Caller → Option TokenRestriction
  | .user u => u.restriction
  | _ => none

def search (query : Body Unit) : Plan := do
  query
  refuseIf c.restriction.isSome (forbidden
    "This access token is limited to one organization; search spans the whole registry.")
  let repositories := t.repositories.filter (visibleRepositoriesFilter t c.viewer)
  let orgs := t.organizations.filter fun o => memberOfOrganizationFilter t c.viewer o ||
    t.repositories.any fun r =>
      decide (r.organizationId = o.id ∧ r.visibility = .public_)
  .ok (.answer (repositories.map Repository.resource ++ orgs.map fun o => .organization o.id))

inductive Request where
  | orgsGet
  | orgsPost (body : Body OrganizationBody) (id memberId : Id)
  | managed (org : String) (request : ManagedRequest)
  | org (org : String) (request : OrgRequest)
  | orgLimits (org : String) (request : OrgLimitsRequest)
  | repo (org repo : String) (request : RepoRequest)
  | star (org repo : String) (starred : Bool)
  | scanPost (org repo : String) (digest : Body String)
  | users (request : UserRequest)
  | me
  | meUsage (month : Body Unit)
  | meStarred
  | search (query : Body Unit)
  /-- The index and the description of the API. -/
  | index

def plan : Request → Plan
  | .orgsGet => Web.orgsGet t c
  | .orgsPost body id memberId => Web.orgsPost sv t c body id memberId
  | .managed org request => Web.managed sv t c org request
  | .org org request => orgRoute sv t c org request
  | .orgLimits org request => Web.orgLimits t c org request
  | .repo org repo request => repoRoute sv t c org repo request
  | .star org repo starred => Web.star t c org repo starred
  | .scanPost org repo digest => Web.scanPost sv t c org repo digest
  | .users request => Web.users t c request
  | .me => Web.me t c
  | .meUsage month => Web.meUsage t c month
  | .meStarred => Web.meStarred t c
  | .search query => Web.search t c query
  | .index => .ok (.answer [])

def handle (request : Request) : Except ApiError (List Resource) × Tables :=
  match plan sv t c request with
  | .error e => (.error e, t)
  | .ok done =>
    (match done.refused with
      | none => .ok done.shows
      | some e => .error e,
      t.applyAll done.writes)

end Chicoree.Web
