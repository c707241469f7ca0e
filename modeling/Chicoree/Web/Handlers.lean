import Chicoree.Web.ApiAccess

/-! # Rows, and the statements that write them

A statement inserts, updates or deletes one row of one table; rows are addressed by
their primary keys, so an update names the row it found. What a row belongs to, and
how far it reaches when it is a credential. -/

namespace Chicoree.Web

open List Tables

/-! ## Tables by kind -/

inductive Kind where
  | organization
  | member
  | invitation
  | team
  | teamMember
  | serviceAccount
  | ciIdentity
  | organizationSettings
  | organizationProxy
  | organizationLimits
  | userLimits
  | webhook
  | repository
  | repositoryGrant
  | repositoryStar
  | repositoryBlob
  | tag
deriving DecidableEq

@[reducible] def Kind.Row : Kind → Type
  | .organization => Organization
  | .member => Member
  | .invitation => Invitation
  | .team => Team
  | .teamMember => TeamMember
  | .serviceAccount => ServiceAccount
  | .ciIdentity => CiIdentity
  | .organizationSettings => OrganizationSettings
  | .organizationProxy => OrganizationProxy
  | .organizationLimits => OrganizationLimits
  | .userLimits => UserLimits
  | .webhook => Webhook
  | .repository => Repository
  | .repositoryGrant => RepositoryGrant
  | .repositoryStar => RepositoryStar
  | .repositoryBlob => RepositoryBlob
  | .tag => Tag

instance : (k : Kind) → DecidableEq k.Row
  | .organization => inferInstanceAs (DecidableEq Organization)
  | .member => inferInstanceAs (DecidableEq Member)
  | .invitation => inferInstanceAs (DecidableEq Invitation)
  | .team => inferInstanceAs (DecidableEq Team)
  | .teamMember => inferInstanceAs (DecidableEq TeamMember)
  | .serviceAccount => inferInstanceAs (DecidableEq ServiceAccount)
  | .ciIdentity => inferInstanceAs (DecidableEq CiIdentity)
  | .organizationSettings => inferInstanceAs (DecidableEq OrganizationSettings)
  | .organizationProxy => inferInstanceAs (DecidableEq OrganizationProxy)
  | .organizationLimits => inferInstanceAs (DecidableEq OrganizationLimits)
  | .userLimits => inferInstanceAs (DecidableEq UserLimits)
  | .webhook => inferInstanceAs (DecidableEq Webhook)
  | .repository => inferInstanceAs (DecidableEq Repository)
  | .repositoryGrant => inferInstanceAs (DecidableEq RepositoryGrant)
  | .repositoryStar => inferInstanceAs (DecidableEq RepositoryStar)
  | .repositoryBlob => inferInstanceAs (DecidableEq RepositoryBlob)
  | .tag => inferInstanceAs (DecidableEq Tag)

def Tables.rows (t : Tables) : (k : Kind) → List k.Row
  | .organization => t.organizations
  | .member => t.members
  | .invitation => t.invitations
  | .team => t.teams
  | .teamMember => t.teamMembers
  | .serviceAccount => t.serviceAccounts
  | .ciIdentity => t.ciIdentities
  | .organizationSettings => t.organizationSettings
  | .organizationProxy => t.organizationProxies
  | .organizationLimits => t.organizationLimits
  | .userLimits => t.userLimits
  | .webhook => t.webhooks
  | .repository => t.repositories
  | .repositoryGrant => t.repositoryGrants
  | .repositoryStar => t.repositoryStars
  | .repositoryBlob => t.repositoryBlobs
  | .tag => t.tags

def Tables.setRows (t : Tables) : (k : Kind) → List k.Row → Tables
  | .organization, rows => { t with organizations := rows }
  | .member, rows => { t with members := rows }
  | .invitation, rows => { t with invitations := rows }
  | .team, rows => { t with teams := rows }
  | .teamMember, rows => { t with teamMembers := rows }
  | .serviceAccount, rows => { t with serviceAccounts := rows }
  | .ciIdentity, rows => { t with ciIdentities := rows }
  | .organizationSettings, rows => { t with organizationSettings := rows }
  | .organizationProxy, rows => { t with organizationProxies := rows }
  | .organizationLimits, rows => { t with organizationLimits := rows }
  | .userLimits, rows => { t with userLimits := rows }
  | .webhook, rows => { t with webhooks := rows }
  | .repository, rows => { t with repositories := rows }
  | .repositoryGrant, rows => { t with repositoryGrants := rows }
  | .repositoryStar, rows => { t with repositoryStars := rows }
  | .repositoryBlob, rows => { t with repositoryBlobs := rows }
  | .tag, rows => { t with tags := rows }

@[simp] theorem Tables.rows_setRows (t : Tables) (k : Kind) (rows : List k.Row) :
    (t.setRows k rows).rows k = rows := by
  cases k <;> rfl

variable {k l : Kind} {row : k.Row} {t : Tables}

theorem Tables.rows_setRows_ne (t : Tables) (h : l ≠ k) (rows : List k.Row) :
    (t.setRows k rows).rows l = t.rows l := by
  cases k <;> cases l <;> first | rfl | exact absurd rfl h

inductive Write where
  | insert (k : Kind) (row : k.Row)
  | update (k : Kind) (old new : k.Row)
  | delete (k : Kind) (row : k.Row)

def Tables.apply (t : Tables) : Write → Tables
  | .insert k row => t.setRows k (t.rows k ++ [row])
  | .update k old new => t.setRows k ((t.rows k).map fun x => if x = old then new else x)
  | .delete k row => t.setRows k ((t.rows k).filter fun x => decide (x ≠ row))

def Tables.applyAll (t : Tables) (writes : List Write) : Tables :=
  writes.foldl apply t

def Tables.deleteWhere (t : Tables) (k : Kind) (p : k.Row → Bool) : List Write :=
  ((t.rows k).filter p).map fun row => .delete k row

def Tables.upsertWrite (t : Tables) (k : Kind) (p : k.Row → Bool) (new : k.Row) : Write :=
  match (t.rows k).find? p with
  | some old => .update k old new
  | none => .insert k new

theorem forall_mem_deleteWhere {p : k.Row → Bool} {P : Write → Prop} :
    (∀ w ∈ t.deleteWhere k p, P w) ↔ ∀ row ∈ t.rows k, p row = true → P (.delete k row) := by
  simp only [deleteWhere, forall_mem_map, mem_filter, and_imp]

/-- The statement leaves the row behind. -/
def Write.Leaves (w : Write) (k : Kind) (row : k.Row) : Prop :=
  w = .insert k row ∨ ∃ old, w = .update k old row

@[simp] theorem leaves_delete {other : l.Row} : ¬ (Write.delete k row).Leaves l other := by
  rintro (h | ⟨old, h⟩) <;> cases h

/-! ### What a statement changes -/

theorem mem_rows_apply {w : Write} (h : row ∈ (t.apply w).rows k) :
    row ∈ t.rows k ∨ w.Leaves k row := by
  cases w with
  | insert l r =>
    by_cases hk : k = l
    · subst hk
      simp only [apply, rows_setRows, mem_append, mem_singleton] at h
      rcases h with hrow | rfl
      · exact .inl hrow
      · exact .inr (.inl rfl)
    · rw [apply, t.rows_setRows_ne hk] at h
      exact .inl h
  | update l old new =>
    by_cases hk : k = l
    · subst hk
      simp only [apply, rows_setRows, mem_map] at h
      obtain ⟨x, hx, he⟩ := h
      split at he
      · exact .inr (.inr ⟨old, by rw [he]⟩)
      · exact .inl (he ▸ hx)
    · rw [apply, t.rows_setRows_ne hk] at h
      exact .inl h
  | delete l r =>
    by_cases hk : k = l
    · subst hk
      simp only [apply, rows_setRows, mem_filter] at h
      exact .inl h.1
    · rw [apply, t.rows_setRows_ne hk] at h
      exact .inl h

theorem mem_rows_applyAll {writes : List Write} (h : row ∈ (t.applyAll writes).rows k) :
    row ∈ t.rows k ∨ ∃ w ∈ writes, w.Leaves k row := by
  induction writes generalizing t with
  | nil => exact .inl h
  | cons w writes ih =>
    rcases ih h with hrow | ⟨w', hmem, hleaves⟩
    · rcases mem_rows_apply hrow with hrow | hleaves
      · exact .inl hrow
      · exact .inr ⟨w, mem_cons_self, hleaves⟩
    · exact .inr ⟨w', mem_cons_of_mem _ hmem, hleaves⟩

inductive Resource where
  /-- The organization's own rows: members, teams, accounts, policies. -/
  | organization (organizationId : Id)
  | repository (organizationId repositoryId : Id)
  | account (userId : Id)
deriving DecidableEq

def Repository.resource (r : Repository) : Resource := .repository r.organizationId r.id

def repositoryResources (repositories : List Repository) (repositoryId : Id) : List Resource :=
  (repositories.filter fun r => decide (r.id = repositoryId)).map Repository.resource

def teamResources (teams : List Team) (teamId : Id) : List Resource :=
  (teams.filter fun x => decide (x.id = teamId)).map fun x => .organization x.organizationId

/-- What a row belongs to, given the repositories and teams its ids may name. -/
@[simp] def rowResources (repositories : List Repository) (teams : List Team) :
    (k : Kind) → k.Row → List Resource
  | .organization, r => [.organization r.id]
  | .member, r => [.organization r.organizationId]
  | .invitation, r => [.organization r.organizationId]
  | .team, r => [.organization r.organizationId]
  | .teamMember, r => teamResources teams r.teamId
  | .serviceAccount, r => [.organization r.organizationId]
  | .ciIdentity, r => [.organization r.organizationId]
  | .organizationSettings, r => [.organization r.organizationId]
  | .organizationProxy, r => [.organization r.organizationId]
  | .organizationLimits, r => [.organization r.organizationId]
  | .userLimits, r => [.account r.userId]
  | .webhook, r =>
    match r.scope with
    | .organization organizationId => [.organization organizationId]
    | .repository repositoryId => repositoryResources repositories repositoryId
  | .repository, r => [r.resource]
  | .repositoryGrant, r => repositoryResources repositories r.repositoryId
  | .repositoryStar, r => repositoryResources repositories r.repositoryId
  | .repositoryBlob, r => repositoryResources repositories r.repositoryId
  | .tag, r => repositoryResources repositories r.repositoryId

@[simp] def Write.resources (repositories : List Repository) (teams : List Team) :
    Write → List Resource
  | .insert k row => rowResources repositories teams k row
  | .update k old new =>
    rowResources repositories teams k old ++ rowResources repositories teams k new
  | .delete k row => rowResources repositories teams k row

/-! ### Credentials -/

def listReach (organizationId : Id) (repositoryIds : Option (List Id)) : List Resource :=
  match repositoryIds with
  | none => [.organization organizationId]
  | some ids => ids.map (.repository organizationId)

def teamReach (t : Tables) (repositories : List Repository) (teamId : Id) : List Resource :=
  (t.repositoryGrants.filter fun g =>
    decide (g.subjectType = .team ∧ g.subjectId = teamId)).flatMap fun g =>
      repositoryResources repositories g.repositoryId

/-- What the holder of a credential can get at: service accounts and CI identities,
open invitations, member roles, seats in a team and grants. -/
@[simp] def rowReach (t : Tables) (repositories : List Repository) :
    (k : Kind) → k.Row → List Resource
  | .serviceAccount, r => listReach r.organizationId r.repositoryIds
  | .ciIdentity, r => listReach r.organizationId r.repositoryIds
  | .invitation, r => if r.status = .pending then [.organization r.organizationId] else []
  | .member, r => [.organization r.organizationId]
  | .teamMember, r => teamReach t repositories r.teamId
  | .repositoryGrant, r => repositoryResources repositories r.repositoryId
  | _, _ => []

@[simp] def Write.reach (t : Tables) (repositories : List Repository) : Write → List Resource
  | .insert k row => rowReach t repositories k row
  | .update k _ new => rowReach t repositories k new
  | .delete _ _ => []

variable {repositories : List Repository} {id : Id} {x : Resource}

theorem mem_repositoryResources :
    x ∈ repositoryResources repositories id ↔ ∃ r ∈ repositories, r.id = id ∧ r.resource = x := by
  simp [repositoryResources, and_assoc]

theorem mem_repositoryResources_key {db : Database} {r : Repository} (hr : r ∈ db.repositories)
    : x ∈ repositoryResources db.repositories r.id ↔ x = r.resource := by
  rw [mem_repositoryResources]
  constructor
  · rintro ⟨r', hr', hid, rfl⟩
    rw [db.repository_ids.eq_of_key hr' hr hid]
  · rintro rfl
    exact ⟨r, hr, rfl, rfl⟩

variable {teams : List Team}

theorem mem_teamResources :
    x ∈ teamResources teams id ↔
      ∃ team ∈ teams, team.id = id ∧ .organization team.organizationId = x := by
  simp [teamResources, and_assoc]

theorem mem_teamReach {teamId : Id} : x ∈ teamReach t repositories teamId ↔
      ∃ g ∈ t.repositoryGrants, g.subjectType = .team ∧ g.subjectId = teamId ∧
        x ∈ repositoryResources repositories g.repositoryId := by
  simp [teamReach, and_assoc]

theorem rowResources_subset {repositories' : List Repository}
    (h : ∀ {r}, r ∈ repositories → r ∈ repositories')
    (hx : x ∈ rowResources repositories teams k row) :
    x ∈ rowResources repositories' teams k row := by
  have hsub : ∀ {id}, x ∈ repositoryResources repositories id →
      x ∈ repositoryResources repositories' id := by
    intro id hx
    obtain ⟨r, hr, hid, rfl⟩ := mem_repositoryResources.mp hx
    exact mem_repositoryResources.mpr ⟨r, h hr, hid, rfl⟩
  cases k with
  | repositoryGrant | repositoryStar | repositoryBlob | tag => exact hsub hx
  | webhook =>
    simp only [rowResources] at hx ⊢
    split at hx
    · exact hx
    · exact hsub hx
  | _ => exact hx

/-! ## Handlers of the REST API

What a handler is: checks that may refuse, then what its answer shows and the rows it
writes. The bodies of the requests are carried as the outcome of reading them. -/

/-- What a request that passed its checks shows and writes. -/
structure Done where
  /-- What the answer is made from. -/
  shows : List Resource := []
  writes : List Write := []
  /-- A refusal that came after the rows were written. -/
  refused : Option ApiError := none

/-- A handler up to its last check. -/
abbrev Plan := Except ApiError Done

/-- The body of a request, read and checked on its own. -/
abbrev Body (α : Type) := Except ApiError α

def Done.answer (resources : List Resource) : Done := { shows := resources }

def given {α : Type} (value : Option α) (refusal : ApiError) : Except ApiError α :=
  match value with
  | some x => .ok x
  | none => .error refusal

def found {α : Type} (row : Option α) (message : String) : Except ApiError α :=
  given row (notFound message)

def refuseWith (refusal : Option ApiError) : Check :=
  match refusal with
  | some e => .error e
  | none => .ok ()

def refuseIf (p : Prop) [Decidable p] (refusal : ApiError) : Check :=
  if p then .error refusal else .ok ()

def checkIf (p : Prop) [Decidable p] (check : Check) : Check :=
  if p then check else .ok ()

variable {refusal : ApiError}

@[simp] theorem given_eq_ok {α : Type} {value : Option α} {x : α} :
    given value refusal = .ok x ↔ value = some x := by
  cases value <;> simp [given]

variable {message : String}

@[simp] theorem found_eq_ok {α : Type} {row : Option α} {r : α} :
    found row message = .ok r ↔ row = some r :=
  given_eq_ok

theorem found_where {α : Type} {rows : List α} {p : α → Bool} {r : α}
    (h : found (rows.find? p) message = .ok r) : r ∈ rows ∧ p r = true := by
  rw [found_eq_ok] at h
  exact ⟨mem_of_find?_eq_some h, find?_some h⟩

@[simp] theorem mapError_eq_ok {α β : Type} {x : Except α β} {f : α → ApiError} {b : β} :
    x.mapError f = .ok b ↔ x = .ok b := by
  cases x <;> simp [Except.mapError]

@[simp] theorem refuseWith_eq_ok {refusal : Option ApiError} {x : Unit} :
    refuseWith refusal = .ok x ↔ refusal = none := by
  cases refusal <;> simp [refuseWith]

@[simp] theorem refuseIf_eq_ok {p : Prop} [Decidable p] {x : Unit} :
    refuseIf p refusal = .ok x ↔ ¬ p := by
  unfold refuseIf
  split <;> simp [*]

@[simp] theorem checkIf_eq_ok {p : Prop} [Decidable p] {check : Check} {x : Unit} :
    checkIf p check = .ok x ↔ (p → check = .ok ()) := by
  unfold checkIf
  split <;> simp [*]

@[simp] theorem bind_eq_ok {α β : Type} {x : Except ApiError α} {f : α → Except ApiError β} {b : β} :
    x >>= f = .ok b ↔ ∃ a, x = .ok a ∧ f a = .ok b := by
  cases x with
  | error e | ok a => simp [bind, Except.bind]

/-- What became of a tag named `latest` when another tag was deleted. -/
inductive LatestOutcome where
  | unchanged
  | removed
  | moved (digest : String)

/-- What handlers ask of the quotas, the instance settings, the registry and the
webhook receivers. -/
structure Services where
  now : Nat
  /-- Only administrators create organizations. -/
  organizationCreationByAdmins : Bool
  checkMemberQuota : Tables → Id → Option String
  checkRepoQuota : Tables → Id → Visibility → Option String
  checkOrgCreationQuota : Tables → Id → Option String
  /-- Whether the blobs of an image still fit. -/
  checkStorageQuota : Tables → Id → String → Option String
  /-- A user's own setting for new repositories. -/
  userDefaultVisibility : Id → Option Visibility
  /-- The limits new organizations get, when there are any. -/
  defaultOrganizationLimits : Option Limits
  replacementExpiry : ServiceAccount → Except String (Option Nat)
  /-- A document made from a repository's manifests, blobs and scans. -/
  document : Repository → String → Check
  retag : Repository → String → String → Check
  /-- Deletes a tag; the outcome of `latest` can still be a refusal. -/
  deleteTag : Repository → String → Bool → Except ApiError (Except ApiError LatestOutcome)
  deleteManifest : Repository → String → Check
  /-- Why the tag may not be pointed at the image. -/
  immutableTag : Repository → String → String → Option String
  planImageCopy : Repository → String → Bool → Option String
  /-- The tags an image copy wrote, and the registry's refusal if it did not finish. -/
  executeImageCopy : Repository → Repository → String → String → List (String × String) × Option String
  queueRescan : Repository → String → Option String
  /-- The status a webhook receiver answered. -/
  deliver : Webhook → Option Nat

def Services.quiet : Services where
  now := 0
  organizationCreationByAdmins := false
  checkMemberQuota _ _ := none
  checkRepoQuota _ _ _ := none
  checkOrgCreationQuota _ _ := none
  checkStorageQuota _ _ _ := none
  userDefaultVisibility _ := none
  defaultOrganizationLimits := none
  replacementExpiry _ := .ok none
  document _ _ := .ok ()
  retag _ _ _ := .ok ()
  deleteTag _ _ _ := .ok (.ok .unchanged)
  deleteManifest _ _ := .ok ()
  immutableTag _ _ _ := none
  planImageCopy _ _ _ := none
  executeImageCopy _ _ digest tag := ([(tag, digest)], none)
  queueRescan _ _ := none
  deliver _ := some 200

variable (sv : Services) (t : Tables)

def defaultVisibility (organizationId : Id) (userId : Option Id) : Visibility :=
  (((t.settingsOf organizationId).bind (·.defaultVisibility)).or
    (userId.bind sv.userDefaultVisibility)).getD .private_

def Caller.userId : Caller → Option Id
  | .user u => some u.userId
  | _ => none

def Caller.isAdmin : Caller → Bool
  | .user u => u.isAdmin
  | _ => false

@[simp] theorem Caller.isAdmin_user (u : UserCaller) : (Caller.user u).isAdmin = u.isAdmin := rfl

@[simp] theorem requireUser_user (u : UserCaller) : requireUser (.user u) = .ok u := rfl

def organizationRepositories (organizationId : Id) : List Repository :=
  t.repositories.filter fun r => decide (r.organizationId = organizationId)

def namedRepositories (lists : List (Option (List Id))) : List Resource :=
  (t.repositories.filter fun r => lists.any fun ids => ids.any fun ids =>
    ids.contains r.id).map Repository.resource

def wholeOrganization (organizationId : Id) : List Resource :=
  .organization organizationId ::
    (organizationRepositories t organizationId).map Repository.resource

/-- The organization's document: its storage is summed over all its repositories. -/
def orgDetail (a : OrgAccess) : List Resource :=
  wholeOrganization t a.org.id

/-- The repository's document: its storage is compared with the repositories that
hold the same blobs. -/
def repoDetail (r : Repository) : List Resource :=
  let sharing := t.repositories.filter fun o => t.repositoryBlobs.any fun b =>
    decide (b.repositoryId = o.id) && t.repositoryBlobs.any fun c =>
      decide (c.repositoryId = r.id ∧ c.blobDigest = b.blobDigest)
  r.resource :: sharing.map Repository.resource

/-! ## Webhooks

The same handlers serve an organization's webhooks and a repository's. -/

structure WebhookContext where
  scope : WebhookScope
  resource : Resource
  /-- The repositories a test delivery may be about. -/
  subjects : List Resource

inductive WebhookRequest where
  | list
  | create (body : Body WebhookValues) (id : Id)
  | get (id : Id)
  /-- The body is read against the stored values. -/
  | update (id : Id) (body : WebhookValues → Body WebhookValues)
  | remove (id : Id)
  | test (id : Id)

def maxWebhooks : WebhookScope → Nat
  | .repository _ => 5
  | .organization _ => 10

def tooManyWebhooks : WebhookScope → String
  | .repository _ => "A repository can have at most 5 webhooks."
  | .organization _ => "An organization can have at most 10 webhooks."

def findScopedWebhook (scope : WebhookScope) (id : Id) : Except ApiError Webhook :=
  found (t.webhooks.find? fun h => decide (h.id = id ∧ h.scope = scope)) "No such webhook."

def countWebhooks (scope : WebhookScope) : Nat :=
  t.webhooks.countP fun h => decide (h.scope = scope)

def webhooksList (ctx : WebhookContext) : Plan :=
  .ok (.answer [ctx.resource])

def webhooksCreate (ctx : WebhookContext) (body : Body WebhookValues) (id : Id) : Plan := do
  let values ← body
  refuseIf (countWebhooks t ctx.scope ≥ maxWebhooks ctx.scope)
    (conflict (tooManyWebhooks ctx.scope))
  .ok { shows := [ctx.resource]
        writes := [.insert .webhook { id := id, scope := ctx.scope, values := values }] }

def webhooksGet (ctx : WebhookContext) (id : Id) : Plan := do
  let _ ← findScopedWebhook t ctx.scope id
  .ok (.answer [ctx.resource])

def webhooksUpdate (ctx : WebhookContext) (id : Id)
    (body : WebhookValues → Body WebhookValues) : Plan := do
  let hook ← findScopedWebhook t ctx.scope id
  let values ← body hook.values
  .ok { shows := [ctx.resource]
        writes := [.update .webhook hook { hook with values := values }] }

def webhooksRemove (ctx : WebhookContext) (id : Id) : Plan := do
  let hook ← findScopedWebhook t ctx.scope id
  .ok { shows := [ctx.resource], writes := [.delete .webhook hook] }

/-- A test delivery is about the image tagged last; the hook keeps its outcome. -/
def webhooksTest (ctx : WebhookContext) (id : Id) : Plan := do
  let hook ← findScopedWebhook t ctx.scope id
  .ok { shows := ctx.resource :: ctx.subjects
        writes := [.update .webhook hook { hook with lastStatus := sv.deliver hook }] }

def webhookHandlers (ctx : WebhookContext) : WebhookRequest → Plan
  | .list => webhooksList ctx
  | .create body id => webhooksCreate t ctx body id
  | .get id => webhooksGet t ctx id
  | .update id body => webhooksUpdate t ctx id body
  | .remove id => webhooksRemove t ctx id
  | .test id => webhooksTest sv t ctx id

end Chicoree.Web
