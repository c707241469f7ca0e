import Chicoree.Web.RepoHandlers

/-! # Read-only tokens

A token whose scope is `read` is refused by every check that tests the scope. The check
for owners and admins does not, so a manager's read-only token passes it. -/

namespace Chicoree.Web

open List

/-! ## Requests that write -/

def WebhookRequest.mutating : WebhookRequest → Bool
  | .list | .get _ => false
  | _ => true

def ManagedRequest.mutating : ManagedRequest → Bool
  | .auditGet | .usageGet _ | .serviceAccountsGet | .serviceAccountGet _ | .ciIdentitiesGet
  | .invitationsGet => false
  | .webhooks request => request.mutating
  | _ => true

def RepoRequest.mutating : RepoRequest → Bool
  | .get _ | .accessGet => false
  | .webhooks request => request.mutating
  | _ => true

def Request.mutating : Request → Bool
  | .orgsPost .. => true
  | .managed _ request => request.mutating
  | .org _ (.reposPost ..) => true
  | .orgLimits _ .get => false
  | .orgLimits .. => true
  | .repo _ _ request => request.mutating
  | .star .. => true
  | .scanPost .. => true
  | .users (.limitsPatch ..) => true
  | .users (.limitsDelete _) => true
  | _ => false

variable (sv : Services) (t : Tables)

/-- The answer is a refusal, and the tables are what they were. -/
def Refused (c : Caller) (request : Request) : Prop :=
  ∃ e, handle sv t c request = (.error e, t)

/-! ## What the handlers for managers accept -/

def WebhookRequest.Accepted (scope : WebhookScope) : WebhookRequest → Prop
  | .list => True
  | .create body _ => (∃ values, body = .ok values) ∧
      countWebhooks t scope < maxWebhooks scope
  | .update id body => ∃ hook, findScopedWebhook t scope id = .ok hook ∧
      ∃ values, body hook.values = .ok values
  | .get id | .remove id | .test id => ∃ hook, findScopedWebhook t scope id = .ok hook

def KnownRepositories (organizationId : Id) (names : Option (List String)) : Prop :=
  ∀ n ∈ names.getD [], ∃ r ∈ t.repositories, r.organizationId = organizationId ∧ r.name = n

/-- A body that reads well and names what is there, and nothing stands in the way. -/
def ManagedRequest.Accepted (u : UserCaller) (a : OrgAccess) : ManagedRequest → Prop
  | .auditGet | .serviceAccountsGet | .ciIdentitiesGet | .invitationsGet => True
  | .usageGet month => month = .ok ()
  | .serviceAccountsPost body _ _ => ∃ b, body = .ok b ∧
      KnownRepositories t a.org.id b.repositories ∧
      serviceAccountNamed t a.org.id b.name = false
  | .serviceAccountGet id | .serviceAccountDelete id =>
      ∃ sa, serviceAccountById t a.org.id id = .ok sa
  | .serviceAccountRotate id _ => ∃ sa, serviceAccountById t a.org.id id = .ok sa ∧
      ∃ expiresAt, sv.replacementExpiry sa = .ok expiresAt
  | .ciIdentitiesPost body _ => ∃ b, body = .ok b ∧
      KnownRepositories t a.org.id b.repositories
  | .ciIdentityDelete id => ∃ ci ∈ t.ciIdentities, ci.id = id ∧ ci.organizationId = a.org.id
  | .invitationsPost body _ => ∃ b, body = .ok b ∧
      (b.role = .owner → a.role = some .owner ∨ u.isAdmin = true) ∧
      sv.checkMemberQuota t a.org.id = none ∧ memberByEmail t a.org.id b.email = false ∧
      ∀ i, pendingInvitation t a.org.id b.email = some i → i.expiresAt ≤ sv.now
  | .invitationDelete id => ∃ i, i.status = .pending ∧ t.invitations.find? (fun i =>
      decide (i.id = id ∧ i.organizationId = a.org.id)) = some i
  | .memberPatch userId body => ∃ m role, target t a.org.id userId = .ok m ∧ body = .ok (some role) ∧
      (role = .owner ∨ m.role = .owner → a.role = some .owner ∨ u.isAdmin = true) ∧
      (m.role = .owner → role = .owner ∨ 1 < ownerCount t a.org.id)
  | .memberDelete userId => ∃ m, target t a.org.id userId = .ok m ∧
      (m.role = .owner → (a.role = some .owner ∨ u.isAdmin = true) ∧ 1 < ownerCount t a.org.id)
  | .policiesPatch body => ∃ b, body = .ok b ∧ b.isEmpty = false
  | .teamsPost body _ => ∃ b, body = .ok b ∧ teamSlugTaken t a.org.id b.slug = false
  | .teamPatch team body => ∃ x b, findTeam t a.org.id team = .ok x ∧ body x = .ok b ∧
      (b.slug ≠ x.slug → teamSlugTaken t a.org.id b.slug = false)
  | .teamDelete team => ∃ x, findTeam t a.org.id team = .ok x
  | .teamMemberPut team userId => (∃ x, findTeam t a.org.id team = .ok x) ∧
      (t.membership a.org.id userId).isSome = true
  | .teamMemberDelete team userId => ∃ x, findTeam t a.org.id team = .ok x ∧
      { teamId := x.id, userId := userId } ∈ t.teamMembers
  | .webhooks request => request.Accepted t (.organization a.org.id)
  | .orgPatch body => (a.role = some .owner ∨ u.isAdmin = true) ∧ ∃ name, body = .ok name
  | .orgDelete => (a.role = some .owner ∨ u.isAdmin = true) ∧ a.org.slug ≠ librarySlug

theorem listedRepositories_isOk (organizationId : Id) (names : Option (List String)) :
    (∃ ids, listedRepositories t organizationId names = .ok ids) ↔
      KnownRepositories t organizationId names := by
  unfold listedRepositories KnownRepositories
  have hmem : ∀ n, n ∈ (names.getD []).eraseDups ↔ n ∈ names.getD [] :=
    fun n => mem_eraseDups
  split
  · rename_i hnil
    simp only [hnil, not_mem_nil, false_iff] at hmem
    constructor
    · intro _ n hn
      exact absurd hn (hmem n)
    · intro _
      exact ⟨none, rfl⟩
  · simp only [← hmem]
    split
    · rename_i hmissing
      simp only [filter_eq_nil_iff] at hmissing
      constructor
      · intro _ n hn
        have hr := hmissing n hn
        simp at hr
        grind
      · intro _
        exact ⟨_, rfl⟩
    · rename_i hmissing
      constructor
      · rintro ⟨_, h⟩
        cases h
      · intro h
        refine absurd (filter_eq_nil_iff.mpr fun n hn => ?_) hmissing
        obtain ⟨r, hr, ho, hname⟩ := h n hn
        simp
        grind

theorem webhooks_accepted (ctx : WebhookContext) (request : WebhookRequest) :
    (∃ d, webhookHandlers sv t ctx request = .ok d) ↔ request.Accepted t ctx.scope := by
  cases request <;>
    simp [webhookHandlers, webhooksList, webhooksCreate, webhooksGet, webhooksUpdate,
      webhooksRemove, webhooksTest, WebhookRequest.Accepted]

variable (u : UserCaller) (a : OrgAccess)

theorem usageGet_accepted (month : Body Unit) :
    (∃ d, usageGet t a month = .ok d) ↔ month = .ok () := by
  simp only [usageGet, bind_eq_ok, Except.ok.injEq]
  constructor
  · rintro ⟨-, ⟨⟩, hmonth, -⟩
    exact hmonth
  · intro hmonth
    exact ⟨_, (), hmonth, rfl⟩

theorem serviceAccountsPost_accepted (body : Body ServiceAccountBody) (id : Id)
    (tokenHash : String) :
    (∃ d, serviceAccountsPost sv t (.user u) a body id tokenHash = .ok d) ↔
      ∃ b, body = .ok b ∧ KnownRepositories t a.org.id b.repositories ∧
        serviceAccountNamed t a.org.id b.name = false := by
  simp [serviceAccountsPost, ← listedRepositories_isOk]

theorem serviceAccountRotate_accepted (id : Id) (tokenHash : String) :
    (∃ d, serviceAccountRotate sv t a id tokenHash = .ok d) ↔
      ∃ sa, serviceAccountById t a.org.id id = .ok sa ∧
        ∃ expiresAt, sv.replacementExpiry sa = .ok expiresAt := by
  simp [serviceAccountRotate]

theorem ciIdentitiesPost_accepted (body : Body CiIdentityBody) (id : Id) :
    (∃ d, ciIdentitiesPost t (.user u) a body id = .ok d) ↔
      ∃ b, body = .ok b ∧ KnownRepositories t a.org.id b.repositories := by
  simp [ciIdentitiesPost, ← listedRepositories_isOk]

theorem ciIdentityDelete_accepted (id : Id) : (∃ d, ciIdentityDelete t a id = .ok d) ↔
      ∃ ci ∈ t.ciIdentities, ci.id = id ∧ ci.organizationId = a.org.id := by
  simp only [ciIdentityDelete, bind_eq_ok, found_eq_ok]
  rw [exists_comm]
  simp [← Option.isSome_iff_exists]

theorem invitationsPost_accepted (body : Body InvitationBody) (id : Id) :
    (∃ d, invitationsPost sv t (.user u) a body id = .ok d) ↔ ∃ b, body = .ok b ∧
      (b.role = .owner → a.role = some .owner ∨ u.isAdmin = true) ∧
      sv.checkMemberQuota t a.org.id = none ∧ memberByEmail t a.org.id b.email = false ∧
      ∀ i, pendingInvitation t a.org.id b.email = some i → i.expiresAt ≤ sv.now := by
  simp [invitationsPost, or_iff_not_imp_left]

theorem invitationDelete_accepted (id : Id) : (∃ d, invitationDelete t a id = .ok d) ↔
      ∃ i, i.status = .pending ∧ t.invitations.find? (fun i =>
        decide (i.id = id ∧ i.organizationId = a.org.id)) = some i := by
  simp [invitationDelete, and_comm]

theorem memberPatch_accepted (userId : Id) (body : Body (Option OrgRole)) :
    (∃ d, memberPatch t (.user u) a userId body = .ok d) ↔
      ∃ m role, target t a.org.id userId = .ok m ∧ body = .ok (some role) ∧
        (role = .owner ∨ m.role = .owner → a.role = some .owner ∨ u.isAdmin = true) ∧
        (m.role = .owner → role = .owner ∨ 1 < ownerCount t a.org.id) := by
  simp [memberPatch, or_iff_not_imp_left]

theorem memberDelete_accepted (userId : Id) :
    (∃ d, memberDelete t (.user u) a userId = .ok d) ↔ ∃ m, target t a.org.id userId = .ok m ∧
      (m.role = .owner → (a.role = some .owner ∨ u.isAdmin = true) ∧
        1 < ownerCount t a.org.id) := by
  simp [memberDelete, imp_and]

theorem policiesPatch_accepted (body : Body OrgPoliciesBody) :
    (∃ d, policiesPatch t a body = .ok d) ↔ ∃ b, body = .ok b ∧ b.isEmpty = false := by
  simp [policiesPatch]

theorem teamsPost_accepted (body : Body TeamBody) (id : Id) : (∃ d, teamsPost t a body id = .ok d) ↔
      ∃ b, body = .ok b ∧ teamSlugTaken t a.org.id b.slug = false := by
  simp [teamsPost]

theorem teamPatch_accepted (team : String) (body : Team → Body TeamBody) :
    (∃ d, teamPatch t a team body = .ok d) ↔
      ∃ x b, findTeam t a.org.id team = .ok x ∧ body x = .ok b ∧
        (b.slug ≠ x.slug → teamSlugTaken t a.org.id b.slug = false) := by
  simp [teamPatch]

theorem teamMemberPut_accepted (team : String) (userId : Id) :
    (∃ d, teamMemberPut t a team userId = .ok d) ↔ (∃ x, findTeam t a.org.id team = .ok x) ∧
        (t.membership a.org.id userId).isSome = true := by
  simp [teamMemberPut, Option.isSome_iff_ne_none]

theorem teamMemberDelete_accepted (team : String) (userId : Id) :
    (∃ d, teamMemberDelete t a team userId = .ok d) ↔ ∃ x, findTeam t a.org.id team = .ok x ∧
        { teamId := x.id, userId := userId } ∈ t.teamMembers := by
  simp [teamMemberDelete]

theorem orgPatch_accepted (body : Body String) : (∃ d, orgPatch t (.user u) a body = .ok d) ↔
      (a.role = some .owner ∨ u.isAdmin = true) ∧ ∃ name, body = .ok name := by
  simp [orgPatch]

theorem orgDelete_accepted : (∃ d, orgDelete t (.user u) a = .ok d) ↔
      (a.role = some .owner ∨ u.isAdmin = true) ∧ a.org.slug ≠ librarySlug := by
  simp [orgDelete]

theorem managed_accepted (request : ManagedRequest) :
    (∃ d, request.plan sv t (.user u) a = .ok d) ↔ request.Accepted sv t u a := by
  cases request with
  | webhooks request => exact webhooks_accepted sv t (orgWebhookContext t a) request
  | usageGet month => exact usageGet_accepted t a month
  | serviceAccountsPost body id tokenHash =>
    exact serviceAccountsPost_accepted sv t u a body id tokenHash
  | serviceAccountRotate id tokenHash => exact serviceAccountRotate_accepted sv t a id tokenHash
  | ciIdentitiesPost body id => exact ciIdentitiesPost_accepted t u a body id
  | ciIdentityDelete id => exact ciIdentityDelete_accepted t a id
  | invitationsPost body id => exact invitationsPost_accepted sv t u a body id
  | invitationDelete id => exact invitationDelete_accepted t a id
  | memberPatch userId body => exact memberPatch_accepted t u a userId body
  | memberDelete userId => exact memberDelete_accepted t u a userId
  | policiesPatch body => exact policiesPatch_accepted t a body
  | teamsPost body id => exact teamsPost_accepted t a body id
  | teamPatch team body => exact teamPatch_accepted t a team body
  | teamMemberPut team userId => exact teamMemberPut_accepted t a team userId
  | teamMemberDelete team userId => exact teamMemberDelete_accepted t a team userId
  | orgPatch body => exact orgPatch_accepted t u a body
  | orgDelete => exact orgDelete_accepted t u a
  | _ =>
    simp [ManagedRequest.plan, ManagedRequest.Accepted, auditGet, serviceAccountsGet,
      serviceAccountGet, serviceAccountDelete, ciIdentitiesGet, invitationsGet, teamDelete]

variable {c : Caller}

theorem managed_answers {request : ManagedRequest} {d : Done}
    (h : request.plan sv t c a = .ok d) : d.refused = none := by
  cases request with
  | webhooks request =>
    cases request <;>
      simp [ManagedRequest.plan, webhookHandlers, webhooksList, webhooksCreate, webhooksGet,
        webhooksUpdate, webhooksRemove, webhooksTest, Done.answer] at h <;> grind
  | _ =>
    simp [ManagedRequest.plan, auditGet, usageGet, serviceAccountsGet, serviceAccountsPost, serviceAccountGet, serviceAccountDelete, serviceAccountRotate, ciIdentitiesGet, ciIdentitiesPost, ciIdentityDelete, invitationsGet, invitationsPost, invitationDelete, memberPatch, memberDelete, policiesPatch, teamsPost, teamPatch, teamDelete, teamMemberPut, teamMemberDelete, orgPatch, orgDelete, Done.answer] at h
    grind

variable {request : Request}

section scope

variable {t} {u : UserCaller} (hread : u.patScope = some .read)
include hread

variable {org repo : String}

theorem loadRepo_can {a : RepoAccess}
    (h : loadRepo t (.user u) org repo = .ok a) : a.can = ⟨false, false, false⟩ := by
  simp only [loadRepo] at h
  split at h
  · cases h
  · split at h
    · cases h
    · cases h
      simp [callerCan, userCan, hread]

theorem repo_refused {request : RepoRequest} (hm : request.mutating = true) (d : Done) :
    repoRoute sv t (.user u) org repo request ≠ .ok d := by
  intro h
  simp only [repoRoute, bind_eq_ok] at h
  obtain ⟨a, ha, ⟨⟩, hcheck, hplan⟩ := h
  have hcan := loadRepo_can hread ha
  have hmanage : ∀ what, requireManage (.user u) a what ≠ .ok () := by
    simp [requireManage, hcan, Caller.isSa]
  have hdelete : ∀ what, requireDelete (.user u) a what ≠ .ok () := by
    simp [requireDelete, hcan, Caller.isSa]
  have hwrite : ∀ what, requireWrite (.user u) a what ≠ .ok () := by
    intro what
    unfold requireWrite
    split <;> simp [hcan, Caller.isSa]
  cases request with
  | get document | accessGet => cases hm
  | patch body | delete | policiesPatch body | accessPut subjectType subjectId body
  | accessDelete subjectType subjectId | webhooks request => exact hmanage _ hcheck
  | manifestDelete digest | tagDelete name moveLatest => exact hdelete _ hcheck
  | tagPut name body => exact hwrite _ hcheck
  | tagCopy name body id =>
    simp only [RepoRequest.plan, tagCopy, copyImage, bind_eq_ok] at hplan
    obtain ⟨-, -, -, -, ⟨⟩, hok, -⟩ := hplan
    exact hwrite _ hok
  | manifestCopy digest body id =>
    simp only [RepoRequest.plan, manifestCopy, copyImage, bind_eq_ok] at hplan
    obtain ⟨-, -, -, -, -, -, ⟨⟩, hok, -⟩ := hplan
    exact hwrite _ hok

theorem orgWriter_refused (a : OrgAccess) (what : String) :
    requireOrgWriter (.user u) a what ≠ .ok () := by
  simp [requireOrgWriter, hread]

theorem instanceAdmin_refused (what : String) :
    requireInstanceAdmin (.user u) what false ≠ .ok () := by
  simp [requireInstanceAdmin, hread]

theorem others_refused (hm : request.mutating = true)
    (hother : ∀ org r, request ≠ .managed org r) (d : Done) :
    plan sv t (.user u) request ≠ .ok d := by
  intro h
  cases request with
  | managed org r => exact hother org r rfl
  | orgsPost body id memberId => simp [plan, orgsPost, hread] at h
  | org org r =>
    simp only [plan, orgRoute, bind_eq_ok] at h
    obtain ⟨a, -, ⟨⟩, hcheck, -⟩ := h
    cases r with
    | reposPost body id => exact orgWriter_refused hread a _ hcheck
    | _ => cases hm
  | orgLimits org r =>
    simp only [plan, orgLimits, bind_eq_ok] at h
    obtain ⟨⟨⟩, hcheck, -⟩ := h
    cases r with
    | get => cases hm
    | patch body | delete => exact instanceAdmin_refused hread _ hcheck
  | repo org repo r => exact repo_refused sv hread hm d h
  | star org repo starred => simp [plan, star, isReadOnlyToken, hread] at h
  | scanPost org repo digest =>
    simp only [plan, scanPost, bind_eq_ok] at h
    obtain ⟨⟨⟩, hcheck, -⟩ := h
    exact instanceAdmin_refused hread _ hcheck
  | users r =>
    simp only [plan, users, bind_eq_ok] at h
    obtain ⟨⟨⟩, hcheck, -⟩ := h
    cases r with
    | limitsPatch userId body | limitsDelete userId => exact instanceAdmin_refused hread _ hcheck
    | _ => cases hm
  | _ => cases hm

end scope

/-! ## When a read-only token writes -/

theorem requireOrgManager_eq_ok {u : UserCaller} {slug : String} {a : OrgAccess}
    (h : loadOrg t (.user u) slug = .ok a) (what : String) :
    requireOrgManager (.user u) a what = .ok () ↔ a.role = some .owner ∨ a.role = some .admin := by
  have hin : (u.restriction.any fun rs => decide (rs.organizationId ≠ a.org.id)) = false := by
    cases hrs : u.restriction with
    | none => rfl
    | some rs => simp [loadOrg_restriction t h hrs]
  simp only [requireOrgManager, hin]
  cases a.role with
  | none => simp
  | some r => cases r <;> simp [managerRoles]

/-- A handler for managers meets an owner or admin of the organization, and an input it
accepts. -/
def ManagerWrites (u : UserCaller) : Request → Prop
  | .managed org request => ∃ a, loadOrg t (.user u) org = .ok a ∧
      (a.role = some .owner ∨ a.role = some .admin) ∧ request.Accepted sv t u a
  | _ => False

theorem managed_ok_iff (u : UserCaller) (org : String) (request : ManagedRequest) :
    (∃ d, plan sv t (.user u) (.managed org request) = .ok d) ↔
      ManagerWrites sv t u (.managed org request) := by
  simp only [plan, managed, bind_eq_ok, ManagerWrites, ← managed_accepted]
  constructor
  · rintro ⟨d, a, ha, ⟨⟩, hcheck, hplan⟩
    exact ⟨a, ha, (requireOrgManager_eq_ok t ha _).mp hcheck, d, hplan⟩
  · rintro ⟨a, ha, hrole, d, hplan⟩
    exact ⟨d, a, ha, (), (requireOrgManager_eq_ok t ha _).mpr hrole, hplan⟩

theorem refused_of_no_plan (h : ∀ d, plan sv t c request ≠ .ok d) : Refused sv t c request := by
  unfold Refused handle
  cases hp : plan sv t c request with
  | ok d => exact absurd hp (h d)
  | error e => exact ⟨e, rfl⟩

theorem read_only_refused_iff (u : UserCaller) (hread : u.patScope = some .read)
    (request : Request) (hm : request.mutating = true) :
    Refused sv t (.user u) request ↔ ¬ ManagerWrites sv t u request := by
  cases hr : request with
  | managed org r =>
    rw [← managed_ok_iff]
    constructor
    · rintro ⟨e, he⟩ ⟨d, hd⟩
      have hnone : d.refused = none := by
        simp only [plan, managed, bind_eq_ok] at hd
        obtain ⟨a, -, -, -, hplan⟩ := hd
        exact managed_answers sv t a hplan
      simp [handle, hd, hnone] at he
    · intro hno
      exact refused_of_no_plan sv t fun d hd => hno ⟨d, hd⟩
  | _ =>
    subst hr
    refine iff_of_true ?_ (fun h => h)
    exact refused_of_no_plan sv t (others_refused sv hread hm (by rintro _ _ ⟨⟩))

def adaReader : UserCaller := { userId := "ada", patScope := some .read }

def adminAccountPost : Request :=
  .managed "acme" (.serviceAccountsPost (.ok { name := "ci", permission := .admin }) "s1" "hash")

theorem read_only_token_creates_account :
    adaReader.patScope = some .read ∧ adminAccountPost.mutating = true ∧
      ¬ Refused Services.quiet acmeDatabase.toTables (.user adaReader) adminAccountPost := by
  refine ⟨rfl, rfl, ?_⟩
  rintro ⟨e, he⟩
  have hok : (handle Services.quiet acmeDatabase.toTables (.user adaReader)
      adminAccountPost).1 = .ok [.organization "o1"] := by decide
  rw [he] at hok
  cases hok

theorem read_only_token_keeps_repository :
    Refused Services.quiet acmeDatabase.toTables (.user adaReader) (.repo "acme" "app" .delete) :=
  (read_only_refused_iff Services.quiet acmeDatabase.toTables adaReader rfl
    (.repo "acme" "app" .delete) rfl).mpr fun h => h

end Chicoree.Web
