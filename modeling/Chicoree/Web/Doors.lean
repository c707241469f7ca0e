import Chicoree.Web.ApiAccess

/-! # Three doors to a repository

The docker token service, the REST API and the web pages decide on their own who may
pull, push and delete. Each is compared with one model that gives every caller a rank
on a repository. -/

namespace Chicoree.Web

open RegistryAction List

/-! ## The web pages -/

structure Session where
  userId : Id
  isAdmin : Bool

def Session.caller (s : Session) : Caller :=
  .user { userId := s.userId, isAdmin := s.isAdmin }

variable (t : Tables) {c : Caller}

/-- The signed-in user's role in an organization; instance admins act as owners. -/
def getOrgRole (session : Option Session) (organizationId : Id) : Option OrgRole :=
  match session with
  | none => none
  | some s =>
    if s.isAdmin then some .owner
    else (t.membership organizationId s.userId).map (·.role)

structure RepoContext where
  org : Organization
  repo : Repository
  role : Option OrgRole
  permission : Option RepoPermission
  can : Can

def getRepoContext (session : Option Session) (orgSlug repoName : String) : Option RepoContext :=
  match t.organizationBySlug orgSlug with
  | none => none
  | some org =>
    match t.repositoryByPath org.id repoName with
    | none => none
    | some repo =>
      let role := getOrgRole t session org.id
      let permission := session.bind fun s =>
        effectivePermission t s.userId s.isAdmin role repo.id
      let manage := decide (permission = some .admin)
      some { org, repo, role, permission,
             can := ⟨manage, manage,
              decide (permission = some .push) || decide (permission = some .admin)⟩ }

def RepoContext.opens (ctx : RepoContext) : Bool :=
  decide (ctx.repo.visibility ≠ .private_) || ctx.role.isSome

/-! ## What each door grants -/

/-- The token service grants the action, whatever else is requested with it. -/
def TokenGrants (c : Caller) (orgSlug repoName : String) (a : RegistryAction) : Prop :=
  a ∈ allowedRepositoryActions t c orgSlug repoName [.pull, .push, .delete]

/-- The API finds the repository, lets the caller write, or lets them delete. -/
def ApiGrants (c : Caller) (orgSlug repoName : String) (a : RegistryAction) : Prop :=
  ∃ access, loadRepo t c orgSlug repoName = .ok access ∧
    match a with
    | .pull => True
    | .push => access.can.write = true
    | .delete => access.can.delete = true

def PageGrants (s : Session) (orgSlug repoName : String) (a : RegistryAction) : Prop :=
  ∃ ctx, getRepoContext t (some s) orgSlug repoName = some ctx ∧
    match a with
    | .pull => ctx.opens = true
    | .push => ctx.can.write = true
    | .delete => ctx.can.delete = true

theorem mem_allowedRepositoryActions {orgSlug repoName : String} {requested : List RegistryAction}
    {a : RegistryAction} :
    a ∈ allowedRepositoryActions t c orgSlug repoName requested ↔
      a ∈ requested ∧ TokenGrants t c orgSlug repoName a := by
  have hall : a ∈ [pull, .push, .delete] := by cases a <;> simp
  unfold TokenGrants allowedRepositoryActions
  split
  · simp
  · dsimp only
    split
    · simp
    · simp only [mem_filter, hall, true_and]

/-! ## The access model

What a caller may do is a rank: nothing, pull, push, delete. -/

variable {t}

def Ranks (actions : List RegistryAction) (n : Nat) : Prop :=
  ∀ a, a ∈ actions ↔ a.rank ≤ n

theorem Ranks.nil : Ranks [] 0 := by
  intro a
  cases a <;> simp [rank]

theorem Ranks.pull : Ranks [.pull] 1 := by
  intro a
  cases a <;> simp [rank]

theorem Ranks.all : Ranks [.pull, .push, .delete] 3 := by
  intro a
  cases a <;> simp [rank]

variable {actions : List RegistryAction} {n : Nat}

theorem Ranks.eq_nil_iff (h : Ranks actions n) : actions = [] ↔ n = 0 := by
  constructor
  · rintro rfl
    have hpull := h .pull
    simp only [not_mem_nil, rank, false_iff] at hpull
    omega
  · rintro rfl
    refine eq_nil_iff_forall_not_mem.mpr fun a ha => ?_
    have hrank := (h a).mp ha
    cases a <;> simp [rank] at hrank

theorem Ranks.filter_pull (h : Ranks actions n) : Ranks (actions.filter (· = .pull)) (min 1 n) := by
  intro a
  rw [mem_filter, h a, decide_eq_true_eq]
  constructor
  · rintro ⟨hle, rfl⟩
    simp only [rank] at hle ⊢
    omega
  · intro hle
    -- only a pull ranks at most one
    cases a <;> simp only [rank] at hle ⊢
    · exact ⟨by omega, trivial⟩
    all_goals omega

variable {m : Nat}

theorem Ranks.ite {p : Prop} [Decidable p] {as bs : List RegistryAction}
    (ha : Ranks as m) (hb : Ranks bs n) :
    Ranks (if p then as else bs) (if p then m else n) := by
  split
  · exact ha
  · exact hb

theorem Ranks.role (role : OrgRole) :
    Ranks (roleRegistryActions role) (rankOf (permissionFromRole (some role))) :=
  fun _ => mem_roleRegistryActions_iff

theorem Ranks.raised (granted : Option RepoPermission) (role : OrgRole) :
    Ranks (raisedActions granted (roleRegistryActions role))
      (max (rankOf (permissionFromRole (some role))) (rankOf granted)) := by
  intro a
  cases granted with
  | none => cases role <;> cases a <;> decide
  | some p => cases p <;> cases role <;> cases a <;> decide

theorem Ranks.permission (p : RepoPermission) : Ranks (permissionActions p) p.rank := by
  intro a
  cases p <;> cases a <;> decide

variable (t)

def memberRank (userId : Id) (org : Organization) (repo : Option Repository) : Nat :=
  match t.membership org.id userId, repo with
  | none, _ => 0
  | some m, none => rankOf (permissionFromRole (some m.role))
  | some m, some r => max (rankOf (permissionFromRole (some m.role)))
      (rankOf (grantedPermission t userId r.id))

def seenRank (rank : Nat) (visibility : Option Visibility) : Nat :=
  if rank = 0 ∧ visibility = some .public_ then 1 else rank

def userRank (u : UserCaller) (org : Organization) (repo : Option Repository)
    (visibility : Option Visibility) : Nat :=
  let rank := if u.isAdmin then 3 else seenRank (memberRank t u.userId org repo) visibility
  let inScope := if u.patScope = some .read then min 1 rank else rank
  if restrictionAllows u.restriction org.id (repo.map (·.id)) then inScope else 0

def saRank (s : ServiceCaller) (org : Organization) (repo : Option Repository)
    (visibility : Option Visibility) : Nat :=
  if s.organizationId ≠ org.id then seenRank 0 visibility
  else
    match s.repositoryIds, repo with
    | none, _ => s.permission.rank
    | some _, none => 0
    | some ids, some r => if ids.contains r.id then s.permission.rank else 0

def callerRank (c : Caller) (org : Organization) (repo : Option Repository)
    (visibility : Option Visibility) : Nat :=
  match c with
  | .anonymous => seenRank 0 visibility
  | .user u => userRank t u org repo visibility
  | .sa s => saRank s org repo visibility

theorem one_le_seenRank (n : Nat) (visibility : Option Visibility) :
    1 ≤ seenRank n visibility ↔ 0 < n ∨ visibility = some .public_ := by
  unfold seenRank
  split
  · rename_i h
    simp [h.2]
  · rename_i h
    constructor
    · intro hn
      exact .inl hn
    · rintro (hn | hv)
      · exact hn
      · have hn : n ≠ 0 := fun h0 => h ⟨h0, hv⟩
        omega

variable {k : Nat}

theorem le_seenRank (hk : 2 ≤ k) (visibility : Option Visibility) :
    k ≤ seenRank n visibility ↔ k ≤ n := by
  unfold seenRank
  split
  · omega
  · exact Iff.rfl

theorem le_scopedRank {p : Prop} [Decidable p] :
    k ≤ (if p then min 1 n else n) ↔ k ≤ n ∧ (p → k ≤ 1) := by
  split
  · rename_i h
    constructor
    · intro hk
      exact ⟨by omega, fun _ => by omega⟩
    · rintro ⟨hk, h1⟩
      have hone := h1 h
      omega
  · rename_i h
    exact ⟨fun hk => ⟨hk, fun hp => absurd hp h⟩, fun hk => hk.1⟩

/-! ### The token service follows the model -/

theorem memberActions_ranks (u : UserCaller) (org : Organization) (repo : Option Repository) :
    Ranks (memberActions t u org repo) (memberRank t u.userId org repo) := by
  unfold memberActions memberRank
  cases t.membership org.id u.userId with
  | none => exact .nil
  | some m =>
    cases repo with
    | none => exact .role m.role
    | some r => exact .raised _ m.role

theorem seen_ranks (h : Ranks actions n) (visibility : Option Visibility) :
    Ranks (if actions = [] ∧ visibility = some .public_ then [.pull] else actions)
      (seenRank n visibility) := by
  simp only [h.eq_nil_iff]
  exact .ite .pull h

theorem callerActions_ranks (c : Caller) (org : Organization) (repo : Option Repository)
    (visibility : Option Visibility) :
    Ranks (callerActions t c org repo visibility) (callerRank t c org repo visibility) := by
  have hpublic : Ranks (if visibility = some .public_ then [.pull] else [])
      (seenRank 0 visibility) := by
    simpa [seenRank] using Ranks.ite (p := visibility = some .public_) Ranks.pull Ranks.nil
  cases c with
  | anonymous => exact hpublic
  | user u =>
    have hseen := seen_ranks (memberActions_ranks t u org repo) visibility
    have hallowed := Ranks.ite (p := u.isAdmin = true) Ranks.all hseen
    exact .ite (.ite hallowed.filter_pull hallowed) .nil
  | sa s =>
    show Ranks (saActions s org repo visibility) (saRank s org repo visibility)
    unfold saActions saRank
    split
    · exact hpublic
    · cases s.repositoryIds with
      | none => exact .permission s.permission
      | some ids =>
        cases repo with
        | none => exact .nil
        | some r => exact .ite (.permission s.permission) .nil

/-! ## Existing repositories
 -/

section existing

variable {db : Database} {org : Organization} {repo : Repository}

theorem Database.organizationBySlug_mem (db : Database)
    (horg : org ∈ db.organizations) : db.organizationBySlug org.slug = some org :=
  db.organization_slugs.find_self horg

theorem Database.organizationById_mem (db : Database)
    (horg : org ∈ db.organizations) : db.organizationById org.id = some org :=
  db.organization_ids.find_self horg

theorem Database.repositoryById_mem (db : Database)
    (hrepo : repo ∈ db.repositories) : db.repositoryById repo.id = some repo :=
  db.repository_ids.find_self hrepo

theorem Database.repositoryByPath_mem (db : Database) (hrepo : repo ∈ db.repositories) :
    db.repositoryByPath repo.organizationId repo.name = some repo :=
  db.repository_paths.find_self hrepo

structure Existing (db : Database) (org : Organization) (repo : Repository) : Prop where
  listed : org ∈ db.organizations
  stored : repo ∈ db.repositories
  owner : repo.organizationId = org.id
  noProxy : db.proxyOf org.id = none

theorem tokenGrants_iff (hx : Existing db org repo) (c : Caller) (a : RegistryAction) :
    TokenGrants db.toTables c org.slug repo.name a ↔ isNested repo.name = false ∧
      a.rank ≤ callerRank db.toTables c org (some repo) (some repo.visibility) := by
  have hall : a ∈ [pull, .push, .delete] := by cases a <;> simp
  have hfind : db.repositoryByPath org.id repo.name = some repo := by
    rw [← hx.owner]
    exact db.repositoryByPath_mem hx.stored
  unfold TokenGrants allowedRepositoryActions
  simp only [db.organizationBySlug_mem hx.listed, hx.noProxy, and_true, hfind, visibilityOf,
    Option.isSome_none, Bool.false_eq_true, if_false]
  split
  · rename_i hnested
    simp [hnested]
  · rename_i hnested
    simp only [mem_filter, hall, true_and, contains_iff_mem]
    rw [callerActions_ranks db.toTables c org (some repo) (some repo.visibility) a]
    simp [hnested]

theorem loadRepo_existing (hx : Existing db org repo) (c : Caller) :
    loadRepo db.toTables c org.slug repo.name =
      if repoFilter db.toTables c repo then
        .ok ⟨⟨org, orgRole db.toTables c org.id, false⟩, repo,
          callerCan db.toTables c (orgRole db.toTables c org.id) org repo⟩
      else .error (notFound "No such repository.") := by
  have hunique : ∀ r ∈ db.repositories, (decide (r.name = repo.name) &&
        db.organizations.any (fun o => decide (o.id = r.organizationId ∧ o.slug = org.slug)) &&
        repoFilter db.toTables c r) = true → r = repo := by
    intro r hr hp
    simp only [Bool.and_eq_true, decide_eq_true_eq, any_eq_true] at hp
    obtain ⟨⟨hname, o, ho, hoid, hslug⟩, -⟩ := hp
    have hoo : o = org := db.organization_slugs.eq_of_key ho hx.listed hslug
    refine db.repository_paths.eq_of_key hr hx.stored ?_
    simp [Repository.path, hname, hx.owner, ← hoid, hoo]
  have hany : db.organizations.any
      (fun o => decide (o.id = repo.organizationId ∧ o.slug = org.slug)) = true := by
    simp only [any_eq_true, decide_eq_true_eq]
    exact ⟨org, hx.listed, hx.owner.symm, rfl⟩
  unfold loadRepo
  simp only [Table.find?_of_unique hx.stored hunique, decide_true, hany, Bool.true_and]
  by_cases hf : repoFilter db.toTables c repo = true
  · simp [hf, db.repositoryById_mem hx.stored, hx.owner, db.organizationById_mem hx.listed, hx.noProxy]
  · simp [hf]

theorem apiGrants_iff_can (hx : Existing db org repo) (c : Caller) (a : RegistryAction) :
    ApiGrants db.toTables c org.slug repo.name a ↔ repoFilter db.toTables c repo = true ∧
      match a with
      | .pull => True
      | .push =>
        (callerCan db.toTables c (orgRole db.toTables c org.id) org repo).write = true
      | .delete =>
        (callerCan db.toTables c (orgRole db.toTables c org.id) org repo).delete = true := by
  unfold ApiGrants
  rw [loadRepo_existing hx]
  by_cases hf : repoFilter db.toTables c repo = true
  · simp [hf]
  · simp [hf]

/-! ### The API follows the model -/

theorem memberRank_pos {userId : Id} {r : Option Repository} :
    0 < memberRank db.toTables userId org r ↔ (db.membership org.id userId).isSome = true := by
  unfold memberRank
  cases db.membership org.id userId with
  | none => simp
  | some m =>
    have hpos := (rankOf_permissionFromRole_pos (some m.role)).mpr rfl
    cases r with
    | none => simpa using hpos
    | some r =>
      simp only [Option.isSome_some, iff_true]
      omega

theorem isMember_eq (t : Tables) (organizationId userId : Id) :
    isMember t organizationId userId = (t.membership organizationId userId).isSome := by
  unfold isMember Tables.membership Table.find
  rw [Bool.eq_iff_iff, find?_isSome]
  simp [any_eq_true]

theorem withinList_eq (rs : TokenRestriction) (hin : repo.organizationId = org.id) :
    withinList rs.organizationId rs.repositoryIds repo =
      restrictionAllows (some rs) org.id (some repo.id) := by
  have hids : (rs.repositoryIds.all fun ids => ids.isEmpty || ids.contains repo.id) =
      rs.repositoryIds.all fun ids => (some repo.id).any ids.contains := by
    have hlisted := rs.listed
    cases hl : rs.repositoryIds with
    | none => rfl
    | some ids =>
      have hne : ids.isEmpty = false := by
        rw [isEmpty_eq_false_iff]
        intro he
        exact hlisted (by rw [hl, he])
      simp [hne]
  unfold withinList restrictionAllows
  rw [hids, hin, Option.all_some, decide_eq_decide.mpr (eq_comm (b := rs.organizationId))]

/-- The rank a user's role and grants give, before scope and restriction. -/
def ownRank (t : Tables) (u : UserCaller) (org : Organization) (repo : Repository) : Nat :=
  if u.isAdmin then 3 else memberRank t u.userId org (some repo)

theorem repoFilter_user (hin : repo.organizationId = org.id) (u : UserCaller) :
    repoFilter db.toTables (.user u) repo = true ↔
      (0 < ownRank db.toTables u org repo ∨ repo.visibility = .public_) ∧
        restrictionAllows u.restriction org.id (some repo.id) = true := by
  have hwithin : (u.restriction.all fun rs =>
      withinList rs.organizationId rs.repositoryIds repo) =
        restrictionAllows u.restriction org.id (some repo.id) := by
    cases u.restriction with
    | none => rfl
    | some rs => exact withinList_eq rs hin
  unfold repoFilter
  rw [Bool.and_eq_true, hwithin]
  simp only [Caller.viewer, visibleRepositoriesFilter, hin, isMember_eq, ownRank]
  cases u.isAdmin with
  | true => simp
  | false =>
    simp only [Bool.false_or, Bool.or_eq_true, decide_eq_true_eq, Bool.false_eq_true, if_false,
      memberRank_pos]
    rw [or_comm]

theorem userCan_iff (db : Database) (u : UserCaller) (org : Organization) (repo : Repository) :
    ((userCan db.toTables u (orgRole db.toTables (.user u) org.id) org repo).write = true ↔
      u.patScope ≠ some .read ∧ restrictionAllows u.restriction org.id (some repo.id) = true ∧
        2 ≤ ownRank db.toTables u org repo) ∧
    ((userCan db.toTables u (orgRole db.toTables (.user u) org.id) org repo).delete = true ↔
      u.patScope ≠ some .read ∧ restrictionAllows u.restriction org.id (some repo.id) = true ∧
        3 ≤ ownRank db.toTables u org repo) := by
  unfold userCan orgRole ownRank memberRank
  cases ha : u.isAdmin with
  | true => simp [ha, managerRoles, writerRoles]
  | false =>
    cases hm : db.membership org.id u.userId with
    | none => simp [ha, hm]
    | some m =>
      have hw := mem_writerRoles_iff m.role
      have hman := mem_managerRoles_iff m.role
      have hpush := push_or_admin_iff_rank (grantedPermission db.toTables u.userId repo.id)
      have hadmin := eq_admin_iff_rank (grantedPermission db.toTables u.userId repo.id)
      have hmax (k a b : Nat) : k ≤ max a b ↔ k ≤ a ∨ k ≤ b := by omega
      constructor
      · simp [ha, hm, hw, or_assoc, hpush, and_assoc, hmax]
      · simp [ha, hm, hman, hadmin, and_assoc, hmax]

/-- The repository is missing from the caller's list, in the caller's own
organization, and yet visible to the API. -/
def ListGap (c : Caller) (org : Organization) (repo : Repository) : Prop :=
  match c with
  | .sa s => s.organizationId = org.id ∧ ∃ ids, s.repositoryIds = some ids ∧
      repo.id ∉ ids ∧ (repo.visibility = .public_ ∨ ids = [])
  | _ => False

theorem apiGrants_user_iff (hx : Existing db org repo) (u : UserCaller) (a : RegistryAction) :
    ApiGrants db.toTables (.user u) org.slug repo.name a ↔
      a.rank ≤ userRank db.toTables u org (some repo) (some repo.visibility) := by
  obtain ⟨hw, hd⟩ := userCan_iff db u org repo
  rw [apiGrants_iff_can hx, repoFilter_user hx.owner]
  -- the model's rank before scope and restriction, as the doors see it
  have hrank : userRank db.toTables u org (some repo) (some repo.visibility) =
      if restrictionAllows u.restriction org.id (some repo.id) then
        if u.patScope = some .read then
          min 1 (seenRank (ownRank db.toTables u org repo) (some repo.visibility))
        else seenRank (ownRank db.toTables u org repo) (some repo.visibility)
      else 0 := by
    unfold userRank ownRank
    cases u.isAdmin <;> simp [seenRank]
  rw [hrank]
  generalize ownRank db.toTables u org repo = n at hw hd ⊢
  have hone := one_le_seenRank n (some repo.visibility)
  by_cases hr : restrictionAllows u.restriction org.id (some repo.id) = true
  · rw [if_pos hr, le_scopedRank]
    cases a with
    | pull => simp [rank, hone, hr]
    | push =>
      show _ ∧ (userCan db.toTables u _ org repo).write = true ↔ 2 ≤ _ ∧ (_ → 2 ≤ 1)
      rw [hw, le_seenRank (Nat.le_refl 2)]
      by_cases hs : u.patScope = some .read
      · simp [hs]
      · simp only [hr, hs, ne_eq, not_false_eq_true, true_and, false_implies, and_true]
        exact ⟨fun h => h.2, fun h => ⟨.inl (by omega), h⟩⟩
    | delete =>
      show _ ∧ (userCan db.toTables u _ org repo).delete = true ↔ 3 ≤ _ ∧ (_ → 3 ≤ 1)
      rw [hd, le_seenRank (by omega : 2 ≤ 3)]
      by_cases hs : u.patScope = some .read
      · simp [hs]
      · simp only [hr, hs, ne_eq, not_false_eq_true, true_and, false_implies, and_true]
        exact ⟨fun h => h.2, fun h => ⟨.inl (by omega), h⟩⟩
  · rw [if_neg hr]
    cases a <;> simp [hr, rank]

theorem apiGrants_sa_iff (hx : Existing db org repo)
    (s : ServiceCaller) (hgap : ¬ ListGap (.sa s) org repo) (a : RegistryAction) :
    ApiGrants db.toTables (.sa s) org.slug repo.name a ↔
      a.rank ≤ saRank s org (some repo) (some repo.visibility) := by
  rw [apiGrants_iff_can hx]
  simp only [callerCan, saCan, saRank, repoFilter, withinList, hx.owner]
  by_cases ho : s.organizationId = org.id
  · cases hids : s.repositoryIds with
    | none =>
      cases a <;> cases s.permission <;> simp [ho, rank, RepoPermission.rank]
    | some ids =>
      by_cases hl : repo.id ∈ ids
      · cases a <;> cases s.permission <;>
          simp [ho, hl, rank, RepoPermission.rank]
      · have hno : ¬ (repo.visibility = .public_ ∨ ids = []) :=
          fun h => hgap ⟨ho, ids, hids, hl, h⟩
        rw [not_or] at hno
        cases a <;> simp [ho, hl, hno, rank]
  · have ho' : ¬ org.id = s.organizationId := fun h => ho h.symm
    by_cases hv : repo.visibility = .public_
    · cases a <;> simp [ho, hv, seenRank, rank]
    · cases a <;> simp [ho, ho', hv, seenRank, rank]

theorem apiGrants_iff (hx : Existing db org repo) (hgap : ¬ ListGap c org repo) (a : RegistryAction) :
    ApiGrants db.toTables c org.slug repo.name a ↔
      a.rank ≤ callerRank db.toTables c org (some repo) (some repo.visibility) := by
  cases c with
  | anonymous =>
    rw [apiGrants_iff_can hx]
    by_cases hv : repo.visibility = .public_
    · cases a <;> simp [repoFilter, callerCan, callerRank, hv, seenRank, rank]
    · cases a <;> simp [repoFilter, callerRank, hv, seenRank, rank]
  | user u => exact apiGrants_user_iff hx u a
  | sa s => exact apiGrants_sa_iff hx s hgap a

theorem ListGap.found (hx : Existing db org repo) (hgap : ListGap c org repo) :
    ApiGrants db.toTables c org.slug repo.name .pull ∧
      callerRank db.toTables c org (some repo) (some repo.visibility) = 0 := by
  cases c with
  | anonymous | user u => exact hgap.elim
  | sa s =>
    obtain ⟨ho, ids, hids, hl, hv⟩ := hgap
    rw [apiGrants_iff_can hx]
    constructor
    · rcases hv with hv | hv
      · simp [repoFilter, hv]
      · simp [repoFilter, withinList, hx.owner, ho, hids, hv]
    · simp [callerRank, saRank, ho, hids, hl]

/-! ### The pages follow the API -/

theorem getRepoContext_existing (hx : Existing db org repo) (session : Option Session) :
    ∃ ctx, getRepoContext db.toTables session org.slug repo.name = some ctx ∧
      ctx.repo = repo ∧ ctx.role = getOrgRole db.toTables session org.id ∧
      ctx.permission = (session.bind fun s => effectivePermission db.toTables s.userId s.isAdmin
        (getOrgRole db.toTables session org.id) repo.id) ∧
      (ctx.can.write = true ↔ 2 ≤ rankOf ctx.permission) ∧
      (ctx.can.delete = true ↔ 3 ≤ rankOf ctx.permission) := by
  have hfind : db.repositoryByPath org.id repo.name = some repo := by
    rw [← hx.owner]
    exact db.repositoryByPath_mem hx.stored
  unfold getRepoContext
  rw [db.organizationBySlug_mem hx.listed]
  simp only [hfind]
  refine ⟨_, rfl, rfl, rfl, rfl, ?_, ?_⟩
  · rw [← push_or_admin_iff_rank]
    simp
  · rw [← eq_admin_iff_rank]
    simp

theorem rankOf_sessionPermission (db : Database) (s : Session) (org : Organization)
    (repo : Repository) :
    rankOf (effectivePermission db.toTables s.userId s.isAdmin
      (getOrgRole db.toTables (some s) org.id) repo.id) =
      if s.isAdmin then 3 else memberRank db.toTables s.userId org (some repo) := by
  unfold getOrgRole memberRank
  cases ha : s.isAdmin with
  | true => rfl
  | false =>
    cases hm : db.membership org.id s.userId with
    | none => simp [ha, hm, effectivePermission, permissionFromRole, rankOf]
    | some m =>
      simp only [ha, hm, Bool.false_eq_true, if_false, Option.map_some]
      exact rankOf_effectivePermission

theorem getOrgRole_isSome (db : Database) (s : Session) (org : Organization) (repo : Repository) :
    (getOrgRole db.toTables (some s) org.id).isSome = true ↔
      0 < if s.isAdmin then 3 else memberRank db.toTables s.userId org (some repo) := by
  unfold getOrgRole
  cases ha : s.isAdmin with
  | true => simp [ha]
  | false => simp [ha, memberRank_pos]

theorem callerRank_session (t : Tables) (s : Session) (org : Organization) (repo : Repository) :
    callerRank t s.caller org (some repo) (some repo.visibility) =
      seenRank (if s.isAdmin then 3 else memberRank t s.userId org (some repo))
        (some repo.visibility) := by
  show userRank t { userId := s.userId, isAdmin := s.isAdmin } org (some repo)
    (some repo.visibility) = _
  cases ha : s.isAdmin <;> simp [userRank, restrictionAllows, seenRank]

theorem pageGrants_iff (hx : Existing db org repo) (s : Session) (a : RegistryAction) :
    PageGrants db.toTables s org.slug repo.name a ↔
      a.rank ≤ callerRank db.toTables s.caller org (some repo) (some repo.visibility) := by
  obtain ⟨ctx, hctx, hr, hrole, hperm, hwrite, hdelete⟩ := getRepoContext_existing hx (some s)
  have hrank : rankOf ctx.permission = if s.isAdmin then 3
      else memberRank db.toTables s.userId org (some repo) := by
    rw [hperm]
    exact rankOf_sessionPermission db s org repo
  have hopen := getOrgRole_isSome db s org repo
  rw [← hrole] at hopen
  rw [callerRank_session]
  rw [hrank] at hwrite hdelete
  generalize (if s.isAdmin then 3
    else memberRank db.toTables s.userId org (some repo)) = n at hwrite hdelete hopen ⊢
  unfold PageGrants
  simp only [hctx, Option.some.injEq, exists_eq_left']
  cases a with
  | pull =>
    show ctx.opens = true ↔ 1 ≤ _
    rw [one_le_seenRank, ← hopen, RepoContext.opens, hr]
    cases repo.visibility <;> simp
  | push => exact hwrite.trans (le_seenRank (Nat.le_refl 2) _).symm
  | delete => exact hdelete.trans (le_seenRank (by omega : 2 ≤ 3) _).symm

theorem memberRank_addGrant (t : Tables) (g : RepositoryGrant) (userId : Id)
    (org : Organization) (r : Option Repository) :
    memberRank t userId org r ≤ memberRank (t.addGrant g) userId org r := by
  show memberRank t userId org r ≤ match t.membership org.id userId, r with
    | none, _ => 0
    | some m, none => rankOf (permissionFromRole (some m.role))
    | some m, some r => max (rankOf (permissionFromRole (some m.role)))
        (rankOf (grantedPermission (t.addGrant g) userId r.id))
  unfold memberRank
  cases t.membership org.id userId with
  | none => exact Nat.le_refl _
  | some m =>
    cases r with
    | none => exact Nat.le_refl _
    | some r =>
      have h := rankOf_grantedPermission_le (t := t) g userId r.id
      show max _ _ ≤ max _ _
      omega

theorem seenRank_mono (h : m ≤ n) (visibility : Option Visibility) :
    seenRank m visibility ≤ seenRank n visibility := by
  unfold seenRank
  split
  · split
    · exact Nat.le_refl _
    · rename_i h1 h2
      have hn : n ≠ 0 := fun hn => h2 ⟨hn, h1.2⟩
      omega
  · split
    · rename_i h1 h2
      have hm : m = 0 := by omega
      exact absurd ⟨hm, h2.2⟩ h1
    · exact h

theorem callerRank_addGrant (t : Tables) (g : RepositoryGrant) (c : Caller)
    (org : Organization) (r : Option Repository) (visibility : Option Visibility) :
    callerRank t c org r visibility ≤ callerRank (t.addGrant g) c org r visibility := by
  cases c with
  | anonymous | sa s => exact Nat.le_refl _
  | user u =>
    have h := seenRank_mono (memberRank_addGrant t g u.userId org r) visibility
    show userRank t u org r visibility ≤ userRank (t.addGrant g) u org r visibility
    unfold userRank
    dsimp only
    split
    · split
      · split <;> omega
      · split <;> omega
    · exact Nat.le_refl _

def Database.addGrant (db : Database) (g : RepositoryGrant) : Database :=
  { db with toTables := db.toTables.addGrant g }

end existing

end Chicoree.Web

/-! ## One access model behind every door

Outside proxy caches the three doors agree but for two kinds of repositories: one with
a nested name, left over from a proxy cache, which the token service refuses to
everyone; and one missing from a service account's list in the account's own
organization, which the API finds where it is public or the list is empty. -/

namespace Chicoree.Web

/-! ## Agreement -/

/-- The doors agree on a repository for a caller, and no grant takes anything away. -/
structure OneAccessModel (db : Database) (c : Caller) (org : Organization)
    (repo : Repository) : Prop where
  token_api : ∀ requested, ∀ a ∈ requested,
    (a ∈ allowedRepositoryActions db.toTables c org.slug repo.name requested ↔
      ApiGrants db.toTables c org.slug repo.name a)
  page_token : ∀ s : Session, c = s.caller → ∀ requested, ∀ a ∈ requested,
    (PageGrants db.toTables s org.slug repo.name a ↔
      a ∈ allowedRepositoryActions db.toTables c org.slug repo.name requested)
  page_api : ∀ s : Session, c = s.caller → ∀ a, (PageGrants db.toTables s org.slug repo.name a ↔
      ApiGrants db.toTables c org.slug repo.name a)
  token_mono : ∀ g requested, ∀ a ∈
    allowedRepositoryActions db.toTables c org.slug repo.name requested,
    a ∈ allowedRepositoryActions (db.toTables.addGrant g) c org.slug repo.name requested
  api_mono : ∀ g a, ApiGrants db.toTables c org.slug repo.name a →
    ApiGrants (db.toTables.addGrant g) c org.slug repo.name a
  page_mono : ∀ (s : Session) g a, PageGrants db.toTables s org.slug repo.name a →
    PageGrants (db.toTables.addGrant g) s org.slug repo.name a

/-- The condition: a nested name is invisible to the caller, any other repository is
not missing from their list while the API sees it. -/
def NoGap (db : Database) (c : Caller) (org : Organization) (repo : Repository) : Prop :=
  if isNested repo.name then repoFilter db.toTables c repo = false
  else ¬ ListGap c org repo

variable {db : Database} {org : Organization} {repo : Repository}

theorem NoGap.of_found {c : Caller}
    (h : NoGap db c org repo) (hf : repoFilter db.toTables c repo = true) :
    isNested repo.name = false ∧ ¬ ListGap c org repo := by
  unfold NoGap at h
  split at h
  · rw [hf] at h
    contradiction
  · rename_i hn
    exact ⟨by simpa using hn, h⟩

theorem token_api_iff {c : Caller} (hx : Existing db org repo)
    (h : NoGap db c org repo) (a : RegistryAction) :
    TokenGrants db.toTables c org.slug repo.name a ↔
      ApiGrants db.toTables c org.slug repo.name a := by
  rw [tokenGrants_iff hx]
  by_cases hf : repoFilter db.toTables c repo = true
  · obtain ⟨hn, hgap⟩ := h.of_found hf
    rw [apiGrants_iff hx hgap]
    simp [hn]
  · have hno : ¬ ApiGrants db.toTables c org.slug repo.name a := fun ha =>
      hf ((apiGrants_iff_can hx c a).mp ha).1
    simp only [hno, iff_false, not_and]
    intro hn hle
    unfold NoGap at h
    rw [if_neg (by simp [hn])] at h
    exact hno ((apiGrants_iff hx h a).mpr hle)

theorem page_api_iff (hx : Existing db org repo) (s : Session) (a : RegistryAction) :
    PageGrants db.toTables s org.slug repo.name a ↔
      ApiGrants db.toTables s.caller org.slug repo.name a := by
  have hgap : ¬ ListGap s.caller org repo := id
  rw [pageGrants_iff hx, apiGrants_iff hx hgap]

/-- **One access model.** At an existing repository of an organization that is no
proxy cache, the three doors are one model exactly where there is no gap. -/
theorem doors_agree_iff (db : Database) (c : Caller) (org : Organization) (repo : Repository)
    (horg : org ∈ db.organizations) (hrepo : repo ∈ db.repositories)
    (hin : repo.organizationId = org.id) (hproxy : db.proxyOf org.id = none) :
    OneAccessModel db c org repo ↔ NoGap db c org repo := by
  have hx : Existing db org repo := ⟨horg, hrepo, hin, hproxy⟩
  have hgranted (g : RepositoryGrant) : Existing (db.addGrant g) org repo :=
    ⟨horg, hrepo, hin, hproxy⟩
  constructor
  · intro h
    have hmem := h.token_api [.pull] .pull (by simp)
    rw [mem_allowedRepositoryActions] at hmem
    unfold NoGap
    split
    · rename_i hn
      -- the token service refuses a nested name, so the API may not find it
      by_contra hf
      have hfound : ApiGrants db.toTables c org.slug repo.name .pull :=
        (apiGrants_iff_can hx c .pull).mpr ⟨by simpa using hf, trivial⟩
      have htoken := (tokenGrants_iff hx c .pull).mp (hmem.mpr hfound).2
      rw [hn] at htoken
      exact absurd htoken.1 (by simp)
    · intro hgap
      obtain ⟨hfound, hrank⟩ := hgap.found hx
      have htoken := (tokenGrants_iff hx c .pull).mp (hmem.mpr hfound).2
      rw [hrank] at htoken
      exact absurd htoken.2 (by decide)
  · intro h
    have hagree := token_api_iff hx h
    refine ⟨?_, ?_, ?_, ?_, ?_, ?_⟩
    · intro requested a ha
      rw [mem_allowedRepositoryActions, and_iff_right ha]
      exact hagree a
    · rintro s rfl requested a ha
      rw [mem_allowedRepositoryActions, and_iff_right ha, hagree a]
      exact page_api_iff hx s a
    · rintro s rfl a
      exact page_api_iff hx s a
    · intro g requested a ha
      rw [mem_allowedRepositoryActions] at ha ⊢
      obtain ⟨hreq, hgrant⟩ := ha
      obtain ⟨hn, hle⟩ := (tokenGrants_iff hx c a).mp hgrant
      have hmono := callerRank_addGrant db.toTables g c org (some repo) (some repo.visibility)
      exact ⟨hreq, (tokenGrants_iff (hgranted g) c a).mpr
        ⟨hn, Nat.le_trans hle hmono⟩⟩
    · intro g a ha
      obtain ⟨-, hgap⟩ := h.of_found ((apiGrants_iff_can hx c a).mp ha).1
      have hle := (apiGrants_iff hx hgap a).mp ha
      have hmono := callerRank_addGrant db.toTables g c org (some repo) (some repo.visibility)
      exact (apiGrants_iff (hgranted g) hgap a).mpr
        (Nat.le_trans hle hmono)
    · intro s g a ha
      have hle := (pageGrants_iff hx s a).mp ha
      have hmono :=
        callerRank_addGrant db.toTables g s.caller org (some repo) (some repo.visibility)
      exact (pageGrants_iff (hgranted g) s a).mpr
        (Nat.le_trans hle hmono)

def toolsAccount : Caller := .sa ⟨"s1", "o1", .pull, some ["r2"]⟩

/-- The API shows the account a public repository that anybody can pull and the
token service refuses it. -/
theorem listed_account_denied :
    acme ∈ acmeDatabase.organizations ∧ publicApp ∈ acmeDatabase.repositories ∧
      publicApp.organizationId = acme.id ∧ acmeDatabase.proxyOf acme.id = none ∧
      ¬ OneAccessModel acmeDatabase toolsAccount acme publicApp := by
  refine ⟨by decide, by decide, rfl, rfl, fun h => ?_⟩
  have hmem := (h.token_api [.pull] .pull (by decide)).mpr ⟨_, rfl, trivial⟩
  exact absurd hmem (by decide)

theorem doors_agree_tools : OneAccessModel acmeDatabase toolsAccount acme privateTools :=
  (doors_agree_iff acmeDatabase toolsAccount acme privateTools (by decide) (by decide) rfl
    rfl).mpr (by
      rintro ⟨-, ids, hids, hno, -⟩
      cases hids
      exact hno (by decide))

end Chicoree.Web
