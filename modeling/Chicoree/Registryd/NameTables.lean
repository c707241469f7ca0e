import Mathlib.Data.List.Nodup
import Chicoree.Registryd.Pushes

/-! # Former names

A repository that is renamed or transferred, or whose organization is renamed, leaves its
former name behind: the web interface records it, registryd resolves an unknown name through
a snapshot of the two tables that each replica keeps for half a minute. -/

namespace Chicoree.Registryd

open List Table

/-! ## The snapshot -/

/-- A former slug, with the current one of the organization. -/
structure OrgRedirect where
  oldSlug : String
  orgId : OrgId
  slug : String

structure RepositoryRef where
  repository : Repository
  orgSlug : String
  name : String
deriving DecidableEq

/-- `RedirectTable`. A slug has no `/`, so that the pair is the key of a former name. -/
structure RedirectTable where
  orgs : List OrgRedirect
  repos : List RepositoryRedirect

def RepositoryRedirect.key (r : RepositoryRedirect) : String × String :=
  (r.organizationSlug, r.repositoryName)

namespace RedirectTable

def empty (t : RedirectTable) : Bool := t.orgs.isEmpty && t.repos.isEmpty

def org (t : RedirectTable) (oldSlug : String) : Option OrgRedirect :=
  Table.find OrgRedirect.oldSlug oldSlug t.orgs

def repo (t : RedirectTable) (orgSlug name : String) : Option RepositoryRedirect :=
  Table.find RepositoryRedirect.key (orgSlug, name) t.repos

def oldSlugs (t : RedirectTable) (orgId : OrgId) : List String :=
  (t.orgs.filter fun o => decide (o.orgId = orgId)).map (·.oldSlug)

end RedirectTable

namespace PushTables

/-- `LoadRedirects`: both tables, without rows whose target is gone. -/
def loadRedirects (t : PushTables) : RedirectTable where
  orgs := t.organizationRedirects.filterMap fun r =>
    (Table.find Organization.id r.organizationId t.db.organizations).map fun o =>
      ⟨r.oldSlug, r.organizationId, o.slug⟩
  repos := t.repositoryRedirects.filter fun r =>
    t.db.repositories.any fun repo => decide (repo.id = r.repositoryId)

end PushTables

def Db.getRepositoryById (db : Db) (id : RepoId) : Option RepositoryRef :=
  match Table.find Repository.id id db.repositories with
  | none => none
  | some r =>
    (Table.find Organization.id r.orgId db.organizations).map fun o => ⟨r, o.slug, r.name⟩

def resolveUnder (t : RedirectTable) (db : Db) (name : String) : List String →
    Option RepositoryRef
  | [] => none
  | slug :: slugs =>
    match t.repo slug name with
    | none => resolveUnder t db name slugs
    | some r =>
      match db.getRepositoryById r.repositoryId with
      | none => resolveUnder t db name slugs
      | some ref => some ref

/-- `ResolveMoved`: where a name that does not exist now lives. -/
def resolveMoved (t : RedirectTable) (db : Db) (org name : String) : Option RepositoryRef :=
  if t.empty then none
  else
    match t.org org with
    | some o =>
      match db.getRepository o.slug name with
      | some repo => some ⟨repo, o.slug, name⟩
      | none => resolveUnder t db name (org :: o.slug :: t.oldSlugs o.orgId)
    | none =>
      match db.orgIdBySlug org with
      | some orgId => resolveUnder t db name (org :: t.oldSlugs orgId)
      | none => resolveUnder t db name [org]

def PushTables.redirects (t : PushTables) (org name : String) : Bool :=
  (t.db.getRepository org name).isNone && (resolveMoved t.loadRedirects t.db org name).isSome

/-- `redirectCacheTTL`, in nanoseconds. -/
def redirectCacheTTL : Int := 30 * 1000000000

/-- The snapshot of a replica, with how many changes it has seen. -/
structure Snapshot where
  table : RedirectTable
  fetchedAt : Int
  seen : Nat

/-- `redirectCache.get`: the snapshot while it is fresh, else a new one; a reload that fails
keeps the one there is. -/
def cachedRedirects (cache : Option Snapshot) (now : Int) (load : Option Snapshot) :
    Option Snapshot :=
  match cache with
  | none => load
  | some old => if now - old.fetchedAt < redirectCacheTTL then some old else some (load.getD old)

namespace PushTables

/-- `EnsureRepository`: the repository of the name, created in its organization if there is
none; `none` where the organization does not exist. -/
def ensureRepository (t : PushTables) (org name : String) (v : Visibility) (fresh : RepoId) :
    Option (PushTables × Repository) :=
  match t.db.getRepository org name with
  | some r => some (t, r)
  | none =>
    match t.db.orgIdBySlug org with
    | none => none
    | some orgId =>
      let created := t.db.ensureRepository orgId name v fresh
      some ((t.withDb created.1).dropRedirects org name orgId, created.2)

/-! ## The web interface -/

def addRepositoryRedirect (t : PushTables) (oldSlug oldName : String) (id : RepoId) : PushTables :=
  { t with repositoryRedirects :=
      Table.upsert RepositoryRedirect.key ⟨oldSlug, oldName, id⟩ t.repositoryRedirects }

def addOrganizationRedirect (t : PushTables) (oldSlug : String) (orgId : OrgId) : PushTables :=
  { t with organizationRedirects :=
      Table.upsert OrganizationRedirect.oldSlug ⟨oldSlug, orgId⟩ t.organizationRedirects }

def clearOrganizationRedirect (t : PushTables) (slug : String) : PushTables :=
  { t with organizationRedirects :=
      t.organizationRedirects.filter fun r => decide (r.oldSlug ≠ slug) }

def updateRepository (t : PushTables) (id : RepoId) (f : Repository → Repository) : PushTables :=
  t.withDb { t.db with repositories := Table.update Repository.id id f t.db.repositories }

def nameTaken (t : PushTables) (orgId : OrgId) (name : String) : Bool :=
  t.db.repositories.any fun r => decide (r.orgId = orgId ∧ r.name = name)

/-- `renameRepository`, past the checks of permission, proxy caches and the form of the
name. -/
def renameRepository (t : PushTables) (id : RepoId) (newName : String) : Option PushTables :=
  match Table.find Repository.id id t.db.repositories with
  | none => none
  | some repo =>
    match Table.find Organization.id repo.orgId t.db.organizations with
    | none => none
    | some org =>
      if newName = repo.name ∨ t.nameTaken org.id newName then none
      else
        let t := t.updateRepository id fun r => { r with name := newName }
        some ((t.dropRedirects org.slug newName org.id).addRepositoryRedirect org.slug repo.name
          id)

/-- `moveRepositoryToOrganization`, past the checks of permission, proxy caches and quotas. -/
def transferRepository (t : PushTables) (id : RepoId) (targetId : OrgId) : Option PushTables :=
  match Table.find Repository.id id t.db.repositories with
  | none => none
  | some repo =>
    match Table.find Organization.id repo.orgId t.db.organizations,
        Table.find Organization.id targetId t.db.organizations with
    | some source, some target =>
      if target.id = source.id ∨ t.nameTaken target.id repo.name then none
      else
        let t := t.updateRepository id fun r => { r with orgId := target.id }
        some ((t.dropRedirects target.slug repo.name target.id).addRepositoryRedirect source.slug
          repo.name id)
    | _, _ => none

/-- `renameOrganization`, past the checks of the role and of the form of the slug. -/
def renameOrganization (t : PushTables) (orgId : OrgId) (newSlug : String) : Option PushTables :=
  match Table.find Organization.id orgId t.db.organizations with
  | none => none
  | some org =>
    if newSlug = org.slug ∨ t.db.organizations.any (fun o => decide (o.slug = newSlug)) then none
    else
      let organizations := Table.update Organization.id orgId
        (fun o => { o with slug := newSlug }) t.db.organizations
      some (((t.withDb { t.db with organizations := organizations }).clearOrganizationRedirect
        newSlug).addOrganizationRedirect org.slug orgId)

def createRepository (t : PushTables) (orgId : OrgId) (name : String) (v : Visibility)
    (fresh : RepoId) : Option PushTables :=
  match Table.find Organization.id orgId t.db.organizations with
  | none => none
  | some org =>
    if t.nameTaken orgId name ∨ t.db.repositories.any (fun r => decide (r.id = fresh)) then none
    else
      let db := { t.db with repositories := t.db.repositories ++ [⟨fresh, orgId, name, v⟩] }
      some ((t.withDb db).dropRedirects org.slug name orgId)

end PushTables

/-! ## The tables of names

What keeps the names of repositories and organizations well formed, and how far a change can
lead a name elsewhere: only by leaving it, or by giving its slug to an organization. -/

inductive Departure where
  | left (org name : String)
  | took (slug : String)
deriving DecidableEq

inductive NameChange where
  | renameRepository (id : RepoId) (newName : String)
  | transferRepository (id : RepoId) (targetId : OrgId)
  | renameOrganization (orgId : OrgId) (newSlug : String)
  | createRepository (orgId : OrgId) (name : String) (v : Visibility) (fresh : RepoId)

def leaving (t : PushTables) (id : RepoId) : List Departure :=
  ((t.db.getRepositoryById id).map fun ref => .left ref.orgSlug ref.name).toList

def NameChange.apply (t : PushTables) : NameChange → Option (PushTables × List Departure)
  | .renameRepository id newName =>
    (t.renameRepository id newName).map fun t' => (t', leaving t id)
  | .transferRepository id targetId =>
    (t.transferRepository id targetId).map fun t' => (t', leaving t id)
  | .renameOrganization orgId newSlug =>
    (t.renameOrganization orgId newSlug).map fun t' => (t', [.took newSlug])
  | .createRepository orgId name v fresh =>
    (t.createRepository orgId name v fresh).map fun t' => (t', [])

/-! ## Well-formed names -/

/-- Rows under their keys, redirects to rows that exist, and no organization under a former
slug. -/
structure PushTables.WellNamed (t : PushTables) : Prop where
  orgs : Table.Keyed Organization.id t.db.organizations
  slugs : Table.Keyed Organization.slug t.db.organizations
  redirects : Table.Keyed RepositoryRedirect.key t.repositoryRedirects
  current : ∀ o ∈ t.db.organizations, ∀ r ∈ t.organizationRedirects, r.oldSlug ≠ o.slug
  formerOrgs : ∀ r ∈ t.organizationRedirects, ∃ o ∈ t.db.organizations, o.id = r.organizationId
  targets : ∀ r ∈ t.repositoryRedirects, ∃ repo ∈ t.db.repositories, repo.id = r.repositoryId
  owners : ∀ repo ∈ t.db.repositories, ∃ o ∈ t.db.organizations, o.id = repo.orgId

section names

variable {t t' : PushTables} {org name : String} {orgId : OrgId}

/-- A row that redirects the name of an organization's repository. -/
def Leads (t : PushTables) (org name : String) (orgId : OrgId) (r : RepositoryRedirect) : Prop :=
  r ∈ t.repositoryRedirects ∧ r.repositoryName = name ∧
    (r.organizationSlug = org ∨ ⟨r.organizationSlug, orgId⟩ ∈ t.organizationRedirects)

/-- The name leads nowhere it did not lead before. -/
def Narrows (t t' : PushTables) (org name : String) : Prop :=
  ∀ orgId, t'.db.orgIdBySlug org = some orgId → t.db.orgIdBySlug org = some orgId ∧
    ∀ r, Leads t' org name orgId r → Leads t org name orgId r

/-- A step of the tables keeps the names well formed, and narrows every name it neither leaves
nor takes. -/
structure Evolves (t t' : PushTables) (new : List Departure) : Prop where
  wellNamed : t'.WellNamed
  narrows : ∀ org name, (∀ d ∈ new, d ≠ .left org name ∧ d ≠ .took org) → Narrows t t' org name

theorem orgIdBySlug_eq_some (h : t.WellNamed) : t.db.orgIdBySlug org = some orgId ↔
      ∃ o ∈ t.db.organizations, o.slug = org ∧ o.id = orgId := by
  unfold Db.orgIdBySlug
  rw [Option.map_eq_some_iff]
  constructor
  · rintro ⟨o, hfind, hid⟩
    obtain ⟨hmem, hslug⟩ := find_some hfind
    exact ⟨o, hmem, hslug, hid⟩
  · rintro ⟨o, hmem, rfl, hid⟩
    exact ⟨o, h.slugs.find_self hmem, hid⟩

variable {new : List Departure}

theorem evolves_of_rows (h : t.WellNamed) (horgs : t'.db.organizations = t.db.organizations)
    (hformer : t'.organizationRedirects = t.organizationRedirects)
    (hkeyed : Table.Keyed RepositoryRedirect.key t'.repositoryRedirects)
    (hrepos : ∀ repo ∈ t.db.repositories, ∃ repo' ∈ t'.db.repositories, repo'.id = repo.id)
    (howners : ∀ repo ∈ t'.db.repositories, ∃ o ∈ t.db.organizations, o.id = repo.orgId)
    (hrows : ∀ r ∈ t'.repositoryRedirects, r ∈ t.repositoryRedirects ∨
      Departure.left r.organizationSlug r.repositoryName ∈ new ∧
        (∃ o ∈ t.db.organizations, o.slug = r.organizationSlug) ∧
        ∃ repo ∈ t.db.repositories, repo.id = r.repositoryId) : Evolves t t' new := by
  constructor
  · refine ⟨horgs ▸ h.orgs, horgs ▸ h.slugs, hkeyed, ?_, ?_, fun r hr => ?_, ?_⟩
    · rw [horgs, hformer]
      exact h.current
    · rw [horgs, hformer]
      exact h.formerOrgs
    · have htarget : ∃ repo ∈ t.db.repositories, repo.id = r.repositoryId := by
        rcases hrows r hr with hold | ⟨-, -, htarget⟩
        · exact h.targets r hold
        · exact htarget
      obtain ⟨repo, hrepo, hid⟩ := htarget
      obtain ⟨repo', hrepo', hid'⟩ := hrepos repo hrepo
      exact ⟨repo', hrepo', hid'.trans hid⟩
    · rw [horgs]
      exact howners
  · intro org name hnew orgId horg
    have hsame : t'.db.orgIdBySlug org = t.db.orgIdBySlug org := by
      unfold Db.orgIdBySlug
      rw [horgs]
    refine ⟨hsame ▸ horg, fun r hleads => ?_⟩
    obtain ⟨hr, hname, hslug⟩ := hleads
    rw [hformer] at hslug
    refine ⟨?_, hname, hslug⟩
    rcases hrows r hr with hold | ⟨hleft, ⟨o, ho, hcurrent⟩, -⟩
    · exact hold
    · rcases hslug with hslug | hslug
      · rw [hslug, hname] at hleft
        exact absurd rfl (hnew _ hleft).1
      · -- a current slug is no former one
        exact absurd hcurrent.symm (h.current o ho _ hslug)

variable {source : Organization}

variable {id : RepoId} {repo : Repository}

theorem leaving_eq (hrepo : Table.find Repository.id id t.db.repositories = some repo)
    (hsource : Table.find Organization.id repo.orgId t.db.organizations = some source) :
    leaving t id = [.left source.slug repo.name] := by
  unfold leaving Db.getRepositoryById
  rw [hrepo]
  simp only [hsource, Option.map_some, Option.toList_some]

theorem evolves_moved (h : t.WellNamed)
    (hrepo : Table.find Repository.id id t.db.repositories = some repo)
    (hsource : Table.find Organization.id repo.orgId t.db.organizations = some source)
    (f : Repository → Repository) (hf : ∀ r, (f r).id = r.id)
    (howner : ∃ o ∈ t.db.organizations, ∀ r : Repository, r.id = id → r ∈ t.db.repositories →
      o.id = (f r).orgId ∨ (f r).orgId = r.orgId)
    (slug n : String) (o : OrgId) :
    Evolves t (((t.updateRepository id f).dropRedirects slug n o).addRepositoryRedirect
      source.slug repo.name id) (leaving t id) := by
  obtain ⟨hrepoMem, hrepoId⟩ := find_some hrepo
  obtain ⟨hsourceMem, -⟩ := find_some hsource
  refine evolves_of_rows h rfl rfl ((h.redirects.filter _).upsert _) (fun r hr => ?_)
    (fun r hr => ?_) fun r hr => ?_
  · have hids : (t.updateRepository id f).db.repositories.map Repository.id =
        t.db.repositories.map Repository.id := keys_update hf
    have hmem : r.id ∈ (t.updateRepository id f).db.repositories.map Repository.id :=
      hids ▸ mem_map_of_mem hr
    exact mem_map.mp hmem
  · rcases mem_update hr with ⟨hold, -⟩ | ⟨old, hold, hid, rfl⟩
    · exact h.owners r hold
    · obtain ⟨o', ho', hmoved⟩ := howner
      rcases hmoved old hid hold with hid | hsame
      · exact ⟨o', ho', hid⟩
      · rw [hsame]
        exact h.owners old hold
  · rcases mem_of_mem_upsert hr with hold | rfl
    · exact .inl (mem_filter.mp hold).1
    · refine .inr ⟨?_, ⟨source, hsourceMem, rfl⟩, repo, hrepoMem, hrepoId⟩
      rw [leaving_eq hrepo hsource]
      exact mem_singleton_self _

variable {newName : String}

theorem renameRepository_cases (hs : t.renameRepository id newName = some t') :
    ∃ repo o, Table.find Repository.id id t.db.repositories = some repo ∧
      Table.find Organization.id repo.orgId t.db.organizations = some o ∧
      t.nameTaken o.id newName = false ∧
      t' = ((t.updateRepository id fun r => { r with name := newName }).dropRedirects o.slug
        newName o.id).addRepositoryRedirect o.slug repo.name id := by
  unfold PushTables.renameRepository at hs
  cases hrepo : Table.find Repository.id id t.db.repositories with
  | none => simp [hrepo] at hs
  | some repo =>
    cases horg : Table.find Organization.id repo.orgId t.db.organizations with
    | none => simp [hrepo, horg] at hs
    | some o =>
      simp only [hrepo, horg] at hs
      split at hs
      · cases hs
      · rename_i hfree
        rw [not_or, Bool.not_eq_true] at hfree
        exact ⟨repo, o, rfl, horg, hfree.2, (Option.some.inj hs).symm⟩

variable {targetId : OrgId}

theorem transferRepository_cases (hs : t.transferRepository id targetId = some t') :
    ∃ repo source target, Table.find Repository.id id t.db.repositories = some repo ∧
      Table.find Organization.id repo.orgId t.db.organizations = some source ∧
      Table.find Organization.id targetId t.db.organizations = some target ∧
      t.nameTaken target.id repo.name = false ∧
      t' = ((t.updateRepository id fun r => { r with orgId := target.id }).dropRedirects
        target.slug repo.name target.id).addRepositoryRedirect source.slug repo.name id := by
  unfold PushTables.transferRepository at hs
  cases hrepo : Table.find Repository.id id t.db.repositories with
  | none => simp [hrepo] at hs
  | some repo =>
    cases horg : Table.find Organization.id repo.orgId t.db.organizations with
    | none => simp [hrepo, horg] at hs
    | some source =>
      cases htarget : Table.find Organization.id targetId t.db.organizations with
      | none => simp [hrepo, horg, htarget] at hs
      | some target =>
        simp only [hrepo, horg, htarget] at hs
        split at hs
        · cases hs
        · rename_i hfree
          rw [not_or, Bool.not_eq_true] at hfree
          exact ⟨repo, source, target, rfl, horg, rfl, hfree.2, (Option.some.inj hs).symm⟩

variable {v : Visibility} {fresh : RepoId}

theorem createRepository_cases (hs : t.createRepository orgId name v fresh = some t') :
    ∃ o, Table.find Organization.id orgId t.db.organizations = some o ∧
      t.nameTaken orgId name = false ∧ (∀ r ∈ t.db.repositories, r.id ≠ fresh) ∧
      t' = (t.withDb { t.db with
        repositories := t.db.repositories ++ [⟨fresh, orgId, name, v⟩] }).dropRedirects o.slug
          name orgId := by
  unfold PushTables.createRepository at hs
  cases horg : Table.find Organization.id orgId t.db.organizations with
  | none => simp [horg] at hs
  | some o =>
    simp only [horg] at hs
    split at hs
    · cases hs
    · rename_i hfree
      rw [not_or, Bool.not_eq_true] at hfree
      obtain ⟨hname, hfresh⟩ := hfree
      refine ⟨o, rfl, hname, fun r hr heq => ?_, (Option.some.inj hs).symm⟩
      exact hfresh (any_eq_true.mpr ⟨r, hr, decide_eq_true heq⟩)

variable {r : Repository}

theorem ensureRepository_cases (h : t.WellNamed)
    (hs : t.ensureRepository org name v fresh = some (t', r)) :
    t' = t ∨ ∃ o ∈ t.db.organizations, o.slug = org ∧ t.nameTaken o.id name = false ∧
      t' = (t.withDb { t.db with
        repositories := t.db.repositories ++ [⟨fresh, o.id, name, v⟩] }).dropRedirects org
          name o.id := by
  unfold PushTables.ensureRepository at hs
  cases hget : t.db.getRepository org name with
  | some found =>
    simp only [hget] at hs
    cases hs
    exact .inl rfl
  | none =>
    cases horg : t.db.orgIdBySlug org with
    | none => simp [hget, horg] at hs
    | some orgId =>
      simp only [hget, horg] at hs
      cases hs
      obtain ⟨o, ho, hslug, rfl⟩ := (orgIdBySlug_eq_some h).mp horg
      have hnone : Table.find (fun r : Repository => (r.orgId, r.name)) (o.id, name)
          t.db.repositories = none := by
        unfold Db.getRepository at hget
        rw [horg] at hget
        exact hget
      have hcreated : t.db.ensureRepository o.id name v fresh =
          ({ t.db with repositories := t.db.repositories ++ [⟨fresh, o.id, name, v⟩] },
            ⟨fresh, o.id, name, v⟩) := by
        unfold Db.ensureRepository
        rw [hnone]
      rw [hcreated]
      refine .inr ⟨o, ho, hslug, ?_, rfl⟩
      refine any_eq_false.mpr fun x hx hboth => ?_
      obtain ⟨hid, hname⟩ := of_decide_eq_true hboth
      exact find_none hnone hx (Prod.ext hid hname)

theorem evolves_rename (h : t.WellNamed)
    (hs : t.renameRepository id newName = some t') : Evolves t t' (leaving t id) := by
  obtain ⟨repo, source, hrepo, horg, -, rfl⟩ := renameRepository_cases hs
  exact evolves_moved h hrepo horg (fun r => { r with name := newName }) (fun _ => rfl)
    ⟨source, (find_some horg).1, fun _ _ _ => .inr rfl⟩ _ _ _

theorem evolves_transfer (h : t.WellNamed)
    (hs : t.transferRepository id targetId = some t') : Evolves t t' (leaving t id) := by
  obtain ⟨repo, source, target, hrepo, horg, htarget, -, rfl⟩ := transferRepository_cases hs
  exact evolves_moved h hrepo horg (fun r => { r with orgId := target.id }) (fun _ => rfl)
    ⟨target, (find_some htarget).1, fun _ _ _ => .inl rfl⟩ _ _ _

variable {o : Organization}

theorem evolves_created (h : t.WellNamed) (repo : Repository)
    (ho : o ∈ t.db.organizations) (hid : o.id = repo.orgId) (slug : String) :
    Evolves t ((t.withDb { t.db with repositories := t.db.repositories ++ [repo] }).dropRedirects
      slug repo.name repo.orgId) [] := by
  refine evolves_of_rows h rfl rfl (h.redirects.filter _) (fun r hr => ?_) (fun r hr => ?_)
    fun r hr => .inl (mem_filter.mp hr).1
  · exact ⟨r, mem_append_left _ hr, rfl⟩
  · rcases mem_append.mp hr with hold | hnew
    · exact h.owners r hold
    · rw [mem_singleton.mp hnew]
      exact ⟨o, ho, hid⟩

theorem evolves_create (h : t.WellNamed) (hs : t.createRepository orgId name v fresh = some t') :
    Evolves t t' [] := by
  obtain ⟨o, horg, -, -, rfl⟩ := createRepository_cases hs
  obtain ⟨ho, hid⟩ := find_some horg
  exact evolves_created h ⟨fresh, orgId, name, v⟩ ho hid o.slug

theorem evolves_ensure (h : t.WellNamed) (hs : t.ensureRepository org name v fresh = some (t', r)) :
    Evolves t t' [] := by
  rcases ensureRepository_cases h hs with rfl | ⟨o, ho, -, -, rfl⟩
  · exact evolves_of_rows h rfl rfl h.redirects (fun repo hrepo => ⟨repo, hrepo, rfl⟩) h.owners
      fun r hr => .inl hr
  · exact evolves_created h ⟨fresh, o.id, name, v⟩ ho rfl org

def reslugged (t : PushTables) (source : Organization) (newSlug : String) : PushTables :=
  let organizations := Table.update Organization.id source.id
    (fun o => { o with slug := newSlug }) t.db.organizations
  ((t.withDb { t.db with organizations := organizations }).clearOrganizationRedirect
    newSlug).addOrganizationRedirect source.slug source.id

variable {newSlug : String}

theorem mem_reslugged (h : o ∈ (reslugged t source newSlug).db.organizations) :
    (o ∈ t.db.organizations ∧ o.id ≠ source.id) ∨ (o.id = source.id ∧ o.slug = newSlug) := by
  rcases mem_update h with hold | ⟨old, -, hid, rfl⟩
  · exact .inl hold
  · exact .inr ⟨hid, rfl⟩

theorem mem_reslugged_redirects
    {r : OrganizationRedirect} (h : r ∈ (reslugged t source newSlug).organizationRedirects) :
    (r ∈ t.organizationRedirects ∧ r.oldSlug ≠ newSlug) ∨ r = ⟨source.slug, source.id⟩ := by
  rcases mem_of_mem_upsert h with hold | hnew
  · obtain ⟨hmem, hne⟩ := mem_filter.mp hold
    exact .inl ⟨hmem, of_decide_eq_true hne⟩
  · exact .inr hnew

section

variable (h : t.WellNamed) (hsource : source ∈ t.db.organizations) (hne : newSlug ≠ source.slug)
  (hfree : ∀ o ∈ t.db.organizations, o.slug ≠ newSlug)
include h hsource hne hfree

theorem reslugged_wellNamed : (reslugged t source newSlug).WellNamed := by
  have hids : (reslugged t source newSlug).db.organizations.map Organization.id =
      t.db.organizations.map Organization.id := keys_update fun _ => rfl
  have hexists (id : OrgId) (hold : ∃ o ∈ t.db.organizations, o.id = id) :
      ∃ o ∈ (reslugged t source newSlug).db.organizations, o.id = id := by
    rw [← mem_map, hids, mem_map]
    exact hold
  -- the slug of another organization is not the one given up
  have hother (o : Organization) (ho : o ∈ t.db.organizations) (hid : o.id ≠ source.id) :
      o.slug ≠ source.slug := fun heq => hid (congrArg _ (h.slugs.eq_of_key ho hsource heq))
  constructor
  · unfold Table.Keyed
    rw [hids]
    exact h.orgs
  · show ((t.db.organizations.map _).map Organization.slug).Nodup
    rw [map_map]
    refine List.Nodup.map_on (fun a ha b hb heq => ?_) (List.Nodup.of_map _ h.orgs)
    simp only [Function.comp_apply] at heq
    by_cases hida : a.id = source.id
    · by_cases hidb : b.id = source.id
      · exact h.orgs.eq_of_key ha hb (hida.trans hidb.symm)
      · rw [if_pos hida, if_neg hidb] at heq
        exact absurd heq.symm (hfree b hb)
    · by_cases hidb : b.id = source.id
      · rw [if_neg hida, if_pos hidb] at heq
        exact absurd heq (hfree a ha)
      · rw [if_neg hida, if_neg hidb] at heq
        exact h.slugs.eq_of_key ha hb heq
  · exact h.redirects
  · intro o ho r hr
    rcases mem_reslugged_redirects hr with ⟨hold, hslug⟩ | rfl
    · rcases mem_reslugged ho with ⟨ho, -⟩ | ⟨-, hnew⟩
      · exact h.current o ho r hold
      · rw [hnew]
        exact hslug
    · rcases mem_reslugged ho with ⟨ho, hid⟩ | ⟨-, hnew⟩
      · exact Ne.symm (hother o ho hid)
      · rw [hnew]
        exact Ne.symm hne
  · intro r hr
    rcases mem_reslugged_redirects hr with ⟨hold, -⟩ | rfl
    · exact hexists _ (h.formerOrgs r hold)
    · exact hexists _ ⟨source, hsource, rfl⟩
  · exact h.targets
  · intro repo hrepo
    exact hexists _ (h.owners repo hrepo)

theorem evolves_reslugged : Evolves t (reslugged t source newSlug) [.took newSlug] := by
  have hwell := reslugged_wellNamed h hsource hne hfree
  refine ⟨hwell, fun org name hnew orgId horg => ?_⟩
  have htook : org ≠ newSlug := by
    rintro rfl
    exact (hnew _ (mem_singleton_self _)).2 rfl
  obtain ⟨o, ho, hslug, hid⟩ := (orgIdBySlug_eq_some hwell).mp horg
  rcases mem_reslugged ho with ⟨hold, hother⟩ | ⟨-, hslug'⟩
  · refine ⟨(orgIdBySlug_eq_some h).mpr ⟨o, hold, hslug, hid⟩, fun r hleads => ?_⟩
    obtain ⟨hr, hname, hunder⟩ := hleads
    refine ⟨hr, hname, hunder.imp_right fun hformer => ?_⟩
    rcases mem_reslugged_redirects hformer with ⟨hmem, -⟩ | heq
    · exact hmem
    · -- the slug given up is recorded for the organization that gave it up
      have horgId : orgId = source.id := congrArg OrganizationRedirect.organizationId heq
      exact absurd (hid.trans horgId) hother
  · exact absurd (hslug.symm.trans hslug') htook

end

theorem renameOrganization_cases (hs : t.renameOrganization orgId newSlug = some t') :
    ∃ source, Table.find Organization.id orgId t.db.organizations = some source ∧
      newSlug ≠ source.slug ∧ (∀ o ∈ t.db.organizations, o.slug ≠ newSlug) ∧
      t' = reslugged t source newSlug := by
  unfold PushTables.renameOrganization at hs
  cases horg : Table.find Organization.id orgId t.db.organizations with
  | none => simp [horg] at hs
  | some source =>
    have hid := (find_some horg).2
    simp only [horg] at hs
    split at hs
    · cases hs
    · rename_i hfree
      rw [not_or] at hfree
      obtain ⟨hne, htaken⟩ := hfree
      refine ⟨source, rfl, hne, fun o ho heq => ?_, ?_⟩
      · exact htaken (any_eq_true.mpr ⟨o, ho, decide_eq_true heq⟩)
      · subst hid
        exact (Option.some.inj hs).symm

/-- An organization that gets another slug: the names under the slug it takes may lead
elsewhere, no other. -/
theorem evolves_renameOrganization (h : t.WellNamed)
    (hs : t.renameOrganization orgId newSlug = some t') : Evolves t t' [.took newSlug] := by
  obtain ⟨source, hfind, hne, hfree, rfl⟩ := renameOrganization_cases hs
  exact evolves_reslugged h (find_some hfind).1 hne hfree

theorem evolves_change (h : t.WellNamed) {c : NameChange}
    (hs : c.apply t = some (t', new)) : Evolves t t' new := by
  cases c with
  | renameRepository id newName =>
    obtain ⟨t'', hstep, heq⟩ := Option.map_eq_some_iff.mp hs
    cases heq
    exact evolves_rename h hstep
  | transferRepository id targetId =>
    obtain ⟨t'', hstep, heq⟩ := Option.map_eq_some_iff.mp hs
    cases heq
    exact evolves_transfer h hstep
  | renameOrganization orgId newSlug =>
    obtain ⟨t'', hstep, heq⟩ := Option.map_eq_some_iff.mp hs
    cases heq
    exact evolves_renameOrganization h hstep
  | createRepository orgId name v fresh =>
    obtain ⟨t'', hstep, heq⟩ := Option.map_eq_some_iff.mp hs
    cases heq
    exact evolves_create h hstep

end names

end Chicoree.Registryd
