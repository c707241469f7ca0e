import Chicoree.Registryd.NameHistories

/-! # Two resolvers of former names

registryd resolves a former name over a snapshot of the two redirect tables, the web
application over the tables themselves. Neither query fixes the order of the former slugs.
Where a slug is that of an organization and also a former one of another, registryd follows
the redirect and the web application does not. -/

namespace Chicoree.Registryd

open PushTables OrganizationRedirect List Option Table

structure PushTables.Unique (t : PushTables) : Prop where
  orgs : Table.Keyed Organization.id t.db.organizations
  slugs : Table.Keyed Organization.slug t.db.organizations
  ids : Table.Keyed Repository.id t.db.repositories
  names : Table.Keyed (fun r : Repository => (r.orgId, r.name)) t.db.repositories
  former : Table.Keyed oldSlug t.organizationRedirects
  redirects : Table.Keyed RepositoryRedirect.key t.repositoryRedirects

/-- The tables as a query reads them that returns the redirects of organizations in another
order. -/
def PushTables.readIn (t : PushTables) (rows : List OrganizationRedirect) : PushTables :=
  { t with organizationRedirects := rows }

def PushTables.Contested (t : PushTables) (org : String) (orgId : OrgId) (moved : Organization) :
    Prop :=
  t.db.orgIdBySlug org = some orgId ∧ t.resolveOrganizationRedirect org = some moved ∧
    moved.id ≠ orgId

/-- Where the redirect of a slug to an organization leads a name: to the repository of that
name there, else along the redirects of the name. -/
def PushTables.movedTo (t : PushTables) (org name : String) (moved : Organization) :
    Option RepositoryRef :=
  match t.repositoryIn moved.id name with
  | some there => t.db.getRepositoryById there.id
  | none => t.firstTarget name (org :: moved.slug :: t.formerSlugs moved.id)

/-- The order of the former slugs of an organization is no matter to a name: one of the slugs
before them has a redirect, or all their redirects lead to one repository. -/
def PushTables.Steady (t : PushTables) (name : String) (slugs : List String) (orgId : OrgId) :
    Prop :=
  t.firstTarget name slugs = none →
    ∀ s ∈ t.formerSlugs orgId, ∀ s' ∈ t.formerSlugs orgId, ∀ a b : RepositoryRef,
      t.firstTarget name [s] = some a → t.firstTarget name [s'] = some b → a = b

/-- The states in which the two resolvers lead a name to the same place. -/
structure PushTables.OnePlace (t : PushTables) (org name : String) : Prop where
  /-- Where the slug is contested, both its organizations lead the name there. -/
  contested : ∀ (orgId : OrgId) (moved : Organization), t.Contested org orgId moved →
    t.movedTo org name moved = t.firstTarget name (org :: t.formerSlugs orgId)
  moved : ∀ moved : Organization, t.resolveOrganizationRedirect org = some moved →
    t.repositoryIn moved.id name = none → t.Steady name [org, moved.slug] moved.id
  stayed : ∀ orgId : OrgId, t.resolveOrganizationRedirect org = none →
    t.db.orgIdBySlug org = some orgId → t.Steady name [org] orgId

section snapshot

variable {t : PushTables} {org name : String} {orgId : OrgId}

/-! ## The snapshot -/

/-- Looking a name up in the snapshot skips the rows whose target is gone, as the web
application does when it looks for the target. -/
theorem resolveUnder_loaded (h : t.Unique) (name : String) (slugs : List String) :
    resolveUnder t.loadRedirects t.db name slugs = t.firstTarget name slugs := by
  induction slugs with
  | nil => rfl
  | cons slug slugs ih =>
    have hfind : t.loadRedirects.repo slug name =
        (Table.find RepositoryRedirect.key (slug, name) t.repositoryRedirects).filter fun r =>
          t.db.repositories.any fun repo => decide (repo.id = r.repositoryId) :=
      find_filter h.redirects _
    simp only [resolveUnder, firstTarget, hfind]
    cases hrow : Table.find RepositoryRedirect.key (slug, name) t.repositoryRedirects with
    | none => exact ih
    | some r =>
      rw [bind_some]
      by_cases hrepo : (t.db.repositories.any fun repo => decide (repo.id = r.repositoryId)) = true
      · have hkept : ((some r).filter fun r : RepositoryRedirect =>
            t.db.repositories.any fun repo => decide (repo.id = r.repositoryId)) = some r :=
          if_pos hrepo
        rw [hkept]
        cases hget : t.db.getRepositoryById r.repositoryId with
        | none => simp only [hget]; exact ih
        | some ref => simp only [hget]
      · have hgone : ((some r).filter fun r : RepositoryRedirect =>
            t.db.repositories.any fun repo => decide (repo.id = r.repositoryId)) = none :=
          if_neg hrepo
        rw [hgone]
        have hget : t.db.getRepositoryById r.repositoryId = none := by
          unfold Db.getRepositoryById
          cases hfound : Table.find Repository.id r.repositoryId t.db.repositories with
          | none => rfl
          | some repo =>
            obtain ⟨hmem, hid⟩ := find_some hfound
            exact absurd (any_eq_true.mpr ⟨repo, hmem, decide_eq_true hid⟩) hrepo
        rw [hget]
        exact ih

variable {o : Organization}

theorem findOrganization_id (h : t.Unique) (ho : o ∈ t.db.organizations) :
    t.findOrganization o.id = some o :=
  h.orgs.find_self ho

theorem loaded_org (h : t.Unique) (org : String) :
    t.loadRedirects.org org = (t.resolveOrganizationRedirect org).map fun o => ⟨org, o.id, o.slug⟩ := by
  have hload (rows : List OrganizationRedirect) (hkeyed : Table.Keyed oldSlug rows) :
      Table.find OrgRedirect.oldSlug org (rows.filterMap fun r =>
        (t.findOrganization r.organizationId).map fun o => ⟨r.oldSlug, r.organizationId, o.slug⟩) =
      ((Table.find oldSlug org rows).bind fun r =>
        t.findOrganization r.organizationId).map fun o => ⟨org, o.id, o.slug⟩ := by
    induction rows with
    | nil => rfl
    | cons r rows ih =>
      obtain ⟨hfresh, hrest⟩ := nodup_cons.mp (show (r.oldSlug :: rows.map _).Nodup from hkeyed)
      have ih := ih hrest
      by_cases hslug : r.oldSlug = org
      · have hself : Table.find oldSlug org (r :: rows) = some r := by
          unfold Table.find
          rw [find?_cons_of_pos (by simpa using hslug)]
        rw [hself, bind_some]
        cases horg : t.findOrganization r.organizationId with
        | some o =>
          obtain ⟨-, hid⟩ := find_some horg
          rw [filterMap_cons, horg]
          unfold Table.find
          rw [map_some, find?_cons_of_pos (by simpa using hslug), map_some, hid, hslug]
        | none =>
          -- no later row has the slug
          have hnone : Table.find oldSlug org rows = none := by
            refine find?_eq_none.mpr fun x hx hkey => hfresh ?_
            rw [hslug, ← of_decide_eq_true hkey]
            exact mem_map_of_mem hx
          rw [filterMap_cons, horg]
          simpa [hnone] using ih
      · have hskip : Table.find oldSlug org (r :: rows) = Table.find oldSlug org rows := by
          unfold Table.find
          rw [find?_cons_of_neg (by simpa using hslug)]
        rw [hskip, ← ih, filterMap_cons]
        cases horg : t.findOrganization r.organizationId with
        | none => rfl
        | some o =>
          unfold Table.find
          rw [map_some, find?_cons_of_neg (by simpa using hslug)]
  exact hload _ h.former

theorem loaded_oldSlugs (ho : t.findOrganization orgId = some o) :
    t.loadRedirects.oldSlugs orgId = t.formerSlugs orgId := by
  have hload (rows : List OrganizationRedirect) : ((rows.filterMap fun r =>
        (t.findOrganization r.organizationId).map fun o =>
          (⟨r.oldSlug, r.organizationId, o.slug⟩ : OrgRedirect)).filter
            fun r => decide (r.orgId = orgId)).map (·.oldSlug) =
      (rows.filter fun r => decide (r.organizationId = orgId)).map (·.oldSlug) := by
    induction rows with
    | nil => rfl
    | cons r rows ih =>
      rw [filterMap_cons]
      by_cases hid : r.organizationId = orgId
      · rw [hid, ho, filter_cons_of_pos (by simpa using hid)]
        simpa using ih
      · rw [filter_cons_of_neg (by simpa using hid), ← ih]
        cases t.findOrganization r.organizationId with
        | none => rfl
        | some x =>
          rw [map_some, filter_cons_of_neg (by simpa using hid)]
  exact hload _

theorem resolveUnder_empty {table : RedirectTable} (hempty : table.empty = true) (db : Db)
    (name : String) (slugs : List String) : resolveUnder table db name slugs = none := by
  induction slugs with
  | nil => rfl
  | cons slug slugs ih =>
    have hrepos : table.repos = [] := by
      simp only [RedirectTable.empty, Bool.and_eq_true, List.isEmpty_iff] at hempty
      exact hempty.2
    have hfind : table.repo slug name = none := by
      unfold RedirectTable.repo
      rw [hrepos]
      rfl
    simp only [resolveUnder, hfind]
    exact ih

/-! ## The two lookups over the tables -/

variable {moved : Organization}

theorem getRepository_moved (h : t.Unique) (hmoved : moved ∈ t.db.organizations) (name : String) :
    t.db.getRepository moved.slug name = t.repositoryIn moved.id name := by
  have hslug : Table.find Organization.slug moved.slug t.db.organizations = some moved :=
    h.slugs.find_self hmoved
  unfold Db.getRepository Db.orgIdBySlug
  rw [hslug]
  rfl

theorem getRepositoryById_there (h : t.Unique) {there : Repository}
    (hmoved : moved ∈ t.db.organizations) (hthere : t.repositoryIn moved.id name = some there) :
    t.db.getRepositoryById there.id = some ⟨there, moved.slug, name⟩ := by
  obtain ⟨hmem, hkey⟩ := find_some hthere
  obtain ⟨horg, hname⟩ := Prod.mk.inj hkey
  have hfind : Table.find Repository.id there.id t.db.repositories = some there :=
    h.ids.find_self hmem
  have howner : Table.find Organization.id there.orgId t.db.organizations = some moved := by
    rw [horg]
    exact h.orgs.find_self hmoved
  unfold Db.getRepositoryById
  simp only [hfind, howner, map_some, hname]

theorem mem_of_resolveOrganizationRedirect
    (hmoved : t.resolveOrganizationRedirect org = some moved) : moved ∈ t.db.organizations := by
  obtain ⟨r, -, hfound⟩ := bind_eq_some_iff.mp hmoved
  exact (find_some hfound).1

theorem resolveMoved_eq (h : t.Unique) (org name : String) :
    resolveMoved t.loadRedirects t.db org name =
      match t.resolveOrganizationRedirect org with
      | some moved => t.movedTo org name moved
      | none =>
        match t.db.orgIdBySlug org with
        | some orgId => t.firstTarget name (org :: t.formerSlugs orgId)
        | none => t.firstTarget name [org] := by
  have hloaded := loaded_org h org
  have hunder (orgId : OrgId) (o : Organization) (ho : t.findOrganization orgId = some o) :
      t.loadRedirects.oldSlugs orgId = t.formerSlugs orgId := loaded_oldSlugs ho
  unfold resolveMoved
  by_cases hempty : t.loadRedirects.empty = true
  · -- no row of either table leads anywhere
    rw [if_pos hempty]
    have hnowhere (slugs : List String) : t.firstTarget name slugs = none := by
      rw [← resolveUnder_loaded h]
      exact resolveUnder_empty hempty t.db name slugs
    have horgs : t.loadRedirects.orgs = [] := by
      simp only [RedirectTable.empty, Bool.and_eq_true, List.isEmpty_iff] at hempty
      exact hempty.1
    cases hmoved : t.resolveOrganizationRedirect org with
    | none =>
      cases t.db.orgIdBySlug org with
      | none | some orgId => simp only [hnowhere]
    | some moved =>
      rw [hmoved] at hloaded
      unfold RedirectTable.org at hloaded
      rw [horgs] at hloaded
      cases hloaded
  · rw [if_neg hempty, hloaded]
    cases hmoved : t.resolveOrganizationRedirect org with
    | none =>
      rw [map_none]
      cases horg : t.db.orgIdBySlug org with
      | none => simp only [resolveUnder_loaded h]
      | some orgId =>
        obtain ⟨o, hfind, rfl⟩ := map_eq_some_iff.mp horg
        have ho := findOrganization_id h (find_some hfind).1
        simp only [resolveUnder_loaded h, hunder o.id o ho]
    | some moved =>
      have hmem := mem_of_resolveOrganizationRedirect hmoved
      simp only [map_some, getRepository_moved h hmem, PushTables.movedTo]
      cases hthere : t.repositoryIn moved.id name with
      | none =>
        simp only [resolveUnder_loaded h, hunder moved.id moved (findOrganization_id h hmem)]
      | some there => simp only [getRepositoryById_there h hmem hthere]

theorem resolveRepositoryRedirect_eq (hnone : t.db.getRepository org name = none) :
    t.resolveRepositoryRedirect org name =
      match t.db.orgIdBySlug org with
      | some orgId => t.firstTarget name (org :: t.formerSlugs orgId)
      | none =>
        match t.resolveOrganizationRedirect org with
        | some moved => t.movedTo org name moved
        | none => t.firstTarget name [org] := by
  unfold resolveRepositoryRedirect
  rw [hnone]
  by_cases hempty : t.repositoryRedirects = [] ∧ t.organizationRedirects = []
  · have hnowhere (slugs : List String) : t.firstTarget name slugs = none := by
      induction slugs with
      | nil => rfl
      | cons slug slugs ih =>
        unfold firstTarget
        rw [hempty.1]
        exact ih
    have hmoved : t.resolveOrganizationRedirect org = none := by
      unfold resolveOrganizationRedirect
      rw [hempty.2]
      rfl
    rw [if_neg (by simp), if_pos hempty, hmoved]
    cases t.db.orgIdBySlug org with
    | none | some orgId => simp only [hnowhere]
  · rw [if_neg (by simp), if_neg hempty]
    cases t.db.orgIdBySlug org with
    | some orgId => rfl
    | none =>
      cases t.resolveOrganizationRedirect org with
      | none | some moved => rfl

section reread

variable {rows : List OrganizationRedirect}

theorem PushTables.Unique.readIn (h : t.Unique) (hrows : rows.Perm t.organizationRedirects) :
    (t.readIn rows).Unique where
  orgs := h.orgs
  slugs := h.slugs
  ids := h.ids
  names := h.names
  former := (hrows.map oldSlug).nodup_iff.mpr h.former
  redirects := h.redirects

theorem firstTarget_readIn (rows : List OrganizationRedirect) (name : String)
    (slugs : List String) :
    (t.readIn rows).firstTarget name slugs = t.firstTarget name slugs := by
  induction slugs with
  | nil => rfl
  | cons slug slugs ih =>
    simp only [firstTarget, ih]
    rfl

theorem formerSlugs_readIn (hrows : rows.Perm t.organizationRedirects) (orgId : OrgId) :
    ((t.readIn rows).formerSlugs orgId).Perm (t.formerSlugs orgId) :=
  (hrows.filter _).map _

theorem resolveOrganizationRedirect_readIn (h : t.Unique)
    (hrows : rows.Perm t.organizationRedirects) (org : String) :
    (t.readIn rows).resolveOrganizationRedirect org = t.resolveOrganizationRedirect org := by
  have hfind : Table.find oldSlug org rows = Table.find oldSlug org t.organizationRedirects :=
    (h.readIn hrows).former.find_congr h.former (fun r => hrows.mem_iff) org
  show (Table.find oldSlug org rows).bind _ = _
  rw [hfind]
  rfl

variable {slugs : List String}

theorem firstTarget_mem {a : RepositoryRef} (ha : t.firstTarget name slugs = some a) :
    ∃ s ∈ slugs, t.firstTarget name [s] = some a := by
  induction slugs with
  | nil => cases ha
  | cons slug slugs ih =>
    unfold firstTarget at ha
    cases hslug : (Table.find RepositoryRedirect.key (slug, name) t.repositoryRedirects).bind
        fun r => t.db.getRepositoryById r.repositoryId with
    | some target =>
      simp only [hslug] at ha
      refine ⟨slug, mem_cons_self, ?_⟩
      simp only [firstTarget, hslug]
      exact ha
    | none =>
      simp only [hslug] at ha
      obtain ⟨s, hs, htarget⟩ := ih ha
      exact ⟨s, mem_cons_of_mem _ hs, htarget⟩

theorem firstTarget_append (name : String) (slugs more : List String) :
    t.firstTarget name (slugs ++ more) =
      (t.firstTarget name slugs).or (t.firstTarget name more) := by
  induction slugs with
  | nil => rfl
  | cons slug slugs ih =>
    rw [cons_append]
    simp only [firstTarget, ih]
    cases (Table.find RepositoryRedirect.key (slug, name) t.repositoryRedirects).bind
        fun r => t.db.getRepositoryById r.repositoryId with
    | some target | none => rfl

theorem firstTarget_none :
    t.firstTarget name slugs = none ↔ ∀ s ∈ slugs, t.firstTarget name [s] = none := by
  induction slugs with
  | nil => simp [firstTarget]
  | cons slug slugs ih =>
    rw [show slug :: slugs = [slug] ++ slugs from rfl, firstTarget_append, or_eq_none_iff, ih]
    simp

/-- A name is steady exactly when no order of the former slugs changes where it leads. -/
theorem steady_iff (slugs : List String) (orgId : OrgId) : t.Steady name slugs orgId ↔
      ∀ rows : List OrganizationRedirect, rows.Perm t.organizationRedirects →
        t.firstTarget name (slugs ++ (t.readIn rows).formerSlugs orgId) =
          t.firstTarget name (slugs ++ t.formerSlugs orgId) := by
  constructor
  · intro hsteady rows hrows
    have hperm := formerSlugs_readIn hrows orgId
    generalize (t.readIn rows).formerSlugs orgId = former at hperm ⊢
    rw [firstTarget_append, firstTarget_append]
    cases hbefore : t.firstTarget name slugs with
    | some a => rfl
    | none =>
      rw [none_or, none_or]
      cases hlater : t.firstTarget name (t.formerSlugs orgId) with
      | none =>
        refine firstTarget_none.mpr fun s hs => ?_
        exact firstTarget_none.mp hlater s (hperm.mem_iff.mp hs)
      | some b =>
        obtain ⟨s, hs, hb⟩ := firstTarget_mem hlater
        cases hother : t.firstTarget name former with
        | none =>
          rw [firstTarget_none.mp hother s (hperm.mem_iff.mpr hs)] at hb
          cases hb
        | some a =>
          obtain ⟨s', hs', ha⟩ := firstTarget_mem hother
          rw [hsteady hbefore s' (hperm.mem_iff.mp hs') s hs a b ha hb]
  · intro hsame hbefore s hs s' hs' a b ha hb
    -- read with either slug first
    have hfirst (s : String) (hs : s ∈ t.formerSlugs orgId) (a : RepositoryRef)
        (ha : t.firstTarget name [s] = some a) :
        t.firstTarget name (t.formerSlugs orgId) = some a := by
      obtain ⟨r, hr, rfl⟩ := mem_map.mp hs
      obtain ⟨hmem, hid⟩ := mem_filter.mp hr
      have hread := hsame _ (perm_cons_erase hmem).symm
      have hformer : (t.readIn (r :: t.organizationRedirects.erase r)).formerSlugs orgId =
          [r.oldSlug] ++ ((t.organizationRedirects.erase r).filter fun r =>
            decide (r.organizationId = orgId)).map (·.oldSlug) := by
        show ((r :: t.organizationRedirects.erase r).filter _).map _ = _
        rw [filter_cons, if_pos hid]
        rfl
      rw [firstTarget_append, firstTarget_append, hbefore, none_or, none_or, hformer,
        firstTarget_append, ha, some_or] at hread
      exact hread.symm
    exact Option.some.inj ((hfirst s hs a ha).symm.trans (hfirst s' hs' b hb))

/-! ## The two resolvers -/

theorem resolveMoved_readIn (h : t.Unique) (hrows : rows.Perm t.organizationRedirects)
    (org name : String) :
    resolveMoved (t.readIn rows).loadRedirects t.db org name =
      match t.resolveOrganizationRedirect org with
      | some moved => (t.readIn rows).movedTo org name moved
      | none =>
        match t.db.orgIdBySlug org with
        | some orgId => t.firstTarget name ([org] ++ (t.readIn rows).formerSlugs orgId)
        | none => t.firstTarget name [org] := by
  have hread := resolveMoved_eq (h.readIn hrows) org name
  rw [resolveOrganizationRedirect_readIn h hrows] at hread
  simp only [firstTarget_readIn] at hread
  exact hread

theorem movedTo_readIn (moved : Organization) : (t.readIn rows).movedTo org name moved =
    match t.repositoryIn moved.id name with
    | some there => t.db.getRepositoryById there.id
    | none => t.firstTarget name ([org, moved.slug] ++ (t.readIn rows).formerSlugs moved.id) := by
  unfold PushTables.movedTo
  simp only [firstTarget_readIn]
  rfl

/-- Along the redirect of its slug, a name leads to one place exactly when it is there or
steady. -/
theorem movedTo_steady (moved : Organization) :
    (t.repositoryIn moved.id name = none → t.Steady name [org, moved.slug] moved.id) ↔
      ∀ rows : List OrganizationRedirect, rows.Perm t.organizationRedirects →
        (t.readIn rows).movedTo org name moved = t.movedTo org name moved := by
  have hsame : t.movedTo org name moved = (t.readIn t.organizationRedirects).movedTo org name moved :=
    rfl
  rw [hsame]
  simp only [movedTo_readIn]
  cases t.repositoryIn moved.id name with
  | some there =>
    constructor
    · intro _ rows _
      rfl
    · intro _ hnone
      cases hnone
  | none =>
    have hsteady : t.Steady name [org, moved.slug] moved.id ↔ _ := steady_iff _ _
    constructor
    · intro h
      exact hsteady.mp (h rfl)
    · intro h _
      exact hsteady.mpr h

end reread

theorem movedTo_back (h : t.Unique)
    (hnone : t.db.getRepository org name = none) (horg : t.db.orgIdBySlug org = some orgId)
    (hmoved : t.resolveOrganizationRedirect org = some moved) (hid : moved.id = orgId) :
    t.movedTo org name moved = t.firstTarget name (org :: t.formerSlugs orgId) := by
  obtain ⟨o, hfind, ho⟩ := map_eq_some_iff.mp horg
  obtain ⟨hmem, hslug⟩ := find_some hfind
  have hself : moved = o :=
    h.orgs.eq_of_key (mem_of_resolveOrganizationRedirect hmoved) hmem (hid.trans ho.symm)
  subst hself
  have hthere : t.repositoryIn moved.id name = none := by
    rw [← getRepository_moved h hmem, hslug]
    exact hnone
  unfold PushTables.movedTo
  rw [hthere, hid, hslug]
  -- the slug is asked for twice
  rw [← singleton_append (l := org :: _), ← singleton_append (l := t.formerSlugs orgId),
    firstTarget_append, firstTarget_append]
  cases t.firstTarget name [org] with
  | none | some a => rfl

end snapshot

def movedAway : PushTables where
  storage :=
    { db :=
        { organizations := [⟨"o1", "acme-labs"⟩], repositories := [⟨"r1", "o1", "app", .public⟩] }
      driver := [], now := 0 }
  organizationRedirects := [⟨"acme", "o1"⟩]

theorem movedAway_unique : movedAway.Unique :=
  ⟨by decide, by decide, by decide, by decide, by decide, by decide⟩

def slugTaken : PushTables where
  storage :=
    { db :=
        { organizations := [⟨"o1", "acme-labs"⟩, ⟨"o2", "acme"⟩]
          repositories := [⟨"r1", "o1", "app", .public⟩] }
      driver := [], now := 0 }
  organizationRedirects := [⟨"acme", "o1"⟩]

end Chicoree.Registryd
