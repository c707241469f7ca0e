import Chicoree.Registryd.NameTables

/-! # Organizations and their slugs

A slug is the namespace of the images of an organization. It is chosen when the organization
is created, and changed by the rename action or by the update endpoint of better-auth. -/

namespace Chicoree.Registryd

open List Option Table PushTables

/-! ## Slugs -/

/-- `[a-z0-9]` -/
def slugChar (c : Char) : Bool :=
  (decide ('a' ≤ c) && decide (c ≤ 'z')) || (decide ('0' ≤ c) && decide (c ≤ '9'))

/-- `[._-]` -/
def slugSeparator (c : Char) : Bool := decide (c = '.' ∨ c = '_' ∨ c = '-')

def slugRest : Bool → List Char → Bool
  | inWord, [] => inWord
  | inWord, c :: cs =>
    if slugChar c then slugRest true cs
    else inWord && slugSeparator c && slugRest false cs

/-- `ORG_SLUG_RE`: `/^[a-z0-9]+(?:[._-][a-z0-9]+)*$/` -/
def orgSlugRe (slug : String) : Bool := slugRest false slug.toList

def librarySlug : String := "library"

def reservedSlugs : List String :=
  ["dashboard", "settings", "admin", "explore", "orgs", "api", "sign-in", "sign-up",
    "two-factor", "email-otp", "forgot-password", "reset-password", "verify-email",
    "accept-invitation", "v2", "internal", "_next", "favicon.ico", "assets", "static",
    librarySlug]

namespace PushTables

def findOrganization (t : PushTables) (orgId : OrgId) : Option Organization :=
  Table.find Organization.id orgId t.db.organizations

def slugTaken (t : PushTables) (slug : String) : Bool :=
  t.db.organizations.any fun o => decide (o.slug = slug)

def insertOrganization (t : PushTables) (o : Organization) : Option PushTables :=
  if (t.findOrganization o.id).isSome || t.slugTaken o.slug then none
  else some (t.withDb { t.db with organizations := t.db.organizations ++ [o] })

/-- `beforeCreateOrganization` and the creation: past the checks of role and quota, a slug of
the grammar that is not reserved. -/
def createOrganization (t : PushTables) (slug : String) (fresh : OrgId) : Option PushTables :=
  if !orgSlugRe slug || decide (slug ∈ reservedSlugs) then none
  else (t.clearOrganizationRedirect slug).insertOrganization ⟨fresh, slug⟩

/-- `POST /api/v1/orgs`, where a slug has at most 64 characters. -/
def createOrganizationByApi (t : PushTables) (slug : String) (fresh : OrgId) : Option PushTables :=
  if !orgSlugRe slug || decide (64 < slug.length) || decide (slug ∈ reservedSlugs) then none
  else (t.insertOrganization ⟨fresh, slug⟩).map fun t' => t'.clearOrganizationRedirect slug

def ensureLibraryOrg (t : PushTables) (fresh : OrgId) : Option PushTables :=
  if t.slugTaken librarySlug then some t else t.insertOrganization ⟨fresh, librarySlug⟩

/-- `renameOrganization`, past the check of the role. -/
def renameOrganizationChecked (t : PushTables) (orgId : OrgId) (newSlug : String) :
    Option PushTables :=
  match t.findOrganization orgId with
  | none => none
  | some org =>
    if org.slug = librarySlug ∨ newSlug = librarySlug then none
    else if !orgSlugRe newSlug || decide (newSlug ∈ reservedSlugs) then none
    else t.renameOrganization orgId newSlug

/-- Whether `beforeUpdateOrganization` lets an update of the organization through. An empty
text counts as no slug. -/
def beforeUpdateOrganization (current : Organization) (slug : String) : Bool :=
  !(decide (slug ≠ "" ∧ slug ≠ librarySlug) && decide (current.slug = librarySlug))

/-- The update endpoint, with the slug among the updates if there is one: any value that no
other organization has. -/
def updateOrganization (t : PushTables) (orgId : OrgId) (slug : Option String) :
    Option PushTables :=
  match t.findOrganization orgId, slug with
  | none, _ => none
  | some _, none => some t
  | some org, some slug =>
    if !beforeUpdateOrganization org slug ||
        t.db.organizations.any (fun o => decide (o.id ≠ orgId ∧ o.slug = slug)) then none
    else
      let organizations := Table.update Organization.id orgId
        (fun o => { o with slug := slug }) t.db.organizations
      some (t.withDb { t.db with organizations := organizations })

/-- The rows left by the deletion of an organization: its repositories with all they have, and
the redirects to it and to them, go with it. -/
def dropOrganization (t : PushTables) (orgId : OrgId) : PushTables :=
  let kept : RepoId → Bool := fun id =>
    t.db.repositories.any fun r => decide (r.id = id ∧ r.orgId ≠ orgId)
  let db : Db :=
    { t.db with
      organizations := t.db.organizations.filter fun o => decide (o.id ≠ orgId)
      repositories := t.db.repositories.filter fun r => decide (r.orgId ≠ orgId)
      repositoryBlobs := t.db.repositoryBlobs.filter fun b => kept b.repositoryId
      manifestRefs := t.db.manifestRefs.filter fun m => kept m.repositoryId }
  { t.withDb db with
    repositoryRedirects := t.repositoryRedirects.filter fun r => kept r.repositoryId
    organizationRedirects :=
      t.organizationRedirects.filter fun r => decide (r.organizationId ≠ orgId)
    manifests := t.manifests.filter fun m => kept m.repositoryId
    tags := t.tags.filter fun x => kept x.repositoryId
    tagRules := t.tagRules.filter fun r => decide (r.organizationId ≠ orgId) }

/-- `beforeDeleteOrganization` and the deletion, by a member, over the API or by an
administrator. -/
def deleteOrganization (t : PushTables) (orgId : OrgId) : Option PushTables :=
  match t.findOrganization orgId with
  | none => none
  | some org => if org.slug = librarySlug then none else some (t.dropOrganization orgId)

end PushTables

/-! ## Well-formed names -/

variable {o : Organization} {fresh : OrgId} {newSlug : String}

section names

variable {t t' : PushTables} {slug : String} {orgId : OrgId}

theorem slugTaken_false : t.slugTaken slug = false ↔ ∀ o ∈ t.db.organizations, o.slug ≠ slug := by
  simp [slugTaken]

theorem insertOrganization_cases (h : t.insertOrganization o = some t') :
    (∀ x ∈ t.db.organizations, x.id ≠ o.id) ∧ (∀ x ∈ t.db.organizations, x.slug ≠ o.slug) ∧
      t' = t.withDb { t.db with organizations := t.db.organizations ++ [o] } := by
  unfold insertOrganization at h
  split at h
  · cases h
  · rename_i hfree
    rw [Bool.or_eq_true, not_or, Bool.not_eq_true, Bool.not_eq_true] at hfree
    obtain ⟨hid, hslug⟩ := hfree
    refine ⟨fun x hx heq => ?_, slugTaken_false.mp hslug, (Option.some.inj h).symm⟩
    have hnone : t.findOrganization o.id = none := not_isSome_iff_eq_none.mp (by simp [hid])
    exact find_none hnone hx heq

theorem PushTables.WellNamed.cleared (h : t.WellNamed) (slug : String) :
    (t.clearOrganizationRedirect slug).WellNamed :=
  ⟨h.orgs, h.slugs, h.redirects, fun o ho r hr => h.current o ho r (mem_filter.mp hr).1,
    fun r hr => h.formerOrgs r (mem_filter.mp hr).1, h.targets, h.owners⟩

theorem PushTables.WellNamed.inserted (h : t.WellNamed)
    (hfree : ∀ r ∈ t.organizationRedirects, r.oldSlug ≠ o.slug)
    (hs : t.insertOrganization o = some t') : t'.WellNamed := by
  obtain ⟨hid, hslug, rfl⟩ := insertOrganization_cases hs
  constructor
  · exact h.orgs.append fun x hx => hid x hx
  · exact h.slugs.append fun x hx => hslug x hx
  · exact h.redirects
  · intro x hx r hr
    rcases mem_append.mp hx with hx | hx
    · exact h.current x hx r hr
    · rw [mem_singleton.mp hx]
      exact hfree r hr
  · intro r hr
    obtain ⟨x, hx, heq⟩ := h.formerOrgs r hr
    exact ⟨x, mem_append_left _ hx, heq⟩
  · exact h.targets
  · intro repo hrepo
    obtain ⟨x, hx, heq⟩ := h.owners repo hrepo
    exact ⟨x, mem_append_left _ hx, heq⟩

theorem PushTables.WellNamed.dropped (h : t.WellNamed) (orgId : OrgId) :
    (t.dropOrganization orgId).WellNamed := by
  have hleft (id : OrgId) (hid : id ≠ orgId) (hold : ∃ o ∈ t.db.organizations, o.id = id) :
      ∃ o ∈ (t.dropOrganization orgId).db.organizations, o.id = id := by
    obtain ⟨o, ho, rfl⟩ := hold
    exact ⟨o, mem_filter.mpr ⟨ho, decide_eq_true hid⟩, rfl⟩
  constructor
  · exact h.orgs.filter _
  · exact h.slugs.filter _
  · exact h.redirects.filter _
  · intro o ho r hr
    exact h.current o (mem_filter.mp ho).1 r (mem_filter.mp hr).1
  · intro r hr
    obtain ⟨hold, hne⟩ := mem_filter.mp hr
    exact hleft _ (of_decide_eq_true hne) (h.formerOrgs r hold)
  · intro r hr
    obtain ⟨-, hkept⟩ := mem_filter.mp hr
    obtain ⟨repo, hrepo, hboth⟩ := any_eq_true.mp hkept
    obtain ⟨hid, hne⟩ := of_decide_eq_true hboth
    exact ⟨repo, mem_filter.mpr ⟨hrepo, decide_eq_true hne⟩, hid⟩
  · intro repo hrepo
    obtain ⟨hold, hne⟩ := mem_filter.mp hrepo
    exact hleft _ (of_decide_eq_true hne) (h.owners repo hold)

theorem insertOrganization_clear (t : PushTables) (o : Organization) (slug : String) :
    (t.insertOrganization o).map (fun t' => t'.clearOrganizationRedirect slug) =
      (t.clearOrganizationRedirect slug).insertOrganization o := by
  have hid : (t.clearOrganizationRedirect slug).findOrganization o.id = t.findOrganization o.id :=
    rfl
  have hslug : (t.clearOrganizationRedirect slug).slugTaken o.slug = t.slugTaken o.slug := rfl
  unfold insertOrganization
  rw [hid, hslug]
  split <;> rfl

theorem createOrganization_of_api (h : t.createOrganizationByApi slug fresh = some t') :
    t.createOrganization slug fresh = some t' := by
  unfold createOrganizationByApi at h
  split at h
  · cases h
  · rename_i hslug
    rw [insertOrganization_clear] at h
    unfold createOrganization
    rw [if_neg]
    · exact h
    · intro hor
      apply hslug
      rw [Bool.or_eq_true] at hor
      rcases hor with hre | hreserved
      · rw [hre]
        rfl
      · rw [hreserved, Bool.or_true]

theorem updateOrganization_cases {slug : Option String}
    (h : t.updateOrganization orgId slug = some t') :
    ∃ org, t.findOrganization orgId = some org ∧ ((slug = none ∧ t' = t) ∨
      ∃ s, slug = some s ∧ t' = t.withDb { t.db with
        organizations := Table.update Organization.id orgId (fun o => { o with slug := s })
          t.db.organizations }) := by
  cases horg : t.findOrganization orgId with
  | none => simp [updateOrganization, horg] at h
  | some org =>
    refine ⟨org, rfl, ?_⟩
    cases slug with
    | none =>
      simp only [updateOrganization, horg] at h
      exact .inl ⟨rfl, (Option.some.inj h).symm⟩
    | some s =>
      simp only [updateOrganization, horg] at h
      split at h
      · cases h
      · exact .inr ⟨s, rfl, (Option.some.inj h).symm⟩

theorem renameOrganizationChecked_cases (h : t.renameOrganizationChecked orgId newSlug = some t') :
    ∃ source ∈ t.db.organizations, source.id = orgId ∧ source.slug ≠ librarySlug ∧
      orgSlugRe newSlug = true ∧ newSlug ∉ reservedSlugs ∧ newSlug ≠ source.slug ∧
      (∀ o ∈ t.db.organizations, o.slug ≠ newSlug) ∧ t' = reslugged t source newSlug := by
  cases horg : t.findOrganization orgId with
  | none => simp [renameOrganizationChecked, horg] at h
  | some org =>
    simp only [renameOrganizationChecked, horg] at h
    split at h
    · cases h
    · rename_i hlibrary
      split at h
      · cases h
      · rename_i hvalid
        simp only [Bool.or_eq_true, Bool.not_eq_true', decide_eq_true_eq, not_or,
          Bool.not_eq_false] at hvalid
        rw [not_or] at hlibrary
        obtain ⟨source, hfind, hne, hfree, rfl⟩ := renameOrganization_cases h
        cases horg.symm.trans hfind
        obtain ⟨hsource, hid⟩ := find_some hfind
        exact ⟨org, hsource, hid, hlibrary.1, hvalid.1, hvalid.2, hne, hfree, rfl⟩

end names

/-! ## Slugs stay valid namespaces

Creation and the rename action check the slug and keep the redirects. -/

open Transition

inductive OrganizationChange where
  | create (slug : String) (fresh : OrgId)
  | createByApi (slug : String) (fresh : OrgId)
  | ensureLibrary (fresh : OrgId)
  | rename (orgId : OrgId) (newSlug : String)
  | update (orgId : OrgId) (slug : Option String)
  | delete (orgId : OrgId)

def OrganizationChange.apply (t : PushTables) : OrganizationChange → Option PushTables
  | .create slug fresh => t.createOrganization slug fresh
  | .createByApi slug fresh => t.createOrganizationByApi slug fresh
  | .ensureLibrary fresh => t.ensureLibraryOrg fresh
  | .rename orgId newSlug => t.renameOrganizationChecked orgId newSlug
  | .update orgId slug => t.updateOrganization orgId slug
  | .delete orgId => t.deleteOrganization orgId

def validSlug (slug : String) : Bool := orgSlugRe slug && !decide (slug ∈ reservedSlugs)

def SlugsValid (t : PushTables) : Prop :=
  ∀ o ∈ t.db.organizations, o.slug ≠ librarySlug → validSlug o.slug = true

def LibraryStays (t t' : PushTables) : Prop :=
  ∀ o ∈ t.db.organizations, o.slug = librarySlug →
    ∃ o' ∈ t'.db.organizations, o'.id = o.id ∧ o'.slug = librarySlug

/-- Every slug that changes leaves a redirect, and none is left from the new one. -/
def SlugsRedirected (t t' : PushTables) : Prop :=
  ∀ o ∈ t.db.organizations, ∀ o' ∈ t'.db.organizations, o'.id = o.id → o'.slug ≠ o.slug →
    ⟨o.slug, o.id⟩ ∈ t'.organizationRedirects ∧
    ∀ r ∈ t'.organizationRedirects, r.oldSlug ≠ o'.slug

/-- What holds of the tables in between: well-formed names, valid slugs, and no redirect from
library. -/
structure SlugTables (t : PushTables) : Prop where
  wellNamed : t.WellNamed
  valid : SlugsValid t
  library : ∀ r ∈ t.organizationRedirects, r.oldSlug ≠ librarySlug

/-- The histories of organizations, from any tables in order, the empty ones among them. -/
def organizationHistories : Machine PushTables OrganizationChange where
  init := SlugTables
  step := OrganizationChange.apply

def keepsSlug (t : PushTables) : OrganizationChange → Bool
  | .update orgId (some slug) => (t.findOrganization orgId).all fun o => decide (o.slug = slug)
  | _ => true

abbrev KeepsSlug (t : PushTables) (c : OrganizationChange) : Prop := keepsSlug t c = true

/-! ## Steps -/

section steps

variable {t t' : PushTables} {orgId : OrgId}

theorem slugTables_empty (storage : Storage) (h : storage.db = {}) :
    SlugTables { storage := storage } := by
  have horgs : storage.db.organizations = [] := by rw [h]
  have hrepos : storage.db.repositories = [] := by rw [h]
  refine ⟨⟨?_, ?_, nodup_nil, ?_, ?_, ?_, ?_⟩, ?_, ?_⟩ <;>
    simp [Table.Keyed, SlugsValid, db, horgs, hrepos]

/-- What a change does that meets its condition: the tables stay in order, library keeps its
slug, and every slug that changes is redirected. -/
structure SlugStep (t t' : PushTables) : Prop where
  tables : SlugTables t'
  library : LibraryStays t t'
  redirected : SlugsRedirected t t'

section

variable (h : SlugTables t)
include h

theorem slugStep_of_rows (h' : SlugTables t')
  (hkept : ∀ o ∈ t.db.organizations, o.slug = librarySlug → o ∈ t'.db.organizations)
  (hrows : ∀ o' ∈ t'.db.organizations, o' ∈ t.db.organizations ∨
      ∀ o ∈ t.db.organizations, o.id ≠ o'.id) : SlugStep t t' := by
  refine ⟨h', fun o ho hslug => ⟨o, hkept o ho hslug, rfl, hslug⟩, ?_⟩
  intro o ho o' ho' hid hne
  rcases hrows o' ho' with hold | hnew
  · have hsame : o' = o := h.wellNamed.orgs.eq_of_key hold ho hid
    rw [hsame] at hne
    exact absurd rfl hne
  · exact absurd hid.symm (hnew o ho)

theorem SlugStep.refl : SlugStep t t :=
  slugStep_of_rows h h (fun _ ho _ => ho) fun _ ho => .inl ho

theorem slugStep_inserted (hslug : o.slug ≠ librarySlug → validSlug o.slug = true)
  (hfree : ∀ r ∈ t.organizationRedirects, r.oldSlug ≠ o.slug)
  (hs : t.insertOrganization o = some t') : SlugStep t t' := by
  have hwell := h.wellNamed.inserted hfree hs
  obtain ⟨hid, -, rfl⟩ := insertOrganization_cases hs
  have h' : SlugTables (t.withDb { t.db with organizations := t.db.organizations ++ [o] }) := by
    refine ⟨hwell, fun x hx => ?_, h.library⟩
    rcases mem_append.mp hx with hx | hx
    · exact h.valid x hx
    · rw [mem_singleton.mp hx]
      exact hslug
  refine slugStep_of_rows h h' (fun x hx _ => mem_append_left _ hx) fun x hx => ?_
  rcases mem_append.mp hx with hx | hx
  · exact .inl hx
  · rw [mem_singleton.mp hx]
    exact .inr hid

theorem SlugTables.cleared (slug : String) : SlugTables (t.clearOrganizationRedirect slug) :=
  ⟨h.wellNamed.cleared slug, h.valid, fun r hr => h.library r (mem_filter.mp hr).1⟩

theorem slugStep_create {slug : String}
  (hs : t.createOrganization slug fresh = some t') : SlugStep t t' := by
  unfold createOrganization at hs
  split at hs
  · cases hs
  · have hslug : validSlug slug = true := by
      unfold validSlug
      cases hre : orgSlugRe slug <;> simp_all
    have hfree : ∀ r ∈ (t.clearOrganizationRedirect slug).organizationRedirects,
        r.oldSlug ≠ slug := fun r hr => of_decide_eq_true (mem_filter.mp hr).2
    have hstep := slugStep_inserted (h.cleared slug) (fun _ => hslug) hfree hs
    exact ⟨hstep.tables, hstep.library, hstep.redirected⟩

theorem slugStep_ensureLibrary (hs : t.ensureLibraryOrg fresh = some t') : SlugStep t t' := by
  unfold ensureLibraryOrg at hs
  split at hs
  · cases hs
    exact .refl h
  · exact slugStep_inserted h (fun hne => absurd rfl hne) h.library hs

theorem slugStep_rename
  (hs : t.renameOrganizationChecked orgId newSlug = some t') : SlugStep t t' := by
  obtain ⟨source, hsource, -, hlibrary, hre, hreserved, hne, hfree, rfl⟩ :=
    renameOrganizationChecked_cases hs
  have hredirect : ⟨source.slug, source.id⟩ ∈ (reslugged t source newSlug).organizationRedirects :=
    mem_upsert_self _ _
  constructor
  · refine ⟨reslugged_wellNamed h.wellNamed hsource hne hfree, fun o ho hother => ?_, fun r hr => ?_⟩
    · rcases mem_reslugged ho with ⟨hold, -⟩ | ⟨-, hslug⟩
      · exact h.valid o hold hother
      · rw [hslug]
        simp [validSlug, hre, hreserved]
    · rcases mem_reslugged_redirects hr with ⟨hold, -⟩ | rfl
      · exact h.library r hold
      · exact hlibrary
  · intro o ho hslug
    have hid : o.id ≠ source.id := by
      intro heq
      have hsame : o = source := h.wellNamed.orgs.eq_of_key ho hsource heq
      exact hlibrary (hsame ▸ hslug)
    refine ⟨o, ?_, rfl, hslug⟩
    exact mem_map.mpr ⟨o, ho, if_neg hid⟩
  · intro o ho o' ho' hid hslug
    rcases mem_reslugged ho' with ⟨hold, -⟩ | ⟨hid', hnew⟩
    · have hsame : o' = o := h.wellNamed.orgs.eq_of_key hold ho hid
      rw [hsame] at hslug
      exact absurd rfl hslug
    · have hsame : o = source := h.wellNamed.orgs.eq_of_key ho hsource (hid.symm.trans hid')
      subst hsame
      refine ⟨hredirect, fun r hr => ?_⟩
      rw [hnew]
      rcases mem_reslugged_redirects hr with ⟨-, hold⟩ | rfl
      · exact hold
      · exact Ne.symm hne

theorem slugStep_delete (hs : t.deleteOrganization orgId = some t') : SlugStep t t' := by
  cases horg : t.findOrganization orgId with
  | none => simp [deleteOrganization, horg] at hs
  | some org =>
    simp only [deleteOrganization, horg] at hs
    split at hs
    · cases hs
    · rename_i hlibrary
      cases hs
      obtain ⟨horg, hid⟩ := find_some horg
      have h' : SlugTables (t.dropOrganization orgId) :=
        ⟨h.wellNamed.dropped orgId, fun o ho => h.valid o (mem_filter.mp ho).1,
          fun r hr => h.library r (mem_filter.mp hr).1⟩
      refine slugStep_of_rows h h' (fun o ho hslug => ?_) fun o ho => .inl (mem_filter.mp ho).1
      refine mem_filter.mpr ⟨ho, decide_eq_true fun heq => hlibrary ?_⟩
      have hsame : org = o := h.wellNamed.orgs.eq_of_key horg ho (hid.trans heq.symm)
      exact hsame ▸ hslug

theorem slugStep_update {slug : Option String} (hs : t.updateOrganization orgId slug = some t') :
    (keepsSlug t (.update orgId slug) = true → SlugStep t t') ∧
    (SlugsRedirected t t' → keepsSlug t (.update orgId slug) = true) := by
  obtain ⟨org, hfind, ⟨rfl, rfl⟩ | ⟨s, rfl, rfl⟩⟩ := updateOrganization_cases hs
  · exact ⟨fun _ => .refl h, fun _ => rfl⟩
  · obtain ⟨horg, rfl⟩ := find_some hfind
    have hkeeps : keepsSlug t (.update org.id (some s)) = decide (org.slug = s) := by
      simp only [keepsSlug, hfind, all_some]
    rw [hkeeps, decide_eq_true_eq]
    constructor
    · rintro rfl
      -- the row is written as it was
      have hrows : Table.update Organization.id org.id (fun o => { o with slug := org.slug })
          t.db.organizations = t.db.organizations := by
        refine (map_congr_left fun o ho => ?_).trans (map_id _)
        by_cases hid : o.id = org.id
        · have hsame : o = org := h.wellNamed.orgs.eq_of_key ho horg hid
          rw [hsame]
          exact ite_self _
        · exact if_neg hid
      rw [hrows]
      exact .refl h
    · intro hredirected
      by_contra hne
      have hupdated : ⟨org.id, s⟩ ∈ Table.update Organization.id org.id
          (fun o => { o with slug := s }) t.db.organizations :=
        mem_map.mpr ⟨org, horg, if_pos rfl⟩
      -- a current slug has no redirect
      have hredirect := (hredirected org horg ⟨org.id, s⟩ hupdated rfl (Ne.symm hne)).1
      exact h.wellNamed.current org horg _ hredirect rfl

end

end steps

/-- **Slugs stay valid namespaces** as long as every change meets its condition, and the
first one that does not leaves a slug without its redirect. -/
theorem slugs_stay_valid {t : PushTables} (hrun : organizationHistories.Run KeepsSlug t) :
    SlugsValid t ∧ ∀ c t', organizationHistories.step t c = some t' →
      ((SlugsValid t' ∧ LibraryStays t t' ∧ SlugsRedirected t t') ↔ KeepsSlug t c) := by
  have hstep (t t' : PushTables) (c : OrganizationChange) (h : SlugTables t)
      (hs : organizationHistories.step t c = some t') :
      (KeepsSlug t c → SlugStep t t') ∧ (SlugsRedirected t t' → KeepsSlug t c) := by
    cases c with
    | create slug fresh => exact ⟨fun _ => slugStep_create h hs, fun _ => rfl⟩
    | createByApi slug fresh =>
      exact ⟨fun _ => slugStep_create h (createOrganization_of_api hs), fun _ => rfl⟩
    | ensureLibrary fresh => exact ⟨fun _ => slugStep_ensureLibrary h hs, fun _ => rfl⟩
    | rename orgId newSlug => exact ⟨fun _ => slugStep_rename h hs, fun _ => rfl⟩
    | update orgId slug => exact slugStep_update h hs
    | delete orgId => exact ⟨fun _ => slugStep_delete h hs, fun _ => rfl⟩
  have htables : SlugTables t := by
    induction hrun with
    | init hinit => exact hinit
    | step _ hkeeps hs ih => exact ((hstep _ _ _ ih hs).1 hkeeps).tables
  refine ⟨htables.valid, fun c t' hs => ?_⟩
  constructor
  · intro h'
    exact (hstep t t' c htables hs).2 h'.2.2
  · intro hkeeps
    have h' := (hstep t t' c htables hs).1 hkeeps
    exact ⟨h'.tables.valid, h'.library, h'.redirected⟩

def noOrganizations : PushTables := { storage := ⟨{}, [], 0⟩ }

/-- An organization is created and renamed; its name is edited; another takes its first slug. -/
def renamedAndReused : List OrganizationChange :=
  [.ensureLibrary "o0", .create "acme" "o1", .rename "o1" "acme-labs", .update "o1" none,
    .create "acme" "o2"]

theorem slugs_stay_valid_reused : ∃ t : PushTables, organizationHistories.Run KeepsSlug t ∧
      t.db.organizations = [⟨"o0", "library"⟩, ⟨"o1", "acme-labs"⟩, ⟨"o2", "acme"⟩] ∧
      SlugsValid t := by
  have hfacts : (organizationHistories.replay KeepsSlug noOrganizations renamedAndReused).map
      (fun t => t.db.organizations) =
        some [⟨"o0", "library"⟩, ⟨"o1", "acme-labs"⟩, ⟨"o2", "acme"⟩] := by
    decide +kernel
  obtain ⟨t, ht, horgs⟩ := map_eq_some_iff.mp hfacts
  have hrun := Machine.run_of_replay (M := organizationHistories) (slugTables_empty _ rfl) ht
  exact ⟨t, hrun, horgs, (slugs_stay_valid hrun).1⟩

theorem update_takes_reserved_slug :
    ¬ ∀ t : PushTables, organizationHistories.Reachable t → SlugsValid t := by
  intro hall
  have hfacts : (organizationHistories.replay (fun _ _ => True) noOrganizations
      [.create "acme" "o1", .update "o1" (some "admin")]).map (fun t => t.db.organizations) =
        some [⟨"o1", "admin"⟩] := by
    decide +kernel
  obtain ⟨t, ht, horgs⟩ := map_eq_some_iff.mp hfacts
  have hreach := Machine.run_of_replay (M := organizationHistories) (slugTables_empty _ rfl) ht
  have hvalid := hall t hreach ⟨"o1", "admin"⟩ (by rw [horgs]; exact mem_singleton.mpr rfl)
    (by decide)
  exact absurd hvalid (by decide)

end Chicoree.Registryd
