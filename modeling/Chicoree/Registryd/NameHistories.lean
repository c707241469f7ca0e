import Mathlib.Data.List.Nodup
import Chicoree.Registryd.Organizations

/-! # Histories of names

Repositories are created, renamed, transferred and deleted, organizations created, renamed and
deleted. The web interface resolves a name that does not exist through the redirects these
changes leave. -/

namespace Chicoree.Registryd

open Option (map_eq_some_iff)
open Transition List Table PushTables

/-! ## Resolving a name in the web interface -/

namespace PushTables

def formerSlugs (t : PushTables) (orgId : OrgId) : List String :=
  (t.organizationRedirects.filter fun r => decide (r.organizationId = orgId)).map (·.oldSlug)

def slugsOf (t : PushTables) (o : Organization) : List String := o.slug :: t.formerSlugs o.id

def resolveOrganizationRedirect (t : PushTables) (oldSlug : String) : Option Organization :=
  (Table.find OrganizationRedirect.oldSlug oldSlug t.organizationRedirects).bind fun r =>
    t.findOrganization r.organizationId

def repositoryIn (t : PushTables) (orgId : OrgId) (name : String) : Option Repository :=
  Table.find (fun r : Repository => (r.orgId, r.name)) (orgId, name) t.db.repositories

def firstTarget (t : PushTables) (name : String) : List String → Option RepositoryRef
  | [] => none
  | slug :: slugs =>
    match (Table.find RepositoryRedirect.key (slug, name) t.repositoryRedirects).bind fun r =>
        t.db.getRepositoryById r.repositoryId with
    | some target => some target
    | none => firstTarget t name slugs

def resolveRepositoryRedirect (t : PushTables) (orgSlug repoName : String) : Option RepositoryRef :=
  if (t.db.getRepository orgSlug repoName).isSome then none
  else if t.repositoryRedirects = [] ∧ t.organizationRedirects = [] then none
  else
    match t.db.orgIdBySlug orgSlug with
    | some orgId => t.firstTarget repoName (orgSlug :: t.formerSlugs orgId)
    | none =>
      match t.resolveOrganizationRedirect orgSlug with
      | none => t.firstTarget repoName [orgSlug]
      | some moved =>
        match t.repositoryIn moved.id repoName with
        | some there => t.db.getRepositoryById there.id
        | none => t.firstTarget repoName (orgSlug :: moved.slug :: t.formerSlugs moved.id)

def deleteRepository (t : PushTables) (id : RepoId) : PushTables :=
  let db : Db :=
    { t.db with
      repositories := t.db.repositories.filter fun r => decide (r.id ≠ id)
      repositoryBlobs := t.db.repositoryBlobs.filter fun b => decide (b.repositoryId ≠ id)
      manifestRefs := t.db.manifestRefs.filter fun m => decide (m.repositoryId ≠ id) }
  { t.withDb db with
    repositoryRedirects := t.repositoryRedirects.filter fun r => decide (r.repositoryId ≠ id)
    manifests := t.manifests.filter fun m => decide (m.repositoryId ≠ id)
    tags := t.tags.filter fun x => decide (x.repositoryId ≠ id)
    tagRules := t.tagRules.filter fun r => decide (r.rule.repositoryId ≠ some id) }

end PushTables

inductive NamingChange where
  /-- A push creates its repository if there is none. -/
  | push (org name : String) (v : Visibility) (fresh : RepoId)
  | createRepository (orgId : OrgId) (name : String) (v : Visibility) (fresh : RepoId)
  | renameRepository (id : RepoId) (newName : String)
  | transferRepository (id : RepoId) (targetId : OrgId)
  | deleteRepository (id : RepoId)
  | createOrganization (slug : String) (fresh : OrgId)
  | createOrganizationByApi (slug : String) (fresh : OrgId)
  | ensureLibrary (fresh : OrgId)
  | renameOrganization (orgId : OrgId) (newSlug : String)
  | deleteOrganization (orgId : OrgId)

/-- A change that is not refused. Identifiers of repositories are generated once. -/
def NamingChange.apply (t : PushTables) : NamingChange → Option PushTables
  | .push org name v fresh =>
    if t.db.repositories.any fun r => decide (r.id = fresh) then none
    else (t.ensureRepository org name v fresh).map Prod.fst
  | .createRepository orgId name v fresh => t.createRepository orgId name v fresh
  | .renameRepository id newName => t.renameRepository id newName
  | .transferRepository id targetId => t.transferRepository id targetId
  | .deleteRepository id => some (t.deleteRepository id)
  | .createOrganization slug fresh => t.createOrganization slug fresh
  | .createOrganizationByApi slug fresh => t.createOrganizationByApi slug fresh
  | .ensureLibrary fresh => t.ensureLibraryOrg fresh
  | .renameOrganization orgId newSlug => t.renameOrganizationChecked orgId newSlug
  | .deleteOrganization orgId => t.deleteOrganization orgId

def NamingChange.takes : NamingChange → Option String
  | .createOrganization slug _ => some slug
  | .createOrganizationByApi slug _ => some slug
  | .ensureLibrary _ => some librarySlug
  | .renameOrganization _ newSlug => some newSlug
  | _ => none

def NamingChange.renames : NamingChange → Option OrgId
  | .renameOrganization orgId _ => some orgId
  | _ => none

def PushTables.carriers (t : PushTables) : List (OrgId × String) :=
  t.db.organizations.map fun o => (o.id, o.slug)

def PushTables.holders (t : PushTables) : List (OrgId × String × RepoId) :=
  t.db.repositories.map fun r => (r.orgId, r.name, r.id)

/-! ## What a change does -/

/-- The tables after a repository got a name: redirects of the name under the slugs of its
organization are dropped. -/
def named (t : PushTables) (repositories : List Repository) (o : Organization) (name : String) :
    PushTables :=
  (t.withDb { t.db with repositories := repositories }).dropRedirects o.slug name o.id

inductive NamingCase (t : PushTables) (c : NamingChange) : PushTables → Prop where
  | same : NamingCase t c t
  | created (o : Organization) (r : Repository) : o ∈ t.db.organizations → r.orgId = o.id →
      (∀ x ∈ t.db.repositories, x.id ≠ r.id) →
      (∀ x ∈ t.db.repositories, ¬ (x.orgId = o.id ∧ x.name = r.name)) →
      NamingCase t c (named t (t.db.repositories ++ [r]) o r.name)
  | moved (source target : Organization) (old : Repository) (f : Repository → Repository) :
      source ∈ t.db.organizations → target ∈ t.db.organizations → old ∈ t.db.repositories →
      old.orgId = source.id → (∀ r, (f r).id = r.id) → (f old).orgId = target.id →
      (∀ x ∈ t.db.repositories, ¬ (x.orgId = target.id ∧ x.name = (f old).name)) →
      NamingCase t c ((named t (Table.update Repository.id old.id f t.db.repositories) target
        (f old).name).addRepositoryRedirect source.slug old.name old.id)
  | deleted (id : RepoId) : NamingCase t c (t.deleteRepository id)
  | organizationCreated (o : Organization) (t' : PushTables) :
      c.takes = some o.slug → c.renames = none →
      (t.clearOrganizationRedirect o.slug).insertOrganization o = some t' → NamingCase t c t'
  | organizationRenamed (source : Organization) (newSlug : String) :
      c = .renameOrganization source.id newSlug → source ∈ t.db.organizations →
      source.slug ≠ librarySlug → newSlug ≠ source.slug →
      (∀ o ∈ t.db.organizations, o.slug ≠ newSlug) → NamingCase t c (reslugged t source newSlug)
  | organizationDeleted (orgId : OrgId) : c = .deleteOrganization orgId →
      NamingCase t c (t.dropOrganization orgId)

structure NamesInOrder (t : PushTables) : Prop where
  wellNamed : t.WellNamed
  ids : Table.Keyed Repository.id t.db.repositories
  names : Table.Keyed (fun r : Repository => (r.orgId, r.name)) t.db.repositories
  former : Table.Keyed OrganizationRedirect.oldSlug t.organizationRedirects
  library : ∀ r ∈ t.organizationRedirects, r.oldSlug ≠ librarySlug

variable {org : String} {old : Repository} {f : Repository → Repository} {ref : RepositoryRef}

section changes

variable {t t' : PushTables} {c : NamingChange} {name : String} {orgId : OrgId}

theorem nameTaken_false : t.nameTaken orgId name = false ↔
    ∀ x ∈ t.db.repositories, ¬ (x.orgId = orgId ∧ x.name = name) := by
  simp [nameTaken]

variable {v : Visibility} {fresh : RepoId}

theorem naming_push
    (hs : (NamingChange.push org name v fresh).apply t = some t') (h : NamesInOrder t) :
    NamingCase t c t' := by
  simp only [NamingChange.apply] at hs
  split at hs
  · cases hs
  · rename_i hfresh
    rw [map_eq_some_iff] at hs
    obtain ⟨⟨t₁, r⟩, hensure, rfl⟩ := hs
    rcases ensureRepository_cases h.wellNamed hensure with rfl | ⟨o, ho, rfl, hname, rfl⟩
    · exact .same
    · refine .created o ⟨fresh, o.id, name, v⟩ ho rfl (fun x hx heq => ?_) (nameTaken_false.mp hname)
      exact hfresh (any_eq_true.mpr ⟨x, hx, decide_eq_true heq⟩)

theorem naming_create
    (hs : t.createRepository orgId name v fresh = some t') : NamingCase t c t' := by
  obtain ⟨o, horg, hname, hfresh, rfl⟩ := createRepository_cases hs
  obtain ⟨ho, rfl⟩ := find_some horg
  exact .created o ⟨fresh, o.id, name, v⟩ ho rfl hfresh (nameTaken_false.mp hname)

variable {id : RepoId}

theorem naming_rename {newName : String}
    (hs : t.renameRepository id newName = some t') : NamingCase t c t' := by
  obtain ⟨repo, o, hrepo, horg, hname, rfl⟩ := renameRepository_cases hs
  obtain ⟨hmem, rfl⟩ := find_some hrepo
  obtain ⟨ho, hid⟩ := find_some horg
  exact .moved o o repo (fun r => { r with name := newName }) ho ho hmem hid.symm (fun _ => rfl)
    hid.symm (nameTaken_false.mp hname)

theorem naming_transfer {targetId : OrgId}
    (hs : t.transferRepository id targetId = some t') : NamingCase t c t' := by
  obtain ⟨repo, source, target, hrepo, horg, htarget, hname, rfl⟩ := transferRepository_cases hs
  obtain ⟨hmem, rfl⟩ := find_some hrepo
  obtain ⟨hsource, hid⟩ := find_some horg
  exact .moved source target repo (fun r => { r with orgId := target.id }) hsource
    (find_some htarget).1 hmem hid.symm (fun _ => rfl) rfl (nameTaken_false.mp hname)

variable {slug : String}

theorem naming_createOrganization {fresh : OrgId} (hc : c.takes = some slug)
    (hrenames : c.renames = none) (hs : t.createOrganization slug fresh = some t') : NamingCase t c t' := by
  unfold createOrganization at hs
  split at hs
  · cases hs
  · exact .organizationCreated ⟨fresh, slug⟩ t' hc hrenames hs

theorem naming_ensureLibrary {fresh : OrgId} (hs : t.ensureLibraryOrg fresh = some t')
    (h : NamesInOrder t) : NamingCase t (.ensureLibrary fresh) t' := by
  unfold ensureLibraryOrg at hs
  split at hs
  · cases hs
    exact .same
  · -- there is no redirect from library to clear
    have hrows : t.organizationRedirects.filter (fun r => decide (r.oldSlug ≠ librarySlug)) =
        t.organizationRedirects :=
      filter_eq_self.mpr fun r hr => decide_eq_true (h.library r hr)
    have hclear : t.clearOrganizationRedirect librarySlug = t := by
      unfold clearOrganizationRedirect
      rw [hrows]
    refine .organizationCreated ⟨fresh, librarySlug⟩ t' rfl rfl ?_
    rw [hclear]
    exact hs

theorem naming_deleteOrganization (hs : t.deleteOrganization orgId = some t') :
    NamingCase t (.deleteOrganization orgId) t' := by
  unfold deleteOrganization at hs
  split at hs
  · cases hs
  · split at hs
    · cases hs
    · cases hs
      exact .organizationDeleted orgId rfl

theorem naming_cases (hs : c.apply t = some t') (h : NamesInOrder t) : NamingCase t c t' := by
  cases c with
  | push org name v fresh => exact naming_push hs h
  | createRepository orgId name v fresh => exact naming_create hs
  | renameRepository id newName => exact naming_rename hs
  | transferRepository id targetId => exact naming_transfer hs
  | deleteRepository id =>
    cases hs
    exact .deleted id
  | createOrganization slug fresh => exact naming_createOrganization rfl rfl hs
  | createOrganizationByApi slug fresh =>
    exact naming_createOrganization rfl rfl (createOrganization_of_api hs)
  | ensureLibrary fresh => exact naming_ensureLibrary hs h
  | renameOrganization orgId newSlug =>
    obtain ⟨source, hsource, rfl, hlibrary, -, -, hne, hfree, rfl⟩ :=
      renameOrganizationChecked_cases hs
    exact .organizationRenamed source newSlug rfl hsource hlibrary hne hfree
  | deleteOrganization orgId => exact naming_deleteOrganization hs

theorem wellNamed_deleted (h : t.WellNamed) (id : RepoId) : (t.deleteRepository id).WellNamed := by
  refine ⟨h.orgs, h.slugs, h.redirects.filter _, h.current, h.formerOrgs, fun r hr => ?_,
    fun repo hrepo => h.owners repo (mem_filter.mp hrepo).1⟩
  obtain ⟨hold, hne⟩ := mem_filter.mp hr
  obtain ⟨repo, hrepo, hid⟩ := h.targets r hold
  refine ⟨repo, mem_filter.mpr ⟨hrepo, decide_eq_true ?_⟩, hid⟩
  rw [hid]
  exact of_decide_eq_true hne

theorem keyed_moved_names (h : NamesInOrder t)
    (hfree : ∀ x ∈ t.db.repositories, ¬ (x.orgId = (f old).orgId ∧ x.name = (f old).name))
    (hold : old ∈ t.db.repositories) :
    Table.Keyed (fun r : Repository => (r.orgId, r.name))
      (Table.update Repository.id old.id f t.db.repositories) := by
  show ((t.db.repositories.map _).map (fun r : Repository => (r.orgId, r.name))).Nodup
  rw [map_map]
  refine List.Nodup.map_on (fun a ha b hb heq => ?_) (List.Nodup.of_map _ h.ids)
  simp only [Function.comp_apply] at heq
  have hsame (x : Repository) (hx : x ∈ t.db.repositories) (hid : x.id = old.id) : x = old :=
    h.ids.eq_of_key hx hold hid
  by_cases hida : a.id = old.id
  · by_cases hidb : b.id = old.id
    · exact h.ids.eq_of_key ha hb (hida.trans hidb.symm)
    · rw [if_pos hida, if_neg hidb, hsame a ha hida] at heq
      obtain ⟨horg, hname⟩ := Prod.mk.inj heq
      exact absurd ⟨horg.symm, hname.symm⟩ (hfree b hb)
  · by_cases hidb : b.id = old.id
    · rw [if_neg hida, if_pos hidb, hsame b hb hidb] at heq
      obtain ⟨horg, hname⟩ := Prod.mk.inj heq
      exact absurd ⟨horg, hname⟩ (hfree a ha)
    · rw [if_neg hida, if_neg hidb] at heq
      exact h.names.eq_of_key ha hb heq

theorem NamesInOrder.step (h : NamesInOrder t) (hcase : NamingCase t c t') : NamesInOrder t' := by
  cases hcase with
  | same => exact h
  | created o r ho horg hid hname =>
    have hwell := (evolves_created h.wellNamed r ho horg.symm o.slug).wellNamed
    rw [horg] at hwell
    refine ⟨hwell, h.ids.append hid, h.names.append fun x hx heq => ?_, h.former, h.library⟩
    obtain ⟨hxorg, hxname⟩ := Prod.mk.inj heq
    exact hname x hx ⟨hxorg.trans horg, hxname⟩
  | moved source target old f hsource htarget hold hin hf hto hname =>
    have hfind := h.wellNamed.orgs.find_self hsource
    rw [← hin] at hfind
    have hwell := evolves_moved h.wellNamed (h.ids.find_self hold) hfind f hf
      ⟨target, htarget, fun r hid hr => .inl (by rw [h.ids.eq_of_key hr hold hid, hto])⟩
      target.slug (f old).name target.id
    refine ⟨hwell.wellNamed, h.ids.update hf, keyed_moved_names h ?_ hold, h.former, h.library⟩
    rw [hto]
    exact hname
  | deleted id =>
    exact ⟨wellNamed_deleted h.wellNamed id, h.ids.filter _, h.names.filter _, h.former, h.library⟩
  | organizationCreated o t' _ _ hs =>
    have hfree : ∀ r ∈ (t.clearOrganizationRedirect o.slug).organizationRedirects,
        r.oldSlug ≠ o.slug := fun r hr => of_decide_eq_true (mem_filter.mp hr).2
    have hwell := (h.wellNamed.cleared o.slug).inserted hfree hs
    obtain ⟨-, -, rfl⟩ := insertOrganization_cases hs
    exact ⟨hwell, h.ids, h.names, h.former.filter _, fun r hr => h.library r (mem_filter.mp hr).1⟩
  | organizationRenamed source newSlug _ hsource hlibrary hne hfree =>
    refine ⟨reslugged_wellNamed h.wellNamed hsource hne hfree, h.ids, h.names,
      (h.former.filter _).upsert _, fun r hr => ?_⟩
    rcases mem_reslugged_redirects hr with ⟨hold, -⟩ | rfl
    · exact h.library r hold
    · exact hlibrary
  | organizationDeleted orgId _ =>
    exact ⟨h.wellNamed.dropped orgId, h.ids.filter _, h.names.filter _, h.former.filter _,
      fun r hr => h.library r (mem_filter.mp hr).1⟩

/-! ## The slugs of an organization -/

variable {o : Organization}

theorem mem_carriers (ho : o ∈ t.db.organizations) : (o.id, o.slug) ∈ t.carriers :=
  mem_map.mpr ⟨o, ho, rfl⟩

theorem mem_holders {r : Repository} (hr : r ∈ t.db.repositories) :
    (r.orgId, r.name, r.id) ∈ t.holders :=
  mem_map.mpr ⟨r, hr, rfl⟩

theorem mem_formerSlugs : slug ∈ t.formerSlugs orgId ↔ ⟨slug, orgId⟩ ∈ t.organizationRedirects := by
  unfold formerSlugs
  rw [mem_map]
  constructor
  · rintro ⟨r, hr, rfl⟩
    obtain ⟨hmem, hid⟩ := mem_filter.mp hr
    rw [← of_decide_eq_true hid]
    exact hmem
  · intro hmem
    exact ⟨⟨slug, orgId⟩, mem_filter.mpr ⟨hmem, decide_eq_true rfl⟩, rfl⟩

theorem NamingCase.redirects (hcase : NamingCase t c t') {r : OrganizationRedirect}
    (hr : r ∈ t'.organizationRedirects) :
    r ∈ t.organizationRedirects ∨ ∃ o ∈ t.db.organizations, r = ⟨o.slug, o.id⟩ := by
  cases hcase with
  | same | created | moved | deleted id => exact .inl hr
  | organizationCreated o t' _ _ hs =>
    obtain ⟨-, -, rfl⟩ := insertOrganization_cases hs
    exact .inl (mem_filter.mp hr).1
  | organizationRenamed source newSlug _ hsource =>
    rcases mem_reslugged_redirects hr with ⟨hold, -⟩ | hnew
    · exact .inl hold
    · exact .inr ⟨source, hsource, hnew⟩
  | organizationDeleted orgId _ => exact .inl (mem_filter.mp hr).1

theorem NamesInOrder.slugsOf_unique (h : NamesInOrder t) {a b : Organization}
    (ha : a ∈ t.db.organizations) (hb : b ∈ t.db.organizations)
    (hsa : slug ∈ t.slugsOf a) (hsb : slug ∈ t.slugsOf b) : a = b := by
  apply h.wellNamed.orgs.eq_of_key ha hb
  rcases mem_cons.mp hsa with rfl | hsa
  · rcases mem_cons.mp hsb with heq | hsb
    · exact congrArg _ (h.wellNamed.slugs.eq_of_key ha hb heq)
    · exact absurd rfl (h.wellNamed.current a ha _ (mem_formerSlugs.mp hsb))
  · rcases mem_cons.mp hsb with rfl | hsb
    · exact absurd rfl (h.wellNamed.current b hb _ (mem_formerSlugs.mp hsa))
    · have hrow := h.former.eq_of_key (mem_formerSlugs.mp hsa) (mem_formerSlugs.mp hsb) rfl
      exact congrArg OrganizationRedirect.organizationId hrow

theorem mem_named_redirects {repositories : List Repository} {r : RepositoryRedirect} :
    r ∈ (named t repositories o name).repositoryRedirects ↔ r ∈ t.repositoryRedirects ∧
      ¬ (r.repositoryName = name ∧ r.organizationSlug ∈ t.slugsOf o) := by
  have hkept : r ∈ (named t repositories o name).repositoryRedirects ↔
      r ∈ t.repositoryRedirects ∧ (!(decide (r.repositoryName = name) &&
        (t.slugsOf o).contains r.organizationSlug)) = true := mem_filter
  rw [hkept]
  simp [imp_iff_not_or]

theorem getRepositoryById_id {db : Db}
    (hs : db.getRepositoryById id = some ref) : ref.repository.id = id := by
  unfold Db.getRepositoryById at hs
  cases hr : Table.find Repository.id id db.repositories with
  | none => simp [hr] at hs
  | some r =>
    simp only [hr, map_eq_some_iff] at hs
    obtain ⟨o, -, rfl⟩ := hs
    exact (find_some hr).2

theorem firstTarget_some {slugs : List String} (hs : t.firstTarget name slugs = some ref) :
    ∃ slug ∈ slugs, ⟨slug, name, ref.repository.id⟩ ∈ t.repositoryRedirects := by
  induction slugs with
  | nil => cases hs
  | cons slug slugs ih =>
    simp only [firstTarget] at hs
    split at hs
    · rename_i target htarget
      cases hs
      obtain ⟨r, hr, hget⟩ := Option.bind_eq_some_iff.mp htarget
      obtain ⟨hmem, hkey⟩ := find_some hr
      obtain ⟨hslug, hname⟩ := Prod.mk.inj hkey
      refine ⟨slug, mem_cons_self, ?_⟩
      rw [getRepositoryById_id hget, ← hslug, ← hname]
      exact hmem
    · obtain ⟨slug', hslug', hrow⟩ := ih hs
      exact ⟨slug', mem_cons_of_mem _ hslug', hrow⟩

end changes

theorem namesInOrder_empty : NamesInOrder noOrganizations :=
  ⟨(slugTables_empty _ rfl).wellNamed, nodup_nil, nodup_nil, nodup_nil, nofun⟩

/-! ## Redirects lead to former holders

A redirect of a repository is kept under the slug of its organization at the time. Another
organization can take that slug over and pass it on, with the redirects under it. -/

/-- The tables, with every slug an organization has had and every repository it has contained
under a name. -/
structure NameHistory where
  tables : PushTables
  carried : List (OrgId × String)
  held : List (OrgId × String × RepoId)

def NameHistory.after (s : NameHistory) (t : PushTables) : NameHistory :=
  ⟨t, s.carried ++ t.carriers, s.held ++ t.holders⟩

def nameHistories : Machine NameHistory NamingChange where
  init s := NamesInOrder s.tables ∧ s.tables.repositoryRedirects = [] ∧
    s.tables.organizationRedirects = [] ∧ s.carried = s.tables.carriers ∧
    s.held = s.tables.holders
  step s c := (c.apply s.tables).map s.after

/-- Condition: the redirects under the slug an organization gives up, and under the one it
takes, are those of its own repositories. -/
def passesOwn (s : NameHistory) : NamingChange → Bool
  | .renameOrganization orgId newSlug =>
    s.tables.db.organizations.all fun o => !decide (o.id = orgId) ||
      s.tables.repositoryRedirects.all fun r =>
        !decide (r.organizationSlug = o.slug ∨ r.organizationSlug = newSlug) ||
          decide ((orgId, r.repositoryName, r.repositoryId) ∈ s.held)
  | _ => true

abbrev PassesOwn (s : NameHistory) (c : NamingChange) : Prop := passesOwn s c = true

/-! ## The invariant -/

/-- Every redirect has a former holder, and those under the slugs of an organization that has
changed its slug are of its own repositories. -/
structure FormerHolders (t : PushTables) (carried : List (OrgId × String))
    (held : List (OrgId × String × RepoId)) : Prop where
  names : NamesInOrder t
  carriers : ∀ x ∈ t.carriers, x ∈ carried
  holders : ∀ x ∈ t.holders, x ∈ held
  slugs : ∀ r ∈ t.organizationRedirects, (r.organizationId, r.oldSlug) ∈ carried
  rows : ∀ r ∈ t.repositoryRedirects, ∃ holder, (holder, r.organizationSlug) ∈ carried ∧
    (holder, r.repositoryName, r.repositoryId) ∈ held
  own : ∀ o ∈ t.db.organizations, t.formerSlugs o.id ≠ [] → ∀ r ∈ t.repositoryRedirects,
    r.organizationSlug ∈ t.slugsOf o → (o.id, r.repositoryName, r.repositoryId) ∈ held

section steps

variable {t t' : PushTables} {carried : List (OrgId × String)}
  {held : List (OrgId × String × RepoId)}

/-- A step keeps the invariant if every row it adds has a holder, and every row under a slug
of a renamed organization was there under such a slug or is of its own repositories. -/
theorem FormerHolders.after_of_rows (h : FormerHolders t carried held) (hnames : NamesInOrder t')
    (hslugs : ∀ r ∈ t'.organizationRedirects, (r.organizationId, r.oldSlug) ∈ carried)
    (hrows : ∀ r ∈ t'.repositoryRedirects, r ∈ t.repositoryRedirects ∨
      ∃ holder, (holder, r.organizationSlug) ∈ carried ∧
        (holder, r.repositoryName, r.repositoryId) ∈ held)
    (hown : ∀ o ∈ t'.db.organizations, t'.formerSlugs o.id ≠ [] → ∀ r ∈ t'.repositoryRedirects,
      r.organizationSlug ∈ t'.slugsOf o → (o.id, r.repositoryName, r.repositoryId) ∈ held) :
    FormerHolders t' (carried ++ t'.carriers) (held ++ t'.holders) := by
  refine ⟨hnames, fun x hx => mem_append_right _ hx, fun x hx => mem_append_right _ hx,
    fun r hr => mem_append_left _ (hslugs r hr), fun r hr => ?_,
    fun o ho hformer r hr hslug => mem_append_left _ (hown o ho hformer r hr hslug)⟩
  have hholder : ∃ holder, (holder, r.organizationSlug) ∈ carried ∧
      (holder, r.repositoryName, r.repositoryId) ∈ held := by
    rcases hrows r hr with hold | hnew
    · exact h.rows r hold
    · exact hnew
  obtain ⟨holder, hcarried, hheld⟩ := hholder
  exact ⟨holder, mem_append_left _ hcarried, mem_append_left _ hheld⟩

theorem FormerHolders.after_subset (h : FormerHolders t carried held) (hnames : NamesInOrder t')
    (horgs : ∀ o ∈ t'.db.organizations, o ∈ t.db.organizations ∨ t'.formerSlugs o.id = [])
    (hslugs : ∀ r ∈ t'.organizationRedirects, r ∈ t.organizationRedirects)
    (hrows : ∀ r ∈ t'.repositoryRedirects, r ∈ t.repositoryRedirects) :
    FormerHolders t' (carried ++ t'.carriers) (held ++ t'.holders) := by
  have hformer (id : OrgId) (slug : String) (hs : slug ∈ t'.formerSlugs id) :
      slug ∈ t.formerSlugs id := mem_formerSlugs.mpr (hslugs _ (mem_formerSlugs.mp hs))
  refine h.after_of_rows hnames (fun r hr => h.slugs r (hslugs r hr))
    (fun r hr => .inl (hrows r hr)) fun o ho hne r hr hslug => ?_
  rcases horgs o ho with hold | hnil
  · refine h.own o hold (fun hnil => ?_) r (hrows r hr) ?_
    · obtain ⟨slug, hs⟩ := exists_mem_of_ne_nil _ hne
      have hin := hformer o.id slug hs
      rw [hnil] at hin
      cases hin
    · rcases mem_cons.mp hslug with hslug | hslug
      · exact hslug ▸ mem_cons_self
      · exact mem_cons_of_mem _ (hformer o.id _ hslug)
  · exact absurd hnil hne

variable {source : Organization}

theorem FormerHolders.after_moved (h : FormerHolders t carried held) {target : Organization}
    (hsource : source ∈ t.db.organizations)
    (hold : old ∈ t.db.repositories) (hin : old.orgId = source.id)
    (ht' : t' = (named t (Table.update Repository.id old.id f t.db.repositories) target
      (f old).name).addRepositoryRedirect source.slug old.name old.id)
    (hnames : NamesInOrder t') : FormerHolders t' (carried ++ t'.carriers) (held ++ t'.holders) := by
  have hheld : (source.id, old.name, old.id) ∈ held := by
    rw [← hin]
    exact h.holders _ (mem_holders hold)
  have hrow (r : RepositoryRedirect) (hr : r ∈ t'.repositoryRedirects) :
      r ∈ t.repositoryRedirects ∨ r = ⟨source.slug, old.name, old.id⟩ := by
    rw [ht'] at hr
    rcases mem_of_mem_upsert hr with hkept | hnew
    · exact .inl (mem_named_redirects.mp hkept).1
    · exact .inr hnew
  have horgs : t'.db.organizations = t.db.organizations := by
    rw [ht']
    rfl
  have hredirects : t'.organizationRedirects = t.organizationRedirects := by
    rw [ht']
    rfl
  have hformer (o : Organization) : t'.formerSlugs o.id = t.formerSlugs o.id := by
    unfold formerSlugs
    rw [hredirects]
  refine h.after_of_rows hnames (fun r hr => ?_) (fun r hr => ?_) fun o ho hne r hr hslug => ?_
  · rw [hredirects] at hr
    exact h.slugs r hr
  · rcases hrow r hr with hkept | rfl
    · exact .inl hkept
    · exact .inr ⟨source.id, h.carriers _ (mem_carriers hsource), hheld⟩
  · rw [horgs] at ho
    rw [hformer] at hne
    have hslug : r.organizationSlug ∈ t.slugsOf o := by
      unfold slugsOf at hslug ⊢
      rw [hformer] at hslug
      exact hslug
    rcases hrow r hr with hkept | rfl
    · exact h.own o ho hne r hkept hslug
    · -- the current slug of the source leads to the source alone
      have hsame : o = source := h.names.slugsOf_unique ho hsource hslug mem_cons_self
      rw [hsame]
      exact hheld

theorem FormerHolders.after_reslugged (h : FormerHolders t carried held)
    {newSlug : String} (hsource : source ∈ t.db.organizations)
    (hpasses : ∀ r ∈ t.repositoryRedirects,
      r.organizationSlug = source.slug ∨ r.organizationSlug = newSlug →
        (source.id, r.repositoryName, r.repositoryId) ∈ held)
    (hnames : NamesInOrder (reslugged t source newSlug)) :
    FormerHolders (reslugged t source newSlug) (carried ++ (reslugged t source newSlug).carriers)
      (held ++ (reslugged t source newSlug).holders) := by
  have hformer (id : OrgId) (slug : String)
      (hs : slug ∈ (reslugged t source newSlug).formerSlugs id) :
      slug ∈ t.formerSlugs id ∨ (slug = source.slug ∧ id = source.id) := by
    rcases mem_reslugged_redirects (mem_formerSlugs.mp hs) with ⟨hold, -⟩ | heq
    · exact .inl (mem_formerSlugs.mpr hold)
    · cases heq
      exact .inr ⟨rfl, rfl⟩
  refine h.after_of_rows hnames (fun r hr => ?_) (fun r hr => .inl hr)
    fun o ho hne r hr hslug => ?_
  · rcases mem_reslugged_redirects hr with ⟨hold, -⟩ | rfl
    · exact h.slugs r hold
    · exact h.carriers _ (mem_carriers hsource)
  · have hslug : r.organizationSlug = o.slug ∨
        r.organizationSlug ∈ (reslugged t source newSlug).formerSlugs o.id := mem_cons.mp hslug
    have hrow : r ∈ t.repositoryRedirects := hr
    rcases mem_reslugged ho with ⟨hold, hid⟩ | ⟨hid, hnew⟩
    · -- another organization: its slugs are those it had
      have hkept (slug : String) (hs : slug ∈ (reslugged t source newSlug).formerSlugs o.id) :
          slug ∈ t.formerSlugs o.id := by
        rcases hformer _ _ hs with hs | ⟨-, heq⟩
        · exact hs
        · exact absurd heq hid
      obtain ⟨slug, hs⟩ := exists_mem_of_ne_nil _ hne
      refine h.own o hold (ne_nil_of_mem (hkept slug hs)) r hrow ?_
      rcases hslug with hslug | hslug
      · exact hslug ▸ mem_cons_self
      · exact mem_cons_of_mem _ (hkept _ hslug)
    · rw [hid]
      rcases hslug with hslug | hslug
      · exact hpasses r hrow (.inr (hslug.trans hnew))
      · rcases hformer _ _ hslug with hs | ⟨hs, -⟩
        · rw [hid] at hs
          exact h.own source hsource (ne_nil_of_mem hs) r hrow (mem_cons_of_mem _ hs)
        · exact hpasses r hrow (.inl hs)

theorem FormerHolders.step {c : NamingChange} (h : FormerHolders t carried held)
    (hpasses : PassesOwn ⟨t, carried, held⟩ c) (hs : c.apply t = some t') :
    FormerHolders t' (carried ++ t'.carriers) (held ++ t'.holders) := by
  have hcase := naming_cases hs h.names
  have hnames := h.names.step hcase
  cases hcase with
  | same => exact h.after_subset hnames (fun o ho => .inl ho) (fun r hr => hr) fun r hr => hr
  | created o r ho horg hid hname =>
    exact h.after_subset hnames (fun o ho => .inl ho) (fun r hr => hr)
      fun r hr => (mem_named_redirects.mp hr).1
  | moved source target old f hsource htarget hold hin hf hto hname =>
    exact h.after_moved hsource hold hin rfl hnames
  | deleted id =>
    exact h.after_subset hnames (fun o ho => .inl ho) (fun r hr => hr)
      fun r hr => (mem_filter.mp hr).1
  | organizationCreated o t' _ _ hinsert =>
    obtain ⟨hid, -, rfl⟩ := insertOrganization_cases hinsert
    refine h.after_subset hnames (fun x hx => ?_) (fun r hr => (mem_filter.mp hr).1)
      fun r hr => hr
    rcases mem_append.mp hx with hx | hx
    · exact .inl hx
    · right
      rw [mem_singleton.mp hx]
      refine eq_nil_iff_forall_not_mem.mpr fun slug hs => ?_
      -- no redirect names an organization that is new
      have hrow := (mem_filter.mp (mem_formerSlugs.mp hs)).1
      obtain ⟨x, hx, heq⟩ := h.names.wellNamed.formerOrgs _ hrow
      exact hid x hx heq
  | organizationRenamed source newSlug hc hsource hlibrary hne hfree =>
    subst hc
    refine h.after_reslugged hsource (fun r hr hslug => ?_) hnames
    have hall := all_eq_true.mp hpasses source hsource
    simp only [decide_true, Bool.not_true, Bool.false_or] at hall
    have hrow := all_eq_true.mp hall r hr
    simpa [hslug] using hrow
  | organizationDeleted orgId _ =>
    exact h.after_subset hnames (fun o ho => .inl (mem_filter.mp ho).1)
      (fun r hr => (mem_filter.mp hr).1) fun r hr => (mem_filter.mp hr).1

theorem FormerHolders.resolves (h : FormerHolders t carried held) {name : String}
    (hs : t.resolveRepositoryRedirect org name = some ref) :
    ∃ holder, (holder, org) ∈ carried ∧ (holder, name, ref.repository.id) ∈ held := by
  have hunder (o : Organization) (ho : o ∈ t.db.organizations) (slug : String)
      (hslug : slug ∈ t.slugsOf o) (hne : t.formerSlugs o.id ≠ [])
      (hrow : ⟨slug, name, ref.repository.id⟩ ∈ t.repositoryRedirects) :
      (o.id, name, ref.repository.id) ∈ held := h.own o ho hne _ hrow hslug
  unfold resolveRepositoryRedirect at hs
  split at hs
  · cases hs
  · split at hs
    · cases hs
    · split at hs
      · -- an organization of the slug
        rename_i orgId horg
        obtain ⟨o, ho, hslug, rfl⟩ := (orgIdBySlug_eq_some h.names.wellNamed).mp horg
        obtain ⟨slug, hin, hrow⟩ := firstTarget_some hs
        rcases mem_cons.mp hin with rfl | hin
        · exact h.rows _ hrow
        · refine ⟨o.id, hslug ▸ h.carriers _ (mem_carriers ho), ?_⟩
          exact hunder o ho slug (mem_cons_of_mem _ hin) (ne_nil_of_mem hin) hrow
      · split at hs
        · -- no organization has or had the slug last
          obtain ⟨slug, hin, hrow⟩ := firstTarget_some hs
          cases mem_singleton.mp hin
          exact h.rows _ hrow
        · rename_i moved hmoved
          obtain ⟨r, hr, hfind⟩ := Option.bind_eq_some_iff.mp hmoved
          obtain ⟨hredirect, rfl⟩ := find_some hr
          obtain ⟨hmem, hid⟩ := find_some hfind
          have hcarried : (moved.id, r.oldSlug) ∈ carried := by
            rw [hid]
            exact h.slugs r hredirect
          have hformer : r.oldSlug ∈ t.formerSlugs moved.id := by
            rw [hid]
            exact mem_formerSlugs.mpr hredirect
          refine ⟨moved.id, hcarried, ?_⟩
          split at hs
          · rename_i there hthere
            obtain ⟨hrepo, hkey⟩ := find_some hthere
            obtain ⟨horg, hname⟩ := Prod.mk.inj hkey
            rw [getRepositoryById_id hs, ← horg, ← hname]
            exact h.holders _ (mem_holders hrepo)
          · obtain ⟨slug, hin, hrow⟩ := firstTarget_some hs
            refine hunder moved hmem slug ?_ (ne_nil_of_mem hformer) hrow
            rcases mem_cons.mp hin with rfl | hin
            · exact mem_cons_of_mem _ hformer
            · exact hin

end steps

theorem formerHolders_run {s : NameHistory} (hrun : nameHistories.Run PassesOwn s) :
    FormerHolders s.tables s.carried s.held := by
  refine Machine.Run.invariant (I := fun s => FormerHolders s.tables s.carried s.held)
    (fun s hinit => ?_) (fun s c s' _ h hpasses hs => ?_) hrun
  · obtain ⟨hnames, hrows, hslugs, hcarried, hheld⟩ := hinit
    refine ⟨hnames, fun x hx => hcarried ▸ hx, fun x hx => hheld ▸ hx, ?_, ?_, ?_⟩ <;>
      simp [hrows, hslugs]
  · obtain ⟨t', happly, rfl⟩ := map_eq_some_iff.mp hs
    exact h.step hpasses happly

/-- **Redirects only lead to former holders** as long as no organization passes on a slug with
redirects of another. -/
theorem redirects_lead_to_former_holders {s : NameHistory}
    (hrun : nameHistories.Run PassesOwn s) (org name : String) :
    (∀ ref, s.tables.resolveRepositoryRedirect org name = some ref →
      ∃ holder, (holder, org) ∈ s.carried ∧ (holder, name, ref.repository.id) ∈ s.held) ∧
    ∀ id, (∀ holder n, (holder, n, id) ∈ s.held → (holder, org) ∉ s.carried) →
      ∀ ref, s.tables.resolveRepositoryRedirect org name = some ref → ref.repository.id ≠ id := by
  have h := formerHolders_run hrun
  refine ⟨fun ref href => h.resolves href, fun id hnever ref href hid => ?_⟩
  obtain ⟨holder, hcarried, hheld⟩ := h.resolves href
  exact hnever holder name (hid ▸ hheld) hcarried

def noNames : NameHistory := ⟨noOrganizations, [], []⟩

theorem noNames_init : nameHistories.init noNames :=
  ⟨namesInOrder_empty, rfl, rfl, rfl, rfl⟩

def renamedTwice : List NamingChange :=
  [.createOrganization "acme" "o1", .createRepository "o1" "app" .public "r1",
    .renameRepository "r1" "core", .renameOrganization "o1" "acme-labs",
    .createOrganization "other" "o2"]

def leadsTo (s : NameHistory) (org name : String) : Option RepoId :=
  (s.tables.resolveRepositoryRedirect org name).map (·.repository.id)

theorem redirects_lead_to_former_holders_renamed :
    ∃ s, nameHistories.Run PassesOwn s ∧ leadsTo s "acme" "app" = some "r1" ∧
      ∃ holder, (holder, "acme") ∈ s.carried ∧ (holder, "app", "r1") ∈ s.held := by
  have hfacts : (nameHistories.replay PassesOwn noNames renamedTwice).map
      (fun s => leadsTo s "acme" "app") = some (some "r1") := by
    decide +kernel
  obtain ⟨s, hs, hleads⟩ := map_eq_some_iff.mp hfacts
  have hrun := Machine.run_of_replay (M := nameHistories) noNames_init hs
  obtain ⟨ref, href, hid⟩ := map_eq_some_iff.mp hleads
  refine ⟨s, hrun, hleads, ?_⟩
  rw [← hid]
  exact (redirects_lead_to_former_holders hrun "acme" "app").1 ref href

/-- An organization takes a slug with redirects of another, and gives it up. -/
def slugPassedOn : List NamingChange :=
  [.createOrganization "acme" "o1", .createRepository "o1" "app" .public "r1",
    .renameRepository "r1" "core", .renameOrganization "o1" "acme-labs",
    .createOrganization "acme" "o2", .renameOrganization "o2" "other"]

theorem slug_passes_redirects_on : ¬ ∀ s, nameHistories.Reachable s → ∀ org name ref,
      s.tables.resolveRepositoryRedirect org name = some ref →
        ∃ holder, (holder, org) ∈ s.carried ∧ (holder, name, ref.repository.id) ∈ s.held := by
  intro hall
  have hfacts : (nameHistories.replay (fun _ _ => True) noNames slugPassedOn).map
      (fun s => (leadsTo s "other" "app", s.carried.filter fun x => decide (x.2 = "other"),
        s.held.filter fun x => decide (x.1 = "o2"))) =
        some (some "r1", [("o2", "other")], []) := by
    decide +kernel
  obtain ⟨s, hs, hview⟩ := map_eq_some_iff.mp hfacts
  have hreach := Machine.run_of_replay (M := nameHistories) noNames_init hs
  obtain ⟨hleads, hrest⟩ := Prod.mk.inj hview
  obtain ⟨hcarriers, hheld⟩ := Prod.mk.inj hrest
  obtain ⟨ref, href, -⟩ := map_eq_some_iff.mp hleads
  obtain ⟨holder, hcarried, hin⟩ := hall s hreach "other" "app" ref href
  have hfiltered : (holder, "other") ∈ s.carried.filter fun x => decide (x.2 = "other") :=
    mem_filter.mpr ⟨hcarried, decide_eq_true rfl⟩
  rw [hcarriers] at hfiltered
  obtain ⟨rfl, -⟩ := Prod.mk.inj (mem_singleton.mp hfiltered)
  have hnone : ("o2", "app", ref.repository.id) ∈ s.held.filter fun x => decide (x.1 = "o2") :=
    mem_filter.mpr ⟨hin, decide_eq_true rfl⟩
  rw [hheld] at hnone
  cases hnone

end Chicoree.Registryd
