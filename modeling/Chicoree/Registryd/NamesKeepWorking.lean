import Mathlib.Data.List.Nodup
import Chicoree.Registryd.NameHistories

/-! # Former names keep working

A name that a repository had leads to it until the name or the slug is reused. A redirect is kept
under the slug that the organization had when the repository left the name; its other slugs lead
to that one, as long as it has them. -/

namespace Chicoree.Registryd

open Transition List Table

/-! ## What is promised -/

/-- A full name that a repository has or had, with the organization it had it in. -/
structure NamePromise where
  repo : RepoId
  org : OrgId
  slug : String
  name : String
deriving DecidableEq

def PushTables.fullNames (t : PushTables) : List NamePromise :=
  t.db.repositories.filterMap fun r =>
    (t.findOrganization r.orgId).map fun o => ⟨r.id, o.id, o.slug, r.name⟩

def PushTables.resolves (t : PushTables) (org name : String) : Option RepoId :=
  match t.db.getRepository org name with
  | some r => some r.id
  | none => (t.resolveRepositoryRedirect org name).map (·.repository.id)

/-- The tables, the slugs every organization has had, and the former names in force. -/
structure NameLedger where
  tables : PushTables
  carried : List (OrgId × String)
  promises : List NamePromise

/-- Whether a change gives the name to another repository, in an organization that has or had
the slug. -/
def givesName (t t' : PushTables) (carried : List (OrgId × String)) (p : NamePromise) : Bool :=
  t'.db.repositories.any fun r =>
    decide (r.id ≠ p.repo ∧ r.name = p.name ∧ (r.orgId, p.slug) ∈ carried) &&
      !t.db.repositories.any fun x => decide (x.id = r.id ∧ x.orgId = r.orgId ∧ x.name = r.name)

def givesSlug (t t' : PushTables) (p : NamePromise) : Bool :=
  t'.db.organizations.any fun o => decide (o.id ≠ p.org ∧ o.slug = p.slug ∧ o ∉ t.db.organizations)

/-- A former name stays in force while its repository exists and neither the name nor the slug
is reused; a current one is in force again. -/
def NameLedger.after (s : NameLedger) (t : PushTables) : NameLedger :=
  let carried := s.carried ++ t.carriers
  let kept := s.promises.filter fun p => t.db.repositories.any (fun r => decide (r.id = p.repo)) &&
    !givesName s.tables t carried p && !givesSlug s.tables t p
  ⟨t, carried, kept ++ t.fullNames⟩

/-- The histories without deletions of organizations, from tables without redirects. -/
def nameLedgers : Machine NameLedger NamingChange where
  init s := NamesInOrder s.tables ∧ s.tables.repositoryRedirects = [] ∧
    s.tables.organizationRedirects = [] ∧ s.carried = s.tables.carriers ∧
    s.promises = s.tables.fullNames
  step s c :=
    match c with
    | .deleteOrganization _ => none
    | c => (c.apply s.tables).map s.after

/-! ## The condition -/

def onlyTo (t : PushTables) (slug name : String) (repo : RepoId) : Bool :=
  t.repositoryRedirects.all fun r =>
    !decide (r.organizationSlug = slug ∧ r.repositoryName = name) || decide (r.repositoryId = repo)

def inPlace (t : PushTables) (p : NamePromise) : Bool :=
  t.db.repositories.any fun r => decide (r.id = p.repo ∧ r.orgId = p.org ∧ r.name = p.name)

/-- Whether a redirect of the name, under another slug of the organization of the promise,
leads to the repository. -/
def ledElsewhere (t : PushTables) (slug : String) (p : NamePromise) : Bool :=
  t.db.organizations.any fun o => decide (o.id = p.org) &&
    (t.slugsOf o).any fun s => decide (s ≠ slug ∧ ⟨s, p.name, p.repo⟩ ∈ t.repositoryRedirects)

/-- Condition: a slug that is taken brings an organization no redirect of a name it has or
promises to another repository, and costs another organization no redirect it needs. -/
def takesSafely (s : NameLedger) (c : NamingChange) : Bool :=
  match c.takes with
  | none => true
  | some slug =>
    s.tables.db.repositories.all (fun r =>
      !decide (c.renames = some r.orgId) || onlyTo s.tables slug r.name r.id) &&
    s.promises.all fun p =>
      decide (⟨p.slug, p.name, p.repo⟩ ∈ s.tables.repositoryRedirects) ||
        if c.renames = some p.org then onlyTo s.tables slug p.name p.repo
        else decide (p.slug = slug) || inPlace s.tables p || ledElsewhere s.tables slug p

abbrev TakesSafely (s : NameLedger) (c : NamingChange) : Prop := takesSafely s c = true

/-! ## What keeps a promise -/

def OnlyUnder (t : PushTables) (o : Organization) (name : String) (repo : RepoId) : Prop :=
  ∀ row ∈ t.repositoryRedirects, row.repositoryName = name →
    row.organizationSlug ∈ t.slugsOf o → row.repositoryId = repo

/-- No other repository has the name in the organization of the promise. -/
def Free (t : PushTables) (p : NamePromise) : Prop :=
  ∀ r ∈ t.db.repositories, r.orgId = p.org → r.name = p.name → r.id = p.repo

/-- The slug leads to the organization, and the name to the repository: under the slug itself,
or under all slugs of the organization. -/
structure Backed (t : PushTables) (o : Organization) (p : NamePromise) : Prop where
  slug : p.slug ∈ t.slugsOf o
  rows : ⟨p.slug, p.name, p.repo⟩ ∈ t.repositoryRedirects ∨
    (OnlyUnder t o p.name p.repo ∧ (inPlace t p = true ∨
      ∃ slug ∈ t.slugsOf o, ⟨slug, p.name, p.repo⟩ ∈ t.repositoryRedirects))

variable {r : Repository} {slug : String}

section resolution

variable {t : PushTables} {o : Organization} {p : NamePromise} {name : String}

theorem inPlace_iff : inPlace t p = true ↔
    ∃ r ∈ t.db.repositories, r.id = p.repo ∧ r.orgId = p.org ∧ r.name = p.name := by
  simp [inPlace]

theorem getRepositoryById_of_mem (h : NamesInOrder t) (hr : r ∈ t.db.repositories) :
    ∃ ref, t.db.getRepositoryById r.id = some ref ∧ ref.repository.id = r.id := by
  obtain ⟨o, ho, hid⟩ := h.wellNamed.owners r hr
  have hfind := h.wellNamed.orgs.find_self ho
  rw [hid] at hfind
  refine ⟨⟨r, o.slug, r.name⟩, ?_, rfl⟩
  unfold Db.getRepositoryById
  rw [h.ids.find_self hr]
  simp only [hfind, Option.map_some]

theorem getRepository_owner (h : NamesInOrder t)
    (hget : t.db.getRepository slug name = some r) : ∃ o ∈ t.db.organizations,
      o.slug = slug ∧ r ∈ t.db.repositories ∧ r.orgId = o.id ∧ r.name = name := by
  unfold Db.getRepository at hget
  split at hget
  · cases hget
  · rename_i _ horg
    obtain ⟨o, ho, hslug, hid⟩ := (orgIdBySlug_eq_some h.wellNamed).mp horg
    obtain ⟨hr, hkey⟩ := find_some hget
    obtain ⟨hin, hname⟩ := Prod.mk.inj hkey
    exact ⟨o, ho, hslug, hr, hin.trans hid.symm, hname⟩

theorem getRepository_none {orgId : OrgId}
    (horg : t.db.orgIdBySlug slug = some orgId) (hget : t.db.getRepository slug name = none)
    (r : Repository) (hr : r ∈ t.db.repositories) : ¬ (r.orgId = orgId ∧ r.name = name) := by
  intro heq
  unfold Db.getRepository at hget
  rw [horg] at hget
  exact find_none hget hr (Prod.ext heq.1 heq.2)

variable {slugs : List String}

theorem firstTarget_head (h : NamesInOrder t) (hr : r ∈ t.db.repositories)
    (hrow : ⟨slug, name, r.id⟩ ∈ t.repositoryRedirects) :
    (t.firstTarget name (slug :: slugs)).map (·.repository.id) = some r.id := by
  obtain ⟨ref, href, hid⟩ := getRepositoryById_of_mem h hr
  have hfind : Table.find RepositoryRedirect.key (slug, name) t.repositoryRedirects =
      some ⟨slug, name, r.id⟩ := h.wellNamed.redirects.find_self hrow
  have hbind : (Table.find RepositoryRedirect.key (slug, name) t.repositoryRedirects).bind
      (fun row => t.db.getRepositoryById row.repositoryId) = some ref := by
    rw [hfind]
    exact href
  simp only [PushTables.firstTarget, hbind, Option.map_some, hid]

theorem firstTarget_only (h : NamesInOrder t) (hr : r ∈ t.db.repositories)
    (honly : ∀ row ∈ t.repositoryRedirects, row.repositoryName = name →
      row.organizationSlug ∈ slugs → row.repositoryId = r.id)
    (hex : ∃ slug ∈ slugs, ⟨slug, name, r.id⟩ ∈ t.repositoryRedirects) :
    (t.firstTarget name slugs).map (·.repository.id) = some r.id := by
  induction slugs with
  | nil =>
    obtain ⟨slug, hin, -⟩ := hex
    cases hin
  | cons slug slugs ih =>
    by_cases hhead : ⟨slug, name, r.id⟩ ∈ t.repositoryRedirects
    · exact firstTarget_head h hr hhead
    · have hnone : Table.find RepositoryRedirect.key (slug, name) t.repositoryRedirects = none := by
        cases hfind : Table.find RepositoryRedirect.key (slug, name) t.repositoryRedirects with
        | none => rfl
        | some row =>
          obtain ⟨hmem, hkey⟩ := find_some hfind
          obtain ⟨hslug, hname⟩ := Prod.mk.inj hkey
          have hid := honly row hmem hname (hslug ▸ mem_cons_self)
          have hrow : row = ⟨slug, name, r.id⟩ := by
            rw [← hslug, ← hname, ← hid]
          exact absurd (hrow ▸ hmem) hhead
      have htail : t.firstTarget name (slug :: slugs) = t.firstTarget name slugs := by
        simp only [PushTables.firstTarget, hnone, Option.bind_none]
      rw [htail]
      refine ih (fun row hrow hname hin => honly row hrow hname (mem_cons_of_mem _ hin)) ?_
      obtain ⟨slug', hin, hrow⟩ := hex
      rcases mem_cons.mp hin with rfl | hin
      · exact absurd hrow hhead
      · exact ⟨slug', hin, hrow⟩

theorem Backed.resolves (h : NamesInOrder t) (ho : o ∈ t.db.organizations) (hid : o.id = p.org)
    (hb : Backed t o p) (hfree : Free t p) (hr : r ∈ t.db.repositories)
    (hrid : r.id = p.repo) : t.resolves p.slug p.name = some p.repo := by
  have htarget (slugs : List String) (hslugs : ∀ s, s ∈ p.slug :: slugs ↔ s ∈ t.slugsOf o)
      (hout : inPlace t p ≠ true) :
      (t.firstTarget p.name (p.slug :: slugs)).map (·.repository.id) = some p.repo := by
    rw [← hrid]
    rcases hb.rows with hrow | ⟨honly, hplace | hrow⟩
    · exact firstTarget_head h hr (hrid ▸ hrow)
    · exact absurd hplace hout
    · refine firstTarget_only h hr (fun row hrow hname hin => ?_) ?_
      · rw [hrid]
        exact honly row hrow hname ((hslugs _).mp hin)
      · obtain ⟨slug, hin, hrow⟩ := hrow
        exact ⟨slug, (hslugs slug).mpr hin, hrid ▸ hrow⟩
  have hfound (there : Repository) (hthere : there ∈ t.db.repositories)
      (horg : there.orgId = o.id) (hname : there.name = p.name) : there.id = p.repo :=
    hfree there hthere (horg.trans hid) hname
  unfold PushTables.resolves
  cases hget : t.db.getRepository p.slug p.name with
  | some there =>
    obtain ⟨o', ho', hslug, hthere, horg, hname⟩ := getRepository_owner h hget
    have hsame : o' = o := h.slugsOf_unique ho' ho (hslug ▸ mem_cons_self) hb.slug
    subst hsame
    exact congrArg some (hfound there hthere horg hname)
  | none =>
    unfold PushTables.resolveRepositoryRedirect
    rw [hget]
    simp only [Option.isSome_none, Bool.false_eq_true, if_false]
    rcases mem_cons.mp hb.slug with hcurrent | hformer
    · -- the slug is the current one
      have horg : t.db.orgIdBySlug p.slug = some o.id :=
        (orgIdBySlug_eq_some h.wellNamed).mpr ⟨o, ho, hcurrent.symm, rfl⟩
      have hout : inPlace t p ≠ true := by
        intro hplace
        obtain ⟨there, hthere, -, hin, hname⟩ := inPlace_iff.mp hplace
        exact getRepository_none horg hget there hthere ⟨hin.trans hid.symm, hname⟩
      have hrows : t.repositoryRedirects ≠ [] := by
        rcases hb.rows with hrow | ⟨-, hplace | ⟨slug, -, hrow⟩⟩
        · exact ne_nil_of_mem hrow
        · exact absurd hplace hout
        · exact ne_nil_of_mem hrow
      rw [if_neg fun hnil => hrows hnil.1]
      simp only [horg]
      refine htarget _ (fun s => ?_) hout
      rw [hcurrent]
      exact Iff.rfl
    · -- the slug leads to the organization
      have hredirect := mem_formerSlugs.mp hformer
      have horg : t.db.orgIdBySlug p.slug = none := by
        cases hsome : t.db.orgIdBySlug p.slug with
        | none => rfl
        | some orgId =>
          obtain ⟨o', ho', hslug, -⟩ := (orgIdBySlug_eq_some h.wellNamed).mp hsome
          exact absurd hslug.symm (h.wellNamed.current o' ho' _ hredirect)
      have hmoved : t.resolveOrganizationRedirect p.slug = some o := by
        unfold PushTables.resolveOrganizationRedirect
        rw [h.former.find_self hredirect]
        exact h.wellNamed.orgs.find_self ho
      rw [if_neg fun hnil => ne_nil_of_mem hredirect hnil.2]
      simp only [horg, hmoved]
      cases hthere : t.repositoryIn o.id p.name with
      | some there =>
        obtain ⟨hmem, hkey⟩ := find_some hthere
        obtain ⟨hin, hname⟩ := Prod.mk.inj hkey
        obtain ⟨ref, href, hrefId⟩ := getRepositoryById_of_mem h hmem
        simp only [href, Option.map_some, hrefId]
        exact congrArg some (hfound there hmem hin hname)
      | none =>
        refine htarget _ (fun s => ?_) fun hplace => ?_
        · constructor
          · intro hs
            rcases mem_cons.mp hs with rfl | hs
            · exact hb.slug
            · exact hs
          · exact fun hs => mem_cons_of_mem _ hs
        · obtain ⟨there, hmem, -, hin, hname⟩ := inPlace_iff.mp hplace
          exact find_none hthere hmem (Prod.ext (hin.trans hid.symm) hname)

end resolution

section steps

variable {t t' : PushTables} {o o' : Organization} {p : NamePromise} {name : String} {repo : RepoId}

theorem OnlyUnder.mono (h : OnlyUnder t o name repo)
    (hrows : ∀ row ∈ t'.repositoryRedirects, row ∈ t.repositoryRedirects)
    (hslugs : ∀ slug ∈ t'.slugsOf o', slug ∈ t.slugsOf o) : OnlyUnder t' o' name repo :=
  fun row hrow hname hslug => h row (hrows row hrow) hname (hslugs _ hslug)

theorem named_keeps (h : NamesInOrder t) (ho : o ∈ t.db.organizations)
    (ho' : o' ∈ t.db.organizations) {repositories : List Repository}
    (hslug : slug ∈ t.slugsOf o) (hother : ¬ (o' = o ∧ name = p.name))
    (hrow : ⟨slug, p.name, p.repo⟩ ∈ t.repositoryRedirects) :
    ⟨slug, p.name, p.repo⟩ ∈ (named t repositories o' name).repositoryRedirects := by
  refine mem_named_redirects.mpr ⟨hrow, fun hdropped => ?_⟩
  obtain ⟨hname, hin⟩ := hdropped
  exact hother ⟨h.slugsOf_unique ho' ho hin hslug, hname.symm⟩

theorem Backed.created (h : NamesInOrder t) (ho : o ∈ t.db.organizations)
    (ho' : o' ∈ t.db.organizations) (hb : Backed t o p)
    (hother : ¬ (o' = o ∧ r.name = p.name)) :
    Backed (named t (t.db.repositories ++ [r]) o' r.name) o p := by
  refine ⟨hb.slug, ?_⟩
  rcases hb.rows with hrow | ⟨honly, hrest⟩
  · exact .inl (named_keeps h ho ho' hb.slug hother hrow)
  · refine .inr ⟨honly.mono (fun row hrow => (mem_named_redirects.mp hrow).1) fun _ hs => hs, ?_⟩
    rcases hrest with hplace | ⟨slug, hslug, hrow⟩
    · obtain ⟨there, hthere, hfacts⟩ := inPlace_iff.mp hplace
      exact .inl (inPlace_iff.mpr ⟨there, mem_append_left _ hthere, hfacts⟩)
    · exact .inr ⟨slug, hslug, named_keeps h ho ho' hslug hother hrow⟩

theorem Backed.deleted {id : RepoId} (hb : Backed t o p) (hne : p.repo ≠ id) :
    Backed (t.deleteRepository id) o p := by
  have hkept (slug : String) (hrow : ⟨slug, p.name, p.repo⟩ ∈ t.repositoryRedirects) :
      ⟨slug, p.name, p.repo⟩ ∈ (t.deleteRepository id).repositoryRedirects :=
    mem_filter.mpr ⟨hrow, decide_eq_true hne⟩
  refine ⟨hb.slug, hb.rows.imp (hkept _) fun hrest => ⟨?_, ?_⟩⟩
  · exact hrest.1.mono (fun row hrow => (mem_filter.mp hrow).1) fun _ hs => hs
  · rcases hrest.2 with hplace | ⟨slug, hslug, hrow⟩
    · obtain ⟨there, hthere, hid, hfacts⟩ := inPlace_iff.mp hplace
      refine .inl (inPlace_iff.mpr ⟨there, mem_filter.mpr ⟨hthere, ?_⟩, hid, hfacts⟩)
      rw [hid]
      exact decide_eq_true hne
    · exact .inr ⟨slug, hslug, hkept slug hrow⟩

/-- Another organization takes a slug, a former one of this organization perhaps. -/
theorem Backed.loses (slug : String) (hb : Backed t o p) (hid : o.id = p.org)
    (ho : o ∈ t.db.organizations) (h : NamesInOrder t)
    (hrepos : t'.db.repositories = t.db.repositories)
    (hrows : t'.repositoryRedirects = t.repositoryRedirects)
    (hsub : ∀ s ∈ t'.slugsOf o, s ∈ t.slugsOf o)
    (hkeep : ∀ s ∈ t.slugsOf o, s ≠ slug → s ∈ t'.slugsOf o) (hne : p.slug ≠ slug)
    (hcond : ⟨p.slug, p.name, p.repo⟩ ∈ t.repositoryRedirects ∨
      inPlace t p = true ∨ ledElsewhere t slug p = true) : Backed t' o p := by
  have hplaced : inPlace t' p = inPlace t p := by
    unfold inPlace
    rw [hrepos]
  refine ⟨hkeep _ hb.slug hne, ?_⟩
  rw [hrows, hplaced]
  rcases hcond with hrow | hrest
  · exact .inl hrow
  · refine hb.rows.imp_right fun hold => ⟨?_, ?_⟩
    · exact hold.1.mono (fun row hrow => hrows ▸ hrow) hsub
    · refine hrest.imp_right fun hled => ?_
      obtain ⟨x, hx, hboth⟩ := any_eq_true.mp hled
      rw [Bool.and_eq_true, decide_eq_true_eq] at hboth
      obtain ⟨hxid, hany⟩ := hboth
      have hsame : x = o := h.wellNamed.orgs.eq_of_key hx ho (hxid.trans hid.symm)
      subst hsame
      obtain ⟨s, hs, hfacts⟩ := any_eq_true.mp hany
      obtain ⟨hother, hrow⟩ := of_decide_eq_true hfacts
      exact ⟨s, hkeep s hs hother, hrow⟩

theorem OnlyUnder.takes (slug : String) (honly : OnlyUnder t o name repo)
    (hrows : t'.repositoryRedirects = t.repositoryRedirects)
    (hsub : ∀ s ∈ t'.slugsOf o', s = slug ∨ s ∈ t.slugsOf o)
    (hto : onlyTo t slug name repo = true) : OnlyUnder t' o' name repo := by
  intro row hrow hname hslug
  rw [hrows] at hrow
  rcases hsub _ hslug with hs | hs
  · have hcond := all_eq_true.mp hto row hrow
    simpa [hs, hname] using hcond
  · exact honly row hrow hname hs

theorem Backed.takes (slug : String) (hb : Backed t o p)
    (hrepos : t'.db.repositories = t.db.repositories)
    (hrows : t'.repositoryRedirects = t.repositoryRedirects)
    (hsub : ∀ s ∈ t'.slugsOf o', s = slug ∨ s ∈ t.slugsOf o)
    (hkeep : ∀ s ∈ t.slugsOf o, s ∈ t'.slugsOf o')
    (hcond : ⟨p.slug, p.name, p.repo⟩ ∈ t.repositoryRedirects ∨
      onlyTo t slug p.name p.repo = true) : Backed t' o' p := by
  have hplaced : inPlace t' p = inPlace t p := by
    unfold inPlace
    rw [hrepos]
  refine ⟨hkeep _ hb.slug, ?_⟩
  rw [hrows, hplaced]
  rcases hcond with hrow | hto
  · exact .inl hrow
  · refine hb.rows.imp_right fun hold => ⟨hold.1.takes slug hrows hsub hto, hold.2.imp_right fun hled => ?_⟩
    obtain ⟨s, hs, hrow⟩ := hled
    exact ⟨s, hkeep s hs, hrow⟩

section moved

variable {source target : Organization} {old : Repository} {f : Repository → Repository}

def movedTo (t : PushTables) (source target : Organization) (old : Repository)
    (f : Repository → Repository) : PushTables :=
  (named t (Table.update Repository.id old.id f t.db.repositories) target
    (f old).name).addRepositoryRedirect source.slug old.name old.id

theorem mem_movedTo {row : RepositoryRedirect}
    (hrow : row ∈ (movedTo t source target old f).repositoryRedirects) :
    (row ∈ t.repositoryRedirects ∧
      ¬ (row.repositoryName = (f old).name ∧ row.organizationSlug ∈ t.slugsOf target)) ∨
    row = ⟨source.slug, old.name, old.id⟩ :=
  (mem_of_mem_upsert hrow).imp_left mem_named_redirects.mp

theorem OnlyUnder.moved (h : NamesInOrder t) (hsource : source ∈ t.db.organizations)
    (ho : o ∈ t.db.organizations) (honly : OnlyUnder t o name repo)
    (hleft : source = o → old.name = name → old.id = repo) :
    OnlyUnder (movedTo t source target old f) o name repo := by
  intro row hrow hname hslug
  have hin : row.organizationSlug ∈ t.slugsOf o := hslug
  rcases mem_movedTo hrow with ⟨hold, -⟩ | rfl
  · exact honly row hold hname hin
  · exact hleft (h.slugsOf_unique hsource ho mem_cons_self hin) hname

theorem onlyUnder_target :
    OnlyUnder (movedTo t source target old f) target (f old).name old.id := by
  intro row hrow hname hslug
  rcases mem_movedTo hrow with ⟨-, hkept⟩ | rfl
  · exact absurd ⟨hname, hslug⟩ hkept
  · rfl

theorem Backed.moved (h : NamesInOrder t) (hsource : source ∈ t.db.organizations)
    (htarget : target ∈ t.db.organizations) (hold : old ∈ t.db.repositories)
    (hin : old.orgId = source.id) (hf : ∀ r, (f r).id = r.id) (hto : (f old).orgId = target.id)
    (ho : o ∈ t.db.organizations) (hid : o.id = p.org) (hb : Backed t o p) (hfree : Free t p)
    (hfree' : Free (movedTo t source target old f) p) :
    Backed (movedTo t source target old f) o p := by
  have hmoved : f old ∈ (movedTo t source target old f).db.repositories := mem_update_self hold rfl
  have hleft (hs : source = o) (hname : old.name = p.name) : old.id = p.repo :=
    hfree old hold (by rw [hin, hs, hid]) hname
  refine ⟨hb.slug, ?_⟩
  by_cases htaken : target = o ∧ (f old).name = p.name
  · -- the repository has the name again
    obtain ⟨rfl, hname⟩ := htaken
    have hrepo : old.id = p.repo := (hf old) ▸ hfree' (f old) hmoved (hto.trans hid) hname
    refine .inr ⟨?_, .inl (inPlace_iff.mpr ⟨f old, hmoved, (hf old).trans hrepo, hto.trans hid,
      hname⟩)⟩
    rw [← hname, ← hrepo]
    exact onlyUnder_target
  · have hkept (slug : String) (hslug : slug ∈ t.slugsOf o)
        (hrow : ⟨slug, p.name, p.repo⟩ ∈ t.repositoryRedirects) :
        ⟨slug, p.name, p.repo⟩ ∈ (movedTo t source target old f).repositoryRedirects := by
      have hnamed : ⟨slug, p.name, p.repo⟩ ∈ (named t (Table.update Repository.id old.id f
          t.db.repositories) target (f old).name).repositoryRedirects :=
        named_keeps h ho htarget hslug htaken hrow
      by_cases hkey : (slug, p.name) = (source.slug, old.name)
      · -- the row is written again
        obtain ⟨rfl, hname⟩ := Prod.mk.inj hkey
        have hs := h.slugsOf_unique hsource ho mem_cons_self hslug
        rw [hname, ← hleft hs hname.symm]
        exact mem_upsert_self _ _
      · exact mem_upsert_of_ne hnamed hkey
    refine hb.rows.imp (hkept _ hb.slug) fun hrest => ⟨hrest.1.moved h hsource ho hleft, ?_⟩
    rcases hrest.2 with hplace | ⟨slug, hslug, hrow⟩
    · obtain ⟨there, hthere, hrepo, horg, hname⟩ := inPlace_iff.mp hplace
      by_cases hmoves : there.id = old.id
      · -- the repository leaves the name
        have hsame : there = old := h.ids.eq_of_key hthere hold hmoves
        subst hsame
        have hs : source = o :=
          h.wellNamed.orgs.eq_of_key hsource ho (hin.symm.trans (horg.trans hid.symm))
        refine .inr ⟨source.slug, hs ▸ mem_cons_self, ?_⟩
        rw [← hname, ← hrepo]
        exact mem_upsert_self _ _
      · exact .inl (inPlace_iff.mpr ⟨there, mem_update_ne hthere hmoves, hrepo, horg, hname⟩)
    · exact .inr ⟨slug, hslug, hkept slug hslug hrow⟩

end moved

theorem mem_slugsOf_cleared {s : String} :
    s ∈ (t.clearOrganizationRedirect slug).formerSlugs o.id ↔
      s ∈ t.formerSlugs o.id ∧ s ≠ slug := by
  rw [mem_formerSlugs, mem_formerSlugs]
  have hfilter : ⟨s, o.id⟩ ∈ (t.clearOrganizationRedirect slug).organizationRedirects ↔
      ⟨s, o.id⟩ ∈ t.organizationRedirects ∧ decide (s ≠ slug) = true := mem_filter
  rw [hfilter, decide_eq_true_eq]

theorem mem_former_reslugged (h : NamesInOrder t) {source : Organization} {newSlug s : String}
    (hsource : source ∈ t.db.organizations) :
    s ∈ (reslugged t source newSlug).formerSlugs o.id ↔
      (s ∈ t.formerSlugs o.id ∧ s ≠ newSlug) ∨ (s = source.slug ∧ o.id = source.id) := by
  rw [mem_formerSlugs, mem_formerSlugs]
  constructor
  · intro hrow
    rcases mem_reslugged_redirects hrow with hold | heq
    · exact .inl hold
    · exact .inr (OrganizationRedirect.mk.inj heq)
  · rintro (⟨hrow, hne⟩ | ⟨rfl, hid⟩)
    · refine mem_upsert_of_ne (mem_filter.mpr ⟨hrow, decide_eq_true hne⟩) ?_
      exact h.wellNamed.current source hsource _ hrow
    · rw [hid]
      exact mem_upsert_self _ _

/-! ## The invariant -/

/-- What holds between changes: current names lead nowhere else, and every promise is backed. -/
structure KeptNames (t : PushTables) (carried : List (OrgId × String))
    (promises : List NamePromise) : Prop where
  names : NamesInOrder t
  carriers : ∀ x ∈ t.carriers, x ∈ carried
  slugs : ∀ r ∈ t.organizationRedirects, (r.organizationId, r.oldSlug) ∈ carried
  current : ∀ r ∈ t.db.repositories, ∀ o ∈ t.db.organizations, o.id = r.orgId →
    OnlyUnder t o r.name r.id
  kept : ∀ p ∈ promises, (∃ r ∈ t.db.repositories, r.id = p.repo) ∧ Free t p ∧
    ∃ o ∈ t.db.organizations, o.id = p.org ∧ Backed t o p

variable {s : NameLedger} {c : NamingChange}

variable {carried : List (OrgId × String)} {promises : List NamePromise}

theorem KeptNames.carried_of_slugsOf
    (h : KeptNames t carried promises) (ho : o ∈ t.db.organizations)
    (hslug : slug ∈ t.slugsOf o) : (o.id, slug) ∈ carried := by
  rcases mem_cons.mp hslug with rfl | hslug
  · exact h.carriers _ (mem_carriers ho)
  · exact h.slugs _ (mem_formerSlugs.mp hslug)

theorem takesSafely_of_takes (hsafe : TakesSafely s c) (htakes : c.takes = some slug) :
    (∀ r ∈ s.tables.db.repositories, c.renames = some r.orgId →
      onlyTo s.tables slug r.name r.id = true) ∧
    ∀ p ∈ s.promises, ⟨p.slug, p.name, p.repo⟩ ∈ s.tables.repositoryRedirects ∨
      if c.renames = some p.org then onlyTo s.tables slug p.name p.repo = true
      else p.slug = slug ∨ inPlace s.tables p = true ∨ ledElsewhere s.tables slug p = true := by
  unfold TakesSafely takesSafely at hsafe
  rw [htakes] at hsafe
  simp only [Bool.and_eq_true] at hsafe
  obtain ⟨hrepos, hpromises⟩ := hsafe
  refine ⟨fun r hr hrenames => ?_, fun p hp => ?_⟩
  · have hcond := all_eq_true.mp hrepos r hr
    simpa [hrenames] using hcond
  · have hcond := all_eq_true.mp hpromises p hp
    rw [Bool.or_eq_true, decide_eq_true_eq] at hcond
    refine hcond.imp_right fun hrest => ?_
    split at hrest
    · rename_i hrenames
      rw [if_pos hrenames]
      exact hrest
    · rename_i hrenames
      rw [if_neg hrenames]
      simpa [or_assoc] using hrest

section

variable (h : KeptNames s.tables s.carried s.promises) (hsafe : TakesSafely s c)
  (hcase : NamingCase s.tables c t') (hdelete : ∀ orgId, c ≠ .deleteOrganization orgId)
include h hsafe hcase hdelete

theorem KeptNames.current_step :
    ∀ r ∈ t'.db.repositories, ∀ o ∈ t'.db.organizations, o.id = r.orgId →
      OnlyUnder t' o r.name r.id := by
  cases hcase with
  | same => exact h.current
  | created o₁ r₁ ho₁ horg hid hname =>
    intro r hr o ho heq
    have hmem : o ∈ s.tables.db.organizations := ho
    rcases mem_append.mp hr with hr | hr
    · exact (h.current r hr o hmem heq).mono (fun row hrow => (mem_named_redirects.mp hrow).1)
        fun _ hs => hs
    · rw [mem_singleton.mp hr] at heq ⊢
      have hsame : o = o₁ := h.names.wellNamed.orgs.eq_of_key hmem ho₁ (heq.trans horg)
      subst hsame
      intro row hrow hrowName hslug
      exact absurd ⟨hrowName, hslug⟩ (mem_named_redirects.mp hrow).2
  | moved source target old f hsource htarget hold hin hf hto hname =>
    intro r hr o ho heq
    have hmem : o ∈ s.tables.db.organizations := ho
    rcases mem_update hr with ⟨hr, -⟩ | ⟨r₀, hr₀, hid₀, rfl⟩
    · refine (h.current r hr o hmem heq).moved h.names hsource hmem fun hs hsameName => ?_
      -- the name the repository leaves was its own
      have hkey : (old.orgId, old.name) = (r.orgId, r.name) :=
        Prod.ext (by rw [hin, hs, heq]) hsameName
      exact congrArg _ (h.names.names.eq_of_key hold hr hkey)
    · have hsame : r₀ = old := h.names.ids.eq_of_key hr₀ hold hid₀
      subst hsame
      have hs : o = target := h.names.wellNamed.orgs.eq_of_key hmem htarget (heq.trans hto)
      subst hs
      rw [hf]
      exact onlyUnder_target
  | deleted id =>
    intro r hr o ho heq
    exact (h.current r (mem_filter.mp hr).1 o ho heq).mono
      (fun row hrow => (mem_filter.mp hrow).1) fun _ hs => hs
  | organizationCreated o₁ t' htakes hrenames hinsert =>
    obtain ⟨hid, -, rfl⟩ := insertOrganization_cases hinsert
    intro r hr o ho heq
    rcases mem_append.mp ho with ho | ho
    · refine (h.current r hr o ho heq).mono (fun row hrow => hrow) fun slug hslug => ?_
      rcases mem_cons.mp hslug with rfl | hslug
      · exact mem_cons_self
      · exact mem_cons_of_mem _ (mem_slugsOf_cleared.mp hslug).1
    · rw [mem_singleton.mp ho] at heq
      obtain ⟨x, hx, hxid⟩ := h.names.wellNamed.owners r hr
      exact absurd (hxid.trans heq.symm) (hid x hx)
  | organizationRenamed source newSlug hc hsource hlibrary hne hfree =>
    subst hc
    have hcond := (takesSafely_of_takes hsafe rfl).1
    intro r hr o ho heq
    have hmem : r ∈ s.tables.db.repositories := hr
    rcases mem_reslugged ho with ⟨hold, hid⟩ | ⟨hid, hslug⟩
    · refine (h.current r hmem o hold heq).mono (fun row hrow => hrow) fun slug hslug => ?_
      rcases mem_cons.mp hslug with rfl | hslug
      · exact mem_cons_self
      · rcases (mem_former_reslugged h.names hsource).mp hslug with ⟨hs, -⟩ | ⟨-, hs⟩
        · exact mem_cons_of_mem _ hs
        · exact absurd hs hid
    · have honly := h.current r hmem source hsource (hid.symm.trans heq)
      refine honly.takes newSlug rfl (fun x hx => ?_) (hcond r hmem ?_)
      · rcases mem_cons.mp hx with rfl | hx
        · exact .inl hslug
        · rcases (mem_former_reslugged h.names hsource).mp hx with ⟨hs, -⟩ | ⟨rfl, -⟩
          · rw [hid] at hs
            exact .inr (mem_cons_of_mem _ hs)
          · exact .inr mem_cons_self
      · rw [← heq, hid]
        rfl
  | organizationDeleted orgId hc => exact absurd hc (hdelete orgId)

theorem KeptNames.backed_step (hp : p ∈ s.promises)
  (hexists : ∃ r ∈ t'.db.repositories, r.id = p.repo) (hfree' : Free t' p)
  (hslug : givesSlug s.tables t' p = false) :
    ∃ o ∈ t'.db.organizations, o.id = p.org ∧ Backed t' o p := by
  obtain ⟨⟨r₀, hr₀, hr₀id⟩, hfree, o, ho, hoid, hb⟩ := h.kept p hp
  have hslugs (x : Organization) (hx : x ∈ t'.db.organizations) (hxslug : x.slug = p.slug)
      (hnew : x ∉ s.tables.db.organizations) : x.id = p.org := by
    by_contra hne
    have hgives : givesSlug s.tables t' p = true :=
      any_eq_true.mpr ⟨x, hx, decide_eq_true ⟨hne, hxslug, hnew⟩⟩
    rw [hslug] at hgives
    cases hgives
  cases hcase with
  | same => exact ⟨o, ho, hoid, hb⟩
  | created o₁ r₁ ho₁ horg hid hname =>
    refine ⟨o, ho, hoid, hb.created h.names ho ho₁ fun hsame => ?_⟩
    obtain ⟨rfl, hsameName⟩ := hsame
    have hrepo : r₁.id = p.repo :=
      hfree' r₁ (mem_append_right _ (mem_singleton_self _)) (horg.trans hoid) hsameName
    exact hid r₀ hr₀ (hr₀id.trans hrepo.symm)
  | moved source target old f hsource htarget hold hin hf hto hname =>
    exact ⟨o, ho, hoid, hb.moved h.names hsource htarget hold hin hf hto ho hoid hfree hfree'⟩
  | deleted id =>
    refine ⟨o, ho, hoid, hb.deleted fun heq => ?_⟩
    obtain ⟨r, hr, hrid⟩ := hexists
    have hne : r.id ≠ id := of_decide_eq_true (mem_filter.mp hr).2
    exact hne (hrid.trans heq)
  | organizationCreated o₁ t' htakes hrenames hinsert =>
    obtain ⟨hid, -, rfl⟩ := insertOrganization_cases hinsert
    have hother : o₁.id ≠ p.org := fun heq => hid o ho (hoid.trans heq.symm)
    have hne : p.slug ≠ o₁.slug := by
      intro heq
      exact hother (hslugs o₁ (mem_append_right _ (mem_singleton_self _)) heq.symm
        fun hold => hid o₁ hold rfl)
    refine ⟨o, mem_append_left _ ho, hoid, hb.loses o₁.slug hoid ho h.names rfl rfl
      (fun x hx => ?_) (fun x hx hxne => ?_) hne ?_⟩
    · rcases mem_cons.mp hx with rfl | hx
      · exact mem_cons_self
      · exact mem_cons_of_mem _ (mem_slugsOf_cleared.mp hx).1
    · rcases mem_cons.mp hx with rfl | hx
      · exact mem_cons_self
      · exact mem_cons_of_mem _ (mem_slugsOf_cleared.mpr ⟨hx, hxne⟩)
    · have hcond := (takesSafely_of_takes hsafe htakes).2 p hp
      rw [hrenames, if_neg (by simp)] at hcond
      exact hcond.imp_right fun hrest => hrest.resolve_left hne
  | organizationRenamed source newSlug hc hsource hlibrary hne hfreeSlug =>
    subst hc
    have hcond := (takesSafely_of_takes hsafe rfl).2 p hp
    by_cases hown : o = source
    · subst hown
      have hrenames : (NamingChange.renameOrganization o.id newSlug).renames = some p.org :=
        congrArg some hoid
      rw [if_pos hrenames] at hcond
      refine ⟨{ o with slug := newSlug }, mem_update_self ho rfl, hoid,
        hb.takes newSlug rfl rfl (fun x hx => ?_) (fun x hx => ?_) hcond⟩
      · rcases mem_cons.mp hx with rfl | hx
        · exact .inl rfl
        · rcases (mem_former_reslugged h.names ho).mp hx with ⟨hs, -⟩ | ⟨rfl, -⟩
          · exact .inr (mem_cons_of_mem _ hs)
          · exact .inr mem_cons_self
      · by_cases hnew : x = newSlug
        · exact hnew ▸ mem_cons_self
        · refine mem_cons_of_mem _ ((mem_former_reslugged h.names ho).mpr ?_)
          rcases mem_cons.mp hx with rfl | hx
          · exact .inr ⟨rfl, rfl⟩
          · exact .inl ⟨hx, hnew⟩
    · have hid : o.id ≠ source.id := fun heq =>
        hown (h.names.wellNamed.orgs.eq_of_key ho hsource heq)
      have htaken : p.slug ≠ newSlug := by
        intro heq
        have hsourceId : source.id = p.org :=
          hslugs { source with slug := newSlug } (mem_update_self hsource rfl) heq.symm
            fun hold => hfreeSlug _ hold rfl
        exact hid (hoid.trans hsourceId.symm)
      have hrenames : (NamingChange.renameOrganization source.id newSlug).renames ≠ some p.org :=
        fun heq => hid (hoid.trans (Option.some.inj heq).symm)
      rw [if_neg hrenames] at hcond
      refine ⟨o, mem_update_ne ho hid, hoid, hb.loses newSlug hoid ho h.names rfl
        rfl (fun x hx => ?_) (fun x hx hxne => ?_) htaken
        (hcond.imp_right fun hrest => hrest.resolve_left htaken)⟩
      · rcases mem_cons.mp hx with rfl | hx
        · exact mem_cons_self
        · rcases (mem_former_reslugged h.names hsource).mp hx with ⟨hs, -⟩ | ⟨-, hs⟩
          · exact mem_cons_of_mem _ hs
          · exact absurd hs hid
      · rcases mem_cons.mp hx with rfl | hx
        · exact mem_cons_self
        · exact mem_cons_of_mem _
            ((mem_former_reslugged h.names hsource).mpr (.inl ⟨hx, hxne⟩))
  | organizationDeleted orgId hc => exact absurd hc (hdelete orgId)

end

theorem kept_of_fullName (h : KeptNames t carried promises) (hp : p ∈ t.fullNames) :
    (∃ r ∈ t.db.repositories, r.id = p.repo) ∧ Free t p ∧
      ∃ o ∈ t.db.organizations, o.id = p.org ∧ Backed t o p := by
  obtain ⟨r, hr, hmap⟩ := mem_filterMap.mp hp
  obtain ⟨o, hfind, rfl⟩ := Option.map_eq_some_iff.mp hmap
  obtain ⟨ho, hid⟩ := find_some hfind
  refine ⟨⟨r, hr, rfl⟩, fun x hx horg hname => ?_, o, ho, rfl, mem_cons_self, .inr ⟨?_, ?_⟩⟩
  · have hkey : (x.orgId, x.name) = (r.orgId, r.name) := Prod.ext (horg.trans hid) hname
    exact congrArg _ (h.names.names.eq_of_key hx hr hkey)
  · exact h.current r hr o ho hid
  · exact .inl (inPlace_iff.mpr ⟨r, hr, rfl, hid.symm, rfl⟩)

theorem KeptNames.step (h : KeptNames s.tables s.carried s.promises) (hsafe : TakesSafely s c)
    (hdelete : ∀ orgId, c ≠ .deleteOrganization orgId) (hs : c.apply s.tables = some t') :
    KeptNames t' (s.after t').carried (s.after t').promises := by
  have hcase := naming_cases hs h.names
  have hbase : KeptNames t' (s.carried ++ t'.carriers) [] := by
    refine ⟨h.names.step hcase, fun x hx => mem_append_right _ hx, fun r hr => ?_,
      h.current_step hsafe hcase hdelete, nofun⟩
    rcases hcase.redirects hr with hold | ⟨o, ho, rfl⟩
    · exact mem_append_left _ (h.slugs r hold)
    · exact mem_append_left _ (h.carriers _ (mem_carriers ho))
  refine ⟨hbase.names, hbase.carriers, hbase.slugs, hbase.current, fun p hp => ?_⟩
  rcases mem_append.mp hp with hp | hp
  · obtain ⟨hp, hforce⟩ := mem_filter.mp hp
    rw [Bool.and_eq_true, Bool.and_eq_true, Bool.not_eq_true', Bool.not_eq_true'] at hforce
    obtain ⟨⟨hany, hname⟩, hslug⟩ := hforce
    have hexists : ∃ r ∈ t'.db.repositories, r.id = p.repo := by simpa using hany
    have hfree' : Free t' p := by
      intro r hr horg hrName
      by_contra hne
      obtain ⟨-, hfree, o, ho, hid, hb⟩ := h.kept p hp
      have hcarried : (r.orgId, p.slug) ∈ s.carried ++ t'.carriers := by
        rw [horg, ← hid]
        exact mem_append_left _ (h.carried_of_slugsOf ho hb.slug)
      -- a name the repository had before
      have hheld : s.tables.db.repositories.any (fun x =>
          decide (x.id = r.id ∧ x.orgId = r.orgId ∧ x.name = r.name)) = true := by
        have hnone := any_eq_false.mp hname r hr
        rw [decide_eq_true ⟨hne, hrName, hcarried⟩, Bool.true_and, Bool.not_eq_true',
          Bool.not_eq_false] at hnone
        exact hnone
      obtain ⟨x, hx, heq⟩ := any_eq_true.mp hheld
      obtain ⟨hxid, hxorg, hxname⟩ := of_decide_eq_true heq
      exact hne (hxid ▸ hfree x hx (hxorg.trans horg) (hxname.trans hrName))
    exact ⟨hexists, hfree', h.backed_step hsafe hcase hdelete hp hexists hfree' hslug⟩
  · exact kept_of_fullName hbase hp

end steps

theorem keptNames_run {s : NameLedger} (hrun : nameLedgers.Run TakesSafely s) :
    KeptNames s.tables s.carried s.promises := by
  refine Machine.Run.invariant (I := fun s => KeptNames s.tables s.carried s.promises)
    (fun s hinit => ?_) (fun s c s' _ h hsafe hs => ?_) hrun
  · obtain ⟨hnames, hrows, hslugs, hcarried, hpromises⟩ := hinit
    have hbase : KeptNames s.tables s.carried [] := by
      refine ⟨hnames, fun x hx => hcarried ▸ hx, ?_, ?_, nofun⟩ <;>
        simp [OnlyUnder, hrows, hslugs]
    refine ⟨hbase.names, hbase.carriers, hbase.slugs, hbase.current, fun p hp => ?_⟩
    rw [hpromises] at hp
    exact kept_of_fullName hbase hp
  · have hdelete (orgId : OrgId) : c ≠ .deleteOrganization orgId := by
      rintro rfl
      cases hs
    have hstep : nameLedgers.step s c = (c.apply s.tables).map s.after := by
      cases c with
      | deleteOrganization orgId => exact absurd rfl (hdelete orgId)
      | _ => rfl
    rw [hstep] at hs
    obtain ⟨t', happly, rfl⟩ := Option.map_eq_some_iff.mp hs
    exact h.step hsafe hdelete happly

/-- **Former names keep working until reused** as long as every slug is taken safely. -/
theorem former_names_keep_working {s : NameLedger} (hrun : nameLedgers.Run TakesSafely s)
    (p : NamePromise) (hp : p ∈ s.promises) :
    s.tables.resolves p.slug p.name = some p.repo := by
  have h := keptNames_run hrun
  obtain ⟨⟨r, hr, hrid⟩, hfree, o, ho, hid, hb⟩ := h.kept p hp
  exact hb.resolves h.names ho hid hfree hr hrid

def noPromises : NameLedger := ⟨noOrganizations, [], []⟩

theorem noPromises_init : nameLedgers.init noPromises :=
  ⟨namesInOrder_empty, rfl, rfl, rfl, rfl⟩

/-- A repository is renamed, moved and renamed again, both organizations change their slugs. -/
def movedAround : List NamingChange :=
  [.createOrganization "acme" "o1", .createOrganization "labs" "o2",
    .push "acme" "app" .public "r1", .renameRepository "r1" "core",
    .renameOrganization "o1" "acme-inc", .transferRepository "r1" "o2",
    .renameOrganization "o2" "labs-inc", .renameRepository "r1" "kernel"]

theorem former_names_keep_working_moved :
    ∃ s, nameLedgers.Run TakesSafely s ∧ ⟨"r1", "o1", "acme", "app"⟩ ∈ s.promises ∧
      ⟨"r1", "o2", "labs", "core"⟩ ∈ s.promises ∧
      s.tables.resolves "acme" "app" = some "r1" ∧ s.tables.resolves "labs" "core" = some "r1" := by
  have hfacts : (nameLedgers.replay TakesSafely noPromises movedAround).map (fun s =>
      decide (⟨"r1", "o1", "acme", "app"⟩ ∈ s.promises ∧
        ⟨"r1", "o2", "labs", "core"⟩ ∈ s.promises)) = some true := by
    decide +kernel
  obtain ⟨s, hs, hview⟩ := Option.map_eq_some_iff.mp hfacts
  have hrun := Machine.run_of_replay (M := nameLedgers) noPromises_init hs
  obtain ⟨hfirst, hsecond⟩ := of_decide_eq_true hview
  exact ⟨s, hrun, hfirst, hsecond, former_names_keep_working hrun _ hfirst,
    former_names_keep_working hrun _ hsecond⟩

/-- The redirect is kept under a slug that came later, and another organization takes that
slug. -/
def laterSlugTaken : List NamingChange :=
  [.createOrganization "acme" "o1", .push "acme" "app" .public "r1",
    .renameOrganization "o1" "acme-labs", .renameRepository "r1" "core",
    .renameOrganization "o1" "acme-inc", .createOrganization "acme-labs" "o2"]

theorem later_slug_loses_name : ¬ ∀ s, nameLedgers.Reachable s → ∀ p ∈ s.promises,
      s.tables.resolves p.slug p.name = some p.repo := by
  intro hall
  have hfacts : (nameLedgers.replay (fun _ _ => True) noPromises laterSlugTaken).map
      (fun s => (decide (⟨"r1", "o1", "acme", "app"⟩ ∈ s.promises),
        s.tables.resolves "acme" "app")) = some (true, none) := by
    decide +kernel
  obtain ⟨s, hs, hview⟩ := Option.map_eq_some_iff.mp hfacts
  have hreach := Machine.run_of_replay (M := nameLedgers) noPromises_init hs
  obtain ⟨hpromised, hlost⟩ := Prod.mk.inj hview
  have hkept := hall s hreach _ (of_decide_eq_true hpromised)
  exact absurd (hkept.symm.trans hlost) (by simp)

end Chicoree.Registryd
