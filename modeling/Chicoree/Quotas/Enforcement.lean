import Chicoree.Images.PruneAccounts
import Chicoree.Quotas.WebQuota

/-! # Enforcing a storage limit

`quota-enforce.ts`: who is over a limit, and what of the repositories is left after the plan
ran and garbage was collected. The breach counts a blob once for each organization that holds
it, the plan once for the whole scope. -/

namespace Chicoree.Quotas

open Images List Distinct
open Registryd (OrgId RepoId Digest Db Repository RepositoryBlob Time)
open Images (Tables BlobRow ManifestRow RefRow PrunePlan PruneStep Pruning ScopeRepository
  planPruneToFit loadedScope Executes runSteps Counted droppedBy liveBlobs ProtectedTag)

/-! ## Content -/

/-- Repositories with what they hold: their images, and the blobs linked to them. -/
structure Content where
  tables : Tables
  links : List RepositoryBlob

namespace Content

/-- The tables as the usage queries and garbage collection read them. -/
def db (c : Content) : Db where
  organizations := c.tables.organizations
  repositories := c.tables.repositories
  blobs := c.tables.blobs.map fun b => ⟨b.digest, b.size, 0⟩
  repositoryBlobs := c.links
  manifestRefs := c.tables.manifestRefs.map fun r =>
    ⟨r.repositoryId, r.manifestDigest, r.refDigest⟩

def executed (c : Content) (plan : PrunePlan) : Content :=
  { c with tables := runSteps c.tables (plan.steps.map PruneStep.cleanup) }

/-- The keys of the schema, and the foreign keys of repositories and references. -/
structure Consistent (c : Content) : Prop where
  valid : c.tables.Valid
  organizations : ∀ r ∈ c.tables.repositories, ∃ o ∈ c.tables.organizations, o.id = r.orgId
  manifests : Table.Keyed (fun m : ManifestRow => (m.repositoryId, m.digest)) c.tables.manifests
  blobs : Table.Keyed BlobRow.digest c.tables.blobs
  refs : ∀ r ∈ c.tables.manifestRefs,
    ∃ m ∈ c.tables.manifests, m.repositoryId = r.repositoryId ∧ m.digest = r.manifestDigest

end Content

inductive TargetType where
  | organization
  | user
deriving DecidableEq

structure Breach where
  targetType : TargetType
  targetId : String
  usedBytes : Nat
  limitBytes : Int
  /-- Repositories whose blobs count against this limit. -/
  repositoryIds : List RepoId
deriving DecidableEq

def targetOrganizations (a : Accounts) : TargetType → String → List OrgId
  | .organization, org => [org]
  | .user, user => Web.pool a user .storage

def usedBytes (a : Accounts) (db : Db) : TargetType → String → Nat
  | .organization, org => Web.orgStorageBytes db org
  | .user, user => Web.poolStorageBytes a db user

def targetRepositories (a : Accounts) (db : Db) (type : TargetType) (id : String) : List RepoId :=
  (db.repositories.filter fun r => decide (r.orgId ∈ targetOrganizations a type id)).map (·.id)

def breachOf (a : Accounts) (db : Db) (type : TargetType) (id : String) (limit : Int) : Breach :=
  ⟨type, id, usedBytes a db type id, limit, targetRepositories a db type id⟩

/-- `findBreaches`, for all targets or one organization. An organization without any linked
blob has no row in the usage query. -/
def findBreaches (a : Accounts) (db : Db) (organizationSlug : Option String) : List Breach :=
  let organizations := a.limits.organizationLimits.filterMap fun row =>
    match Table.find Registryd.Organization.id row.organizationId db.organizations,
        row.maxStorageBytes with
    | some o, some limit =>
      if (linkedBlobs db).any (fun x => decide (x.1.orgId = o.id)) ∧
          limit < usedBytes a db .organization o.id ∧
          (∀ slug ∈ organizationSlug, o.slug = slug) then
        some (breachOf a db .organization o.id limit)
      else none
    | _, _ => none
  if organizationSlug.isSome then organizations
  else organizations ++ a.limits.userLimits.filterMap fun row =>
    match row.maxStorageBytes with
    | some limit =>
      if (usedBytes a db .user row.userId : Int) ≤ limit then none
      else some (breachOf a db .user row.userId limit)
    | none => none

variable {db : Db}

theorem findBreaches_eq {a : Accounts} {slug : Option String} {b : Breach}
    (h : b ∈ findBreaches a db slug) :
    b = breachOf a db b.targetType b.targetId b.limitBytes ∧
      b.limitBytes < usedBytes a db b.targetType b.targetId := by
  have horganization (h : b ∈ a.limits.organizationLimits.filterMap fun row =>
      match Table.find Registryd.Organization.id row.organizationId db.organizations,
          row.maxStorageBytes with
      | some o, some limit =>
        if (linkedBlobs db).any (fun x => decide (x.1.orgId = o.id)) ∧
            limit < usedBytes a db .organization o.id ∧
            (∀ s ∈ slug, o.slug = s) then
          some (breachOf a db .organization o.id limit)
        else none
      | _, _ => none) : b = breachOf a db b.targetType b.targetId b.limitBytes ∧
        b.limitBytes < usedBytes a db b.targetType b.targetId := by
    obtain ⟨row, -, hrow⟩ := mem_filterMap.mp h
    split at hrow
    · split at hrow
      · rename_i hover
        cases hrow
        exact ⟨rfl, hover.2.1⟩
      · cases hrow
    · cases hrow
  unfold findBreaches at h
  split at h
  · exact horganization h
  · obtain h | h := mem_append.mp h
    · exact horganization h
    · obtain ⟨row, -, hrow⟩ := mem_filterMap.mp h
      split at hrow
      · split at hrow
        · cases hrow
        · rename_i hover
          cases hrow
          exact ⟨rfl, Int.not_le.mp hover⟩
      · cases hrow

variable {limit : Int}

theorem mem_findBreaches_user {a : Accounts} {row : UserLimits}
    (hrow : row ∈ a.limits.userLimits) (hlimit : row.maxStorageBytes = some limit)
    (hover : limit < usedBytes a db .user row.userId) :
    breachOf a db .user row.userId limit ∈ findBreaches a db none := by
  refine mem_append_right _ (mem_filterMap.mpr ⟨row, hrow, ?_⟩)
  rw [hlimit]
  exact if_neg (Int.not_le.mpr hover)

/-! ## What enforcement promises -/

section

variable (localeCompare : String → String → Ordering)

/-- A plan frees what it says: after its steps and a collection that comes after every link,
the usage is what the plan says, which is within the limit unless the plan is unmet; and an
unmet plan leaves only tags whose image a protected tag names. -/
structure Frees (a : Accounts) (c : Content) (b : Breach) (limitBytes : Nat) (plan : PrunePlan) :
    Prop where
  after : ∀ cutoff, (∀ l ∈ c.links, l.createdAt < cutoff) →
    usedBytes a ((c.executed plan).db.unlinkGarbage cutoff) b.targetType b.targetId =
      plan.afterBytes
  fits : ∀ cutoff, (∀ l ∈ c.links, l.createdAt < cutoff) → plan.unmet = false →
    usedBytes a ((c.executed plan).db.unlinkGarbage cutoff) b.targetType b.targetId ≤ limitBytes
  unmet : plan.unmet = true →
    ∀ repo ∈ loadedScope localeCompare c.tables b.repositoryIds, ∀ t ∈ repo.tags,
      (∀ step ∈ plan.steps, ¬(step.kind = .tag ∧ step.repositoryId = repo.id ∧ step.ref = t.name)) →
      ∃ t' ∈ repo.tags, t'.digest = t.digest ∧ ProtectedTag repo t'.name

/-- Every plan for the breach whose steps all succeed frees what it says. A limit is an
amount of bytes. -/
def Enforced (a : Accounts) (c : Content) (b : Breach) : Prop :=
  ∀ (limitBytes : Nat) (plan : PrunePlan), b.limitBytes = limitBytes →
    planPruneToFit (loadedScope localeCompare c.tables b.repositoryIds) localeCompare limitBytes =
      some plan →
    Executes c.tables (plan.steps.map PruneStep.cleanup) →
    Frees localeCompare a c b limitBytes plan

end

/-- Every blob with bytes that a manifest of the target names is linked where it is named. -/
def ReferencesLinked (a : Accounts) (c : Content) (type : TargetType) (id : String) : Prop :=
  ∀ r ∈ c.tables.repositories, r.orgId ∈ targetOrganizations a type id →
    ∀ ref ∈ c.tables.manifestRefs, ref.repositoryId = r.id →
      ∀ b ∈ c.tables.blobs, b.digest = ref.refDigest → 0 < b.size →
        ∃ l ∈ c.links, l.repositoryId = r.id ∧ l.blobDigest = b.digest

/-- No blob with bytes is named in two organizations of the target. -/
def NamedInOne (a : Accounts) (c : Content) (type : TargetType) (id : String) : Prop :=
  ∀ r ∈ c.tables.repositories, ∀ r' ∈ c.tables.repositories,
    r.orgId ∈ targetOrganizations a type id → r'.orgId ∈ targetOrganizations a type id →
    ∀ ref ∈ c.tables.manifestRefs, ∀ ref' ∈ c.tables.manifestRefs,
      ref.repositoryId = r.id → ref'.repositoryId = r'.id → ref.refDigest = ref'.refDigest →
      ∀ b ∈ c.tables.blobs, b.digest = ref.refDigest → 0 < b.size → r.orgId = r'.orgId

variable {orgs : List OrgId} {o : OrgId} {d : Digest} {n : Nat}

section rows

def orgRows (orgs : List OrgId) (db : Db) : List (OrgId × Digest × Nat) :=
  ((linkedBlobs db).filter fun x => decide (x.1.orgId ∈ orgs)).map fun x =>
    (x.1.orgId, x.2.digest, x.2.size)

theorem mem_orgRows : (o, d, n) ∈ orgRows orgs db ↔ o ∈ orgs ∧ ∃ r ∈ db.repositories, r.orgId = o ∧
      ∃ b ∈ db.blobs, b.digest = d ∧ b.size = n ∧
        ∃ l ∈ db.repositoryBlobs, l.repositoryId = r.id ∧ l.blobDigest = d := by
  simp only [orgRows, mem_map, mem_filter, decide_eq_true_eq, Prod.exists,
    mem_linkedBlobs, Prod.mk.injEq]
  constructor
  · rintro ⟨r, b, ⟨⟨hb, hr, l, hl, hdigest, hid⟩, ho⟩, rfl, rfl, rfl⟩
    exact ⟨ho, r, hr, rfl, b, hb, rfl, rfl, l, hl, hid, hdigest⟩
  · rintro ⟨ho, r, hr, rfl, b, hb, rfl, rfl, l, hl, hid, hdigest⟩
    exact ⟨r, b, ⟨⟨hb, hr, l, hl, hdigest, hid⟩, ho⟩, rfl, rfl, rfl⟩

theorem usedBytes_eq (a : Accounts) (db : Db) (type : TargetType) (id : String) :
    usedBytes a db type id =
      total (fun x => x.2.2) (orgRows (targetOrganizations a type id) db) := by
  cases type with
  | user => rfl
  | organization =>
    -- one organization only: its rows are told apart by what they hold
    have hmap : (orgRows [id] db).map Prod.snd =
        ((linkedBlobs db).filter fun x => decide (x.1.orgId = id)).map fun x =>
          (x.2.digest, x.2.size) := by
      simp [orgRows, map_map, Function.comp_def]
    have hkeys : total Prod.snd ((orgRows [id] db).map Prod.snd) =
        total (fun x => x.2.2) (orgRows [id] db) := by
      refine (total_map_eq_iff ?_).mpr ?_
      · exact fun _ _ => rfl
      rintro ⟨o, x⟩ hx ⟨o', x'⟩ hx' _ heq
      obtain ⟨ho, -⟩ := mem_orgRows.mp hx
      obtain ⟨ho', -⟩ := mem_orgRows.mp hx'
      rw [mem_singleton.mp ho, mem_singleton.mp ho', show x = x' from heq]
    rw [hmap] at hkeys
    exact hkeys

end rows

section left

variable {localeCompare : String → String → Ordering} {a : Accounts} {c : Content}
  {type : TargetType} {id : String}

theorem runSteps_tables (s : Tables) (steps : List CleanupStep) :
    (runSteps s steps).repositories = s.repositories ∧ (runSteps s steps).blobs = s.blobs := by
  induction steps generalizing s with
  | nil => exact ⟨rfl, rfl⟩
  | cons step rest ih =>
    obtain ⟨hrepositories, hblobs⟩ := ih (step.run s)
    refine ⟨hrepositories.trans run_repositories, hblobs.trans ?_⟩
    cases step with
    | tag | manifest => rfl

def storedSize (c : Content) (d : Digest) : Nat :=
  ((Table.find BlobRow.digest d c.tables.blobs).map (·.size)).getD 0

theorem storedSize_of_mem (hc : c.Consistent) {b : BlobRow} (hb : b ∈ c.tables.blobs) :
    storedSize c b.digest = b.size := by
  rw [storedSize, hc.blobs.find_self hb]
  rfl

def NamedAfter (c : Content) (plan : PrunePlan) (repo : RepoId) (d : Digest) : Prop :=
  ∃ ref ∈ c.tables.manifestRefs, ref.repositoryId = repo ∧ ref.refDigest = d ∧
    (repo, ref.manifestDigest) ∉ droppedBy plan.steps

variable {plan : PrunePlan}

variable {repo : RepoId}

theorem named_after_iff :
    (c.executed plan).db.blobManifestRefs repo d ≠ 0 ↔ NamedAfter c plan repo d := by
  have hpos : (c.executed plan).db.blobManifestRefs repo d ≠ 0 ↔
      ∃ m ∈ (c.executed plan).db.manifestRefs, m.repositoryId = repo ∧ m.refDigest = d := by
    rw [← Nat.pos_iff_ne_zero, Db.blobManifestRefs, countP_pos_iff]
    simp only [decide_eq_true_eq]
  rw [hpos]
  simp only [Content.db, Content.executed, mem_map]
  constructor
  · rintro ⟨_, ⟨ref, href, rfl⟩, rfl, rfl⟩
    obtain ⟨hmem, hstep⟩ := mem_refs_runSteps.mp href
    rw [mem_cleanup_manifest] at hstep
    exact ⟨ref, hmem, rfl, rfl, hstep⟩
  · rintro ⟨ref, hmem, rfl, rfl, hstep⟩
    rw [← mem_cleanup_manifest] at hstep
    exact ⟨_, ⟨ref, mem_refs_runSteps.mpr ⟨hmem, hstep⟩, rfl⟩, rfl, rfl⟩

variable {cutoff : Time}

theorem mem_links_after (hcutoff : ∀ l ∈ c.links, l.createdAt < cutoff) {l : RepositoryBlob} :
    l ∈ ((c.executed plan).db.unlinkGarbage cutoff).repositoryBlobs ↔
      l ∈ c.links ∧ NamedAfter c plan l.repositoryId l.blobDigest := by
  rw [← named_after_iff]
  simp only [Db.unlinkGarbage, mem_filter]
  constructor
  · intro ⟨hl, hkeep⟩
    have hold : l.createdAt < cutoff := hcutoff l hl
    exact ⟨hl, by simpa [hold] using hkeep⟩
  · intro ⟨hl, hnamed⟩
    exact ⟨hl, by simp [hnamed]⟩

theorem mem_rows_after (hcutoff : ∀ l ∈ c.links, l.createdAt < cutoff) :
    (o, d, n) ∈ orgRows orgs ((c.executed plan).db.unlinkGarbage cutoff) ↔
      o ∈ orgs ∧ ∃ r ∈ c.tables.repositories, r.orgId = o ∧
        (∃ b ∈ c.tables.blobs, b.digest = d ∧ b.size = n) ∧
        (∃ l ∈ c.links, l.repositoryId = r.id ∧ l.blobDigest = d) ∧
        NamedAfter c plan r.id d := by
  obtain ⟨hrepositories, hblobs⟩ := runSteps_tables c.tables (plan.steps.map PruneStep.cleanup)
  have hrepos : ((c.executed plan).db.unlinkGarbage cutoff).repositories =
      c.tables.repositories := hrepositories
  have hrows : ((c.executed plan).db.unlinkGarbage cutoff).blobs =
      c.tables.blobs.map fun b => ⟨b.digest, b.size, 0⟩ := congrArg _ hblobs
  rw [mem_orgRows, hrepos, hrows]
  refine and_congr_right fun _ => exists_congr fun r => and_congr_right fun _ =>
    and_congr_right fun _ => ?_
  constructor
  · rintro ⟨_, hb, hd, hn, l, hl, hid, hdigest⟩
    obtain ⟨b, hrow, rfl⟩ := mem_map.mp hb
    obtain ⟨hlink, hnamed⟩ := (mem_links_after hcutoff).mp hl
    rw [hid, hdigest] at hnamed
    exact ⟨⟨b, hrow, hd, hn⟩, ⟨l, hlink, hid, hdigest⟩, hnamed⟩
  · rintro ⟨⟨b, hb, hd, hn⟩, ⟨l, hl, hid, hdigest⟩, hnamed⟩
    refine ⟨_, mem_map.mpr ⟨b, hb, rfl⟩, hd, hn, l, ?_, hid, hdigest⟩
    refine (mem_links_after hcutoff).mpr ⟨hl, ?_⟩
    rw [hid, hdigest]
    exact hnamed

def targetScope (localeCompare : String → String → Ordering) (a : Accounts) (c : Content)
    (type : TargetType) (id : String) : List ScopeRepository :=
  loadedScope localeCompare c.tables (targetRepositories a c.db type id)

theorem mem_targetRepositories (hc : c.Consistent) {r : Repository}
    (hr : r ∈ c.tables.repositories) : r.id ∈ targetRepositories a c.db type id ↔
      r.orgId ∈ targetOrganizations a type id := by
  simp only [targetRepositories, Content.db, mem_map, mem_filter, decide_eq_true_eq]
  constructor
  · rintro ⟨x, ⟨hx, horg⟩, hid⟩
    rw [← hc.valid.repositoryIds.eq_of_key hx hr hid]
    exact horg
  · intro horg
    exact ⟨r, ⟨hr, horg⟩, rfl⟩

variable {b : ScopeBlob} {m : Digest}

theorem mem_scope_blobs {s : Tables} {ids : List RepoId} (hin : repo ∈ ids) :
    b ∈ ((s.scopeRefs ids).filter fun x =>
        decide (x.1.repositoryId = repo ∧ x.1.manifestDigest = m)).filterMap
          (fun x => x.2.map fun size => (⟨x.1.refDigest, size⟩ : ScopeBlob)) ↔
      (∃ ref ∈ s.manifestRefs, ref.repositoryId = repo ∧ ref.manifestDigest = m ∧
        ref.refDigest = b.digest) ∧
      ∃ row, Table.find BlobRow.digest b.digest s.blobs = some row ∧ row.size = b.size := by
  simp only [Tables.scopeRefs, mem_filterMap, mem_filter, mem_map, decide_eq_true_eq]
  constructor
  · rintro ⟨_, ⟨⟨ref, ⟨href, -⟩, rfl⟩, hrepo, hm⟩, hsize⟩
    obtain ⟨n, hn, rfl⟩ := Option.map_eq_some_iff.mp hsize
    obtain ⟨row, hrow, rfl⟩ := Option.map_eq_some_iff.mp hn
    exact ⟨⟨ref, href, hrepo, hm, rfl⟩, row, hrow, rfl⟩
  · rintro ⟨⟨ref, href, rfl, rfl, hd⟩, row, hrow, hsize⟩
    refine ⟨_, ⟨⟨ref, ⟨href, by simpa using hin⟩, rfl⟩, rfl, rfl⟩, ?_⟩
    rw [hd, hrow]
    show some (⟨b.digest, row.size⟩ : ScopeBlob) = some b
    rw [hsize]

theorem mem_targetScope_blobs (hc : c.Consistent) :
    (∃ x ∈ targetScope localeCompare a c type id, x.id = repo ∧
      ∃ y ∈ x.manifests, y.digest = m ∧ b ∈ y.blobs) ↔
    (∃ r ∈ c.tables.repositories, r.id = repo ∧ r.orgId ∈ targetOrganizations a type id) ∧
      (∃ ref ∈ c.tables.manifestRefs, ref.repositoryId = repo ∧ ref.manifestDigest = m ∧
        ref.refDigest = b.digest) ∧
      ∃ row, Table.find BlobRow.digest b.digest c.tables.blobs = some row ∧ row.size = b.size := by
  constructor
  · rintro ⟨x, hx, rfl, y, hy, rfl, hb⟩
    obtain ⟨⟨r, slug⟩, hr, rfl⟩ := mem_map.mp hx
    obtain ⟨hr, hid, -⟩ := mem_scopeRepositories.mp hr
    obtain ⟨row, -, rfl⟩ := mem_map.mp hy
    exact ⟨⟨r, hr, rfl, (mem_targetRepositories hc hr).mp hid⟩, (mem_scope_blobs hid).mp hb⟩
  · rintro ⟨⟨r, hr, rfl, horg⟩, href, hrow⟩
    have hid : r.id ∈ targetRepositories a c.db type id := (mem_targetRepositories hc hr).mpr horg
    obtain ⟨o, ho, hoid⟩ := hc.organizations r hr
    have hscope : (r, o.slug) ∈ c.tables.scopeRepositories
        (targetRepositories a c.db type id) := by
      refine mem_scopeRepositories.mpr ⟨hr, hid, o, ?_, rfl⟩
      rw [← hoid]
      exact hc.valid.organizationIds.find_self ho
    obtain ⟨ref, hmem, hrepo, rfl, hd⟩ := href
    -- the manifest of the reference is there
    obtain ⟨row, hmrow, hmrepo, hmd⟩ := hc.refs ref hmem
    have hmid : row.repositoryId = r.id := hmrepo.trans hrepo
    refine ⟨_, mem_map_of_mem hscope, rfl, _, mem_map_of_mem ?_, hmd,
      (mem_scope_blobs hid).mpr ⟨⟨ref, hmem, hrepo, hmd.symm, hd⟩, hrow⟩⟩
    refine mem_filter.mpr ⟨mem_filter.mpr ⟨hmrow, ?_⟩, decide_eq_true hmid⟩
    rw [hmid]
    simpa using hid

theorem mem_liveBlobs_digests (hc : c.Consistent) {st : Pruning}
    (hst : Counted (targetScope localeCompare a c type id) st) (hsteps : plan.steps = st.steps)
    :
    d ∈ (liveBlobs (targetScope localeCompare a c type id) st).map (·.digest) ↔
      ∃ r ∈ c.tables.repositories, r.orgId ∈ targetOrganizations a type id ∧
        (∃ b ∈ c.tables.blobs, b.digest = d) ∧ NamedAfter c plan r.id d := by
  rw [mem_map]
  constructor
  · rintro ⟨b, hb, rfl⟩
    obtain ⟨repo, hrepo, m, hm, hlive, hmem⟩ := mem_liveBlobs.mp hb
    obtain ⟨⟨r, hr, hid, horg⟩, ⟨ref, href, hrefid, hrefm, hd⟩, row, hrow, -⟩ :=
      (mem_targetScope_blobs hc).mp ⟨repo, hrepo, rfl, m, hm, rfl, hmem⟩
    obtain ⟨hrow, hdigest⟩ := Table.find_some hrow
    refine ⟨r, hr, horg, ⟨row, hrow, hdigest⟩, ref, href, hrefid.trans hid.symm, hd, ?_⟩
    rw [hid, hrefm, hsteps]
    exact fun hdropped => hst.dead _ hdropped hlive
  · rintro ⟨r, hr, horg, ⟨b, hb, rfl⟩, ref, href, hrefid, hd, hnot⟩
    have hblob : ∃ x ∈ targetScope localeCompare a c type id, x.id = r.id ∧
        ∃ y ∈ x.manifests, y.digest = ref.manifestDigest ∧
          (⟨b.digest, b.size⟩ : ScopeBlob) ∈ y.blobs :=
      (mem_targetScope_blobs hc).mpr
        ⟨⟨r, hr, rfl, horg⟩, ⟨ref, href, hrefid, rfl, hd⟩, b, hc.blobs.find_self hb, rfl⟩
    obtain ⟨x, hx, hid, y, hy, hym, hmem⟩ := hblob
    refine ⟨_, mem_liveBlobs.mpr ⟨x, hx, y, hy, ?_, hmem⟩, rfl⟩
    obtain hlive | hdropped := hst.accounted x hx y hy
    · exact hlive
    · rw [hsteps] at hnot
      rw [hid, hym] at hdropped
      exact absurd hdropped hnot

theorem allBlobs_sizes (hc : c.Consistent) : ∀ b ∈ allBlobs (targetScope localeCompare a c type id),
      b.size = storedSize c b.digest := by
  intro b hb
  obtain ⟨repo, hrepo, m, hm, hmem⟩ := mem_allBlobs.mp hb
  obtain ⟨-, -, row, hrow, hsize⟩ :=
    (mem_targetScope_blobs hc).mp ⟨repo, hrepo, rfl, m, hm, rfl, hmem⟩
  rw [storedSize, hrow, ← hsize]
  rfl

/-! ## What is freed -/

theorem rows_after_weigh (hc : c.Consistent) (hcutoff : ∀ l ∈ c.links, l.createdAt < cutoff) :
    ∀ x ∈ orgRows orgs ((c.executed plan).db.unlinkGarbage cutoff), x.2.2 = storedSize c x.2.1 := by
  rintro ⟨o, d, n⟩ hx
  obtain ⟨-, r, -, -, ⟨b, hb, rfl, rfl⟩, -⟩ := (mem_rows_after hcutoff).mp hx
  exact (storedSize_of_mem hc hb).symm

/-- No two rows that weigh something have one digest. -/
def Apart (rows : List (OrgId × Digest × Nat)) : Prop :=
  ∀ x ∈ rows, ∀ y ∈ rows, 0 < x.2.2 → x.2.1 = y.2.1 → x = y

section after

variable {limitBytes : Nat} (hc : c.Consistent) (hlinked : ReferencesLinked a c type id)
  (hcutoff : ∀ l ∈ c.links, l.createdAt < cutoff)
  (hplan : planPruneToFit (targetScope localeCompare a c type id) localeCompare limitBytes =
    some plan)
  (hexec : Executes c.tables (plan.steps.map PruneStep.cleanup))
include hc hlinked hcutoff hplan hexec

theorem afterBytes_eq :
    plan.afterBytes = total (storedSize c) ((orgRows (targetOrganizations a type id)
        ((c.executed plan).db.unlinkGarbage cutoff)).map fun x => x.2.1) := by
  have hkeys : ScopeKeys (targetScope localeCompare a c type id) :=
    loadedScope_keys hc.valid hc.manifests
  obtain ⟨st, hst, hsteps, hafter, -⟩ := planPruneToFit_counted hkeys hplan
  have hnodup : (droppedBy st.steps).Nodup := by
    rw [← hsteps]
    exact nodup_of_executes hexec
  rw [hafter, hst.usage hnodup (allBlobs_sizes hc)]
  refine total_congr_pos fun d hpos => ?_
  rw [mem_liveBlobs_digests hc hst hsteps, mem_map]
  constructor
  · rintro ⟨r, hr, horg, ⟨b, hb, rfl⟩, hnamed⟩
    rw [storedSize_of_mem hc hb] at hpos
    have hthis := hnamed
    obtain ⟨ref, href, hrefid, hd, -⟩ := hthis
    obtain ⟨l, hl, hlink⟩ := hlinked r hr horg ref href hrefid b hb hd.symm hpos
    exact ⟨(r.orgId, b.digest, b.size), (mem_rows_after hcutoff).mpr
      ⟨horg, r, hr, rfl, ⟨b, hb, rfl, rfl⟩, ⟨l, hl, hlink⟩, hnamed⟩, rfl⟩
  · rintro ⟨⟨o, d, n⟩, hrow, rfl⟩
    obtain ⟨horg, r, hr, rfl, ⟨b, hb, hd, -⟩, -, hnamed⟩ := (mem_rows_after hcutoff).mp hrow
    exact ⟨r, hr, horg, ⟨b, hb, hd⟩, hnamed⟩

theorem afterBytes_le :
    plan.afterBytes ≤ usedBytes a ((c.executed plan).db.unlinkGarbage cutoff) type id := by
  rw [usedBytes_eq, afterBytes_eq hc hlinked hcutoff hplan hexec]
  exact total_map_le (rows_after_weigh hc hcutoff)

theorem used_after_iff :
    usedBytes a ((c.executed plan).db.unlinkGarbage cutoff) type id = plan.afterBytes ↔
      Apart (orgRows (targetOrganizations a type id) ((c.executed plan).db.unlinkGarbage cutoff)) := by
  rw [usedBytes_eq, afterBytes_eq hc hlinked hcutoff hplan hexec, eq_comm]
  exact total_map_eq_iff (rows_after_weigh hc hcutoff)

end after

theorem rows_apart (hc : c.Consistent) (hone : NamedInOne a c type id)
    (hcutoff : ∀ l ∈ c.links, l.createdAt < cutoff) :
    Apart (orgRows (targetOrganizations a type id) ((c.executed plan).db.unlinkGarbage cutoff)) := by
  rintro ⟨o, d, n⟩ hx ⟨o', d', n'⟩ hy hpos hd
  obtain rfl : d = d' := hd
  have hn : n = storedSize c d := rows_after_weigh hc hcutoff _ hx
  have hn' : n' = storedSize c d := rows_after_weigh hc hcutoff _ hy
  obtain ⟨ho, r, hr, rfl, ⟨b, hb, hbd, hbn⟩, -, ref, href, hrefid, hrefd, -⟩ :=
    (mem_rows_after hcutoff).mp hx
  obtain ⟨ho', r', hr', rfl, -, -, ref', href', hrefid', hrefd', -⟩ :=
    (mem_rows_after hcutoff).mp hy
  have horg : r.orgId = r'.orgId := by
    refine hone r hr r' hr' ho ho' ref href ref' href' hrefid hrefid' ?_ b hb ?_ ?_
    · rw [hrefd, hrefd']
    · rw [hbd, hrefd]
    · rw [hbn]
      exact hpos
  rw [horg, hn, hn']

theorem namedInOne_of_apart (hlinked : ReferencesLinked a c type id)
    (hcutoff : ∀ l ∈ c.links, l.createdAt < cutoff) (hempty : plan.steps = []) (hapart :
      Apart (orgRows (targetOrganizations a type id) ((c.executed plan).db.unlinkGarbage cutoff))) :
    NamedInOne a c type id := by
  intro r hr r' hr' ho ho' ref href ref' href' hrefid hrefid' hsame b hb hbd hpos
  have hrow (q : Repository) (hq : q ∈ c.tables.repositories)
      (hqo : q.orgId ∈ targetOrganizations a type id) (qref : RefRow)
      (hqref : qref ∈ c.tables.manifestRefs) (hqid : qref.repositoryId = q.id)
      (hqd : b.digest = qref.refDigest) :
      (q.orgId, b.digest, b.size) ∈ orgRows (targetOrganizations a type id)
        ((c.executed plan).db.unlinkGarbage cutoff) := by
    obtain ⟨l, hl, hlink⟩ := hlinked q hq hqo qref hqref hqid b hb hqd hpos
    refine (mem_rows_after hcutoff).mpr ⟨hqo, q, hq, rfl, ⟨b, hb, rfl, rfl⟩, ⟨l, hl, hlink⟩, ?_⟩
    refine ⟨qref, hqref, hqid, hqd.symm, ?_⟩
    rw [hempty]
    exact nofun
  have heq := hapart _ (hrow r hr ho ref href hrefid hbd) _
    (hrow r' hr' ho' ref' href' hrefid' (hbd.trans hsame)) hpos rfl
  exact (Prod.mk.inj heq).1

theorem used_after_le (hcutoff : ∀ l ∈ c.links, l.createdAt < cutoff) :
    usedBytes a ((c.executed plan).db.unlinkGarbage cutoff) type id ≤
      usedBytes a c.db type id := by
  rw [usedBytes_eq, usedBytes_eq]
  refine total_mono ?_
  rintro ⟨o, d, n⟩ hx
  obtain ⟨ho, r, hr, hro, ⟨b, hb, hd, hn⟩, hlink, -⟩ := (mem_rows_after hcutoff).mp hx
  exact mem_orgRows.mpr ⟨ho, r, hr, hro, _, mem_map_of_mem hb, hd, hn, hlink⟩

theorem exists_cutoff (links : List RepositoryBlob) :
    ∃ cutoff : Time, ∀ l ∈ links, l.createdAt < cutoff := by
  induction links with
  | nil => exact ⟨0, nofun⟩
  | cons x links ih =>
    obtain ⟨cutoff, hcutoff⟩ := ih
    refine ⟨max cutoff (x.createdAt + 1), ?_⟩
    intro l hl
    obtain rfl | hl := mem_cons.mp hl
    · exact Int.lt_of_lt_of_le (Int.lt_succ _) (Int.le_max_right _ _)
    · exact Int.lt_of_lt_of_le (hcutoff l hl) (Int.le_max_left _ _)

theorem frees_of_apart (hc : c.Consistent) (hlinked : ReferencesLinked a c type id)
    (hone : NamedInOne a c type id) (limit : Int) :
    Enforced localeCompare a c (breachOf a c.db type id limit) := by
  intro limitBytes plan _ hplan hexec
  have hkeys : ScopeKeys (targetScope localeCompare a c type id) :=
    loadedScope_keys hc.valid hc.manifests
  have hafter : ∀ cutoff, (∀ l ∈ c.links, l.createdAt < cutoff) →
      usedBytes a ((c.executed plan).db.unlinkGarbage cutoff) type id = plan.afterBytes :=
    fun cutoff hcutoff => (used_after_iff hc hlinked hcutoff hplan hexec).mpr
      (rows_apart hc hone hcutoff)
  refine ⟨hafter, ?_, ?_⟩
  · intro cutoff hcutoff hmet
    show usedBytes a ((c.executed plan).db.unlinkGarbage cutoff) type id ≤ limitBytes
    rw [hafter cutoff hcutoff]
    obtain ⟨st, -, -, hbytes, hunmet⟩ := planPruneToFit_counted hkeys hplan
    rw [hbytes]
    by_contra hover
    rw [hunmet.mpr (Nat.not_le.mp hover)] at hmet
    cases hmet
  · intro hunmet repo hrepo t ht hleft
    exact unmet_leaves_protected hkeys hplan hunmet hrepo ht hleft

/-- A limit that the plan takes for kept shows whether a blob is in two organizations. -/
theorem namedInOne_of_enforced (hc : c.Consistent) (hlinked : ReferencesLinked a c type id)
    (hall : ∀ limitBytes : Nat, limitBytes < usedBytes a c.db type id →
      Enforced localeCompare a c (breachOf a c.db type id limitBytes)) :
    NamedInOne a c type id := by
  obtain ⟨cutoff, hcutoff⟩ := exists_cutoff c.links
  obtain ⟨before, plan, hempty, hplan, hbefore⟩ :=
    planPruneToFit_before (targetScope localeCompare a c type id) localeCompare
  have hexec : Executes c.tables (plan.steps.map PruneStep.cleanup) := by
    rw [hempty]
    exact .nil _
  refine namedInOne_of_apart hlinked hcutoff hempty
    ((used_after_iff hc hlinked hcutoff hplan hexec).mp ?_)
  by_cases hover : before < usedBytes a c.db type id
  · exact (hall before hover before plan rfl hplan hexec).after cutoff hcutoff
  · -- nothing is over, and the plan counts no more than what is left
    have hle : usedBytes a ((c.executed plan).db.unlinkGarbage cutoff) type id ≤
        usedBytes a c.db type id := used_after_le hcutoff
    have hge : plan.afterBytes ≤ usedBytes a ((c.executed plan).db.unlinkGarbage cutoff) type id :=
      afterBytes_le hc hlinked hcutoff hplan hexec
    omega

end left

def Accounts.withUserLimits (a : Accounts) (limits : List UserLimits) : Accounts :=
  { a with limits := { a.limits with userLimits := limits } }

section limits

variable {a : Accounts} {limits : List UserLimits} {type : TargetType} {id : String}

@[simp] theorem targetOrganizations_withUserLimits :
    targetOrganizations (a.withUserLimits limits) type id = targetOrganizations a type id := by
  cases type <;> rfl

@[simp] theorem usedBytes_withUserLimits :
    usedBytes (a.withUserLimits limits) db type id = usedBytes a db type id := by
  cases type <;> rfl

@[simp] theorem breachOf_withUserLimits :
    breachOf (a.withUserLimits limits) db type id limit = breachOf a db type id limit := by
  unfold breachOf targetRepositories
  rw [usedBytes_withUserLimits, targetOrganizations_withUserLimits]

theorem mem_findBreaches_limited (hover : limit < usedBytes a db .user id) :
    breachOf a db .user id limit ∈
      findBreaches (a.withUserLimits [⟨id, none, none, none, some limit⟩]) db none := by
  have hover' : limit <
      usedBytes (a.withUserLimits [⟨id, none, none, none, some limit⟩]) db .user id := by
    rw [usedBytes_withUserLimits]
    exact hover
  have hrow : (⟨id, none, none, none, some limit⟩ : UserLimits) ∈
      (a.withUserLimits [⟨id, none, none, none, some limit⟩]).limits.userLimits :=
    mem_singleton_self _
  have hbreach := mem_findBreaches_user hrow rfl hover'
  rw [breachOf_withUserLimits] at hbreach
  exact hbreach

theorem Enforced.of_withUserLimits {localeCompare : String → String → Ordering} {c : Content}
    {b : Breach} (h : Enforced localeCompare (a.withUserLimits limits) c b) :
    Enforced localeCompare a c b := by
  intro limitBytes plan hlimit hplan hexec
  obtain ⟨hafter, hfits, hunmet⟩ := h limitBytes plan hlimit hplan hexec
  simp only [usedBytes_withUserLimits] at hafter hfits
  exact ⟨hafter, hfits, hunmet⟩

end limits

/-- Where every named blob is linked, enforcement frees what its plan says, under every limit,
where no blob is named in two organizations of the target. -/
theorem enforcement_frees_iff (localeCompare : String → String → Ordering) (a : Accounts)
    (c : Content) (type : TargetType) (id : String) (hc : c.Consistent)
    (hlinked : ReferencesLinked a c type id) :
    (∀ limits slug, ∀ b ∈ findBreaches (a.withUserLimits limits) c.db slug,
      b.targetType = type → b.targetId = id →
      Enforced localeCompare (a.withUserLimits limits) c b) ↔ NamedInOne a c type id := by
  constructor
  · intro hall
    cases type with
    | organization =>
      intro r _ r' _ ho ho' _ _ _ _ _ _ _ _ _ _ _
      rw [mem_singleton.mp ho, mem_singleton.mp ho']
    | user =>
      refine @namedInOne_of_enforced localeCompare a c .user id hc hlinked ?_
      intro limitBytes hover
      have hbreach := mem_findBreaches_limited (Int.ofNat_lt.mpr hover)
      exact (hall _ none _ hbreach rfl rfl).of_withUserLimits
  · intro hone limits slug b hb htype hid
    have hlinked' : ReferencesLinked (a.withUserLimits limits) c type id := by
      unfold ReferencesLinked
      rw [targetOrganizations_withUserLimits]
      exact hlinked
    have hone' : NamedInOne (a.withUserLimits limits) c type id := by
      unfold NamedInOne
      rw [targetOrganizations_withUserLimits]
      exact hone
    obtain ⟨hbreach, -⟩ := findBreaches_eq hb
    rw [hbreach, htype, hid]
    exact frees_of_apart hc hlinked' hone' b.limitBytes

section Two

def owners : Accounts where
  members := [⟨"m1", "o1", "u", "owner"⟩, ⟨"m2", "o2", "u", "owner"⟩]
  limits := { userLimits := [⟨"u", none, none, none, some 15⟩] }

def twoImages (layer : Digest) : Content where
  tables :=
    { organizations := [⟨"o1", "acme"⟩, ⟨"o2", "zeta"⟩]
      repositories := [⟨"r1", "o1", "app", .private⟩, ⟨"r2", "o2", "app", .private⟩]
      issued := ["r1", "r2"]
      manifests := [⟨"r1", "sha256:one", none, 0⟩, ⟨"r2", "sha256:two", none, 0⟩]
      manifestRefs := [⟨"r1", "sha256:one", "sha256:base"⟩, ⟨"r2", "sha256:two", layer⟩]
      tags := [⟨"r1", "latest", "sha256:one", 0, 0, none⟩,
        ⟨"r2", "latest", "sha256:two", 0, 0, none⟩]
      blobs := [⟨"sha256:base", 10⟩, ⟨"sha256:other", 10⟩] }
  links := [⟨"r1", "sha256:base", 0⟩, ⟨"r2", layer, 0⟩]

theorem twoImages_valid : (twoImages "").tables.Valid :=
  ⟨by decide, by decide, by decide, by decide, by decide, by decide⟩

theorem twoImages_consistent (layer : Digest) : (twoImages layer).Consistent where
  -- the layer is in none of these tables
  valid := ⟨twoImages_valid.repositoryIds, twoImages_valid.repositoryNames,
    twoImages_valid.organizationIds, twoImages_valid.organizationSlugs,
    twoImages_valid.tagNames, twoImages_valid.issued⟩
  organizations := by
    have h : ∀ r ∈ (twoImages "").tables.repositories,
        ∃ o ∈ (twoImages "").tables.organizations, o.id = r.orgId := by decide
    exact h
  manifests := by
    have h : Table.Keyed (fun m : ManifestRow => (m.repositoryId, m.digest))
        (twoImages "").tables.manifests := by decide
    exact h
  blobs := by
    have h : Table.Keyed BlobRow.digest (twoImages "").tables.blobs := by decide
    exact h
  refs := by
    intro r hr
    obtain rfl | hr := mem_cons.mp hr
    · exact ⟨_, mem_cons_self, rfl, rfl⟩
    · rw [mem_singleton.mp hr]
      exact ⟨_, mem_cons_of_mem _ mem_cons_self, rfl, rfl⟩

theorem enforcement_frees_two : ∃ b ∈ findBreaches owners (twoImages "sha256:other").db none,
      Enforced compare owners (twoImages "sha256:other") b := by
  have hlinked : ReferencesLinked owners (twoImages "sha256:other") .user "u" := by
    unfold ReferencesLinked
    decide +kernel
  have hone : NamedInOne owners (twoImages "sha256:other") .user "u" := by
    unfold NamedInOne
    decide +kernel
  have hbreach : breachOf owners (twoImages "sha256:other").db .user "u" 15 ∈
      findBreaches owners (twoImages "sha256:other").db none := by decide +kernel
  exact ⟨_, hbreach, (enforcement_frees_iff compare owners (twoImages "sha256:other") .user "u"
    (twoImages_consistent _) hlinked).mpr hone owners.limits.userLimits none _ hbreach rfl rfl⟩

/-- A layer of both organizations counts twice for the account and once for the plan, which
then sees nothing to do. -/
theorem shared_layer_not_freed :
    ∃ b ∈ findBreaches owners (twoImages "sha256:base").db none, b.limitBytes = 15 ∧
      b.usedBytes = 20 ∧ planPruneToFit (loadedScope compare (twoImages "sha256:base").tables
        b.repositoryIds) compare 15 = some ⟨[], 10, 10, false⟩ ∧
      ¬ Enforced compare owners (twoImages "sha256:base") b := by
  have hbreach : breachOf owners (twoImages "sha256:base").db .user "u" 15 ∈
      findBreaches owners (twoImages "sha256:base").db none := by decide +kernel
  have hbefore : (startPruning (targetScope compare owners (twoImages "sha256:base") .user
      "u")).usage (targetScope compare owners (twoImages "sha256:base") .user "u") = 10 := by
    decide +kernel
  have hplan : planPruneToFit (targetScope compare owners (twoImages "sha256:base") .user "u")
      compare 15 = some ⟨[], 10, 10, false⟩ := by
    unfold planPruneToFit
    simp only [hbefore]
    rfl
  refine ⟨_, hbreach, rfl, by decide +kernel, hplan, ?_⟩
  intro henforced
  have hused := (henforced 15 _ rfl hplan (.nil _)).after 1 (by decide +kernel)
  exact absurd hused (by decide +kernel)

end Two

end Chicoree.Quotas
