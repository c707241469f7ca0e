import Chicoree.Registryd.TagRules

/-! # The tables of images and tags

Repositories with their manifests and tags as the web app and registryd share them, and the
statements of both that change them. A foreign key takes the rows below a deleted row
along. -/

namespace Chicoree.Images

open Bool List Table
open Registryd (Digest RepoId OrgId Time TagRule TagRuleRow tagRulesFor Repository Organization)

/-! ## Rows -/

structure ManifestRow where
  repositoryId : RepoId
  digest : Digest
  subjectDigest : Option Digest := none
  createdAt : Time
deriving DecidableEq

structure RefRow where
  repositoryId : RepoId
  manifestDigest : Digest
  refDigest : Digest

/-- A row of `tags`; it is updated by pushes, and pulls of a proxy cache are noted in
`lastPulledAt`. -/
structure TagRow where
  repositoryId : RepoId
  name : String
  manifestDigest : Digest
  createdAt : Time
  updatedAt : Time
  lastPulledAt : Option Time := none
deriving DecidableEq

def TagRow.key (t : TagRow) : RepoId × String := (t.repositoryId, t.name)

structure BlobRow where
  digest : Digest
  size : Nat

structure RetentionSettings where
  enabled : Bool := false
  /-- Keep the most recently pushed tags. -/
  keepLast : Option Nat := none
  /-- Globs of tags that are always kept, separated by spaces. -/
  keepMatching : Option String := none
  deleteOlderThanDays : Option Nat := none
  deleteUntaggedAfterDays : Option Nat := none

/-- A row of `retention_policies`: of a repository, or the default of its organization. -/
structure RetentionPolicyRow where
  organizationId : OrgId
  repositoryId : Option RepoId
  settings : RetentionSettings

structure Tables where
  organizations : List Organization := []
  repositories : List Repository := []
  /-- Identifiers of repositories, past and present. -/
  issued : List RepoId := []
  /-- Organizations that are proxy caches. -/
  organizationProxies : List OrgId := []
  manifests : List ManifestRow := []
  manifestRefs : List RefRow := []
  tags : List TagRow := []
  blobs : List BlobRow := []
  tagRules : List TagRuleRow := []
  retentionPolicies : List RetentionPolicyRow := []
  now : Time := 0

namespace Tables

def findRepository (s : Tables) (id : RepoId) : Option Repository :=
  Table.find Repository.id id s.repositories

def findOrganization (s : Tables) (id : OrgId) : Option Organization :=
  Table.find Organization.id id s.organizations

/-- `GetRepository` of registryd. -/
def getRepository (s : Tables) (orgSlug name : String) : Option Repository :=
  match Table.find Organization.slug orgSlug s.organizations with
  | none => none
  | some o => Table.find (fun r : Repository => (r.orgId, r.name)) (o.id, name) s.repositories

def findTag (s : Tables) (repo : RepoId) (name : String) : Option TagRow :=
  Table.find TagRow.key (repo, name) s.tags

def resolveTag (s : Tables) (repo : RepoId) (name : String) : Option Digest :=
  (s.findTag repo name).map (·.manifestDigest)

def manifestExists (s : Tables) (repo : RepoId) (d : Digest) : Bool :=
  s.manifests.any fun m => decide (m.repositoryId = repo ∧ m.digest = d)

def repositoryTags (s : Tables) (repo : RepoId) : List TagRow :=
  s.tags.filter fun t => decide (t.repositoryId = repo)

/-- `tagsForDigest`, `TagsForManifest`. -/
def tagsForDigest (s : Tables) (repo : RepoId) (d : Digest) : List String :=
  (s.tags.filter fun t => decide (t.repositoryId = repo ∧ t.manifestDigest = d)).map (·.name)

/-- `indexMemberships`: the manifests of the repository that list this one. -/
def indexMemberships (s : Tables) (repo : RepoId) (d : Digest) : List Digest :=
  (s.manifestRefs.filter fun r => decide (r.repositoryId = repo ∧ r.refDigest = d) &&
    s.manifestExists repo r.manifestDigest).map (·.manifestDigest)

def rulesOf (s : Tables) (repo : Repository) : List TagRule :=
  tagRulesFor s.tagRules repo.orgId repo.id

def isProxyOrg (s : Tables) (orgId : OrgId) : Bool :=
  s.organizationProxies.contains orgId

/-- `UpsertManifest`: the row, new or with the columns a push rewrites, and its
references. -/
def upsertManifest (s : Tables) (repo : RepoId) (d : Digest) (subject : Option Digest)
    (refs : List Digest) : Tables :=
  let row : ManifestRow := ⟨repo, d, subject, s.now⟩
  let manifests :=
    if s.manifestExists repo d then
      s.manifests.map fun m =>
        if m.repositoryId = repo ∧ m.digest = d then { m with subjectDigest := subject } else m
    else s.manifests ++ [row]
  let others := s.manifestRefs.filter
    fun r => decide (¬(r.repositoryId = repo ∧ r.manifestDigest = d))
  { s with manifests := manifests
           manifestRefs := others ++ refs.eraseDups.map fun r => ⟨repo, d, r⟩ }

def pushedTag (s : Tables) (repo : RepoId) (name : String) (d : Digest) : TagRow :=
  match s.findTag repo name with
  | some t => { t with manifestDigest := d, updatedAt := s.now }
  | none => ⟨repo, name, d, s.now, s.now, none⟩

/-- The insert of `UpsertTagGuarded`. -/
def writeTag (s : Tables) (repo : RepoId) (name : String) (d : Digest) : Tables :=
  { s with tags := Table.upsert TagRow.key (s.pushedTag repo name d) s.tags }

/-- `DeleteTag`, and the statement of the web app's form. -/
def deleteTag (s : Tables) (repo : RepoId) (name : String) : Tables :=
  { s with tags := s.tags.filter fun t => decide (t.key ≠ (repo, name)) }

/-- `DeleteManifest`: its references and the tags that point at it go with it. -/
def deleteManifest (s : Tables) (repo : RepoId) (d : Digest) : Tables :=
  { s with
    manifests := s.manifests.filter fun m => decide (¬(m.repositoryId = repo ∧ m.digest = d))
    manifestRefs := s.manifestRefs.filter
      fun r => decide (¬(r.repositoryId = repo ∧ r.manifestDigest = d))
    tags := s.tags.filter
      fun t => decide (¬(t.repositoryId = repo ∧ t.manifestDigest = d)) }

/-- `COALESCE(last_pulled_at, created_at)` -/
def lastUse (t : TagRow) : Time := t.lastPulledAt.getD t.createdAt

/-- The tag belongs to a proxy cache and nobody pulled it since the cutoff. -/
def unused (s : Tables) (cutoff : Time) (t : TagRow) : Bool :=
  decide (lastUse t < cutoff) &&
    s.repositories.any fun r => decide (r.id = t.repositoryId) && s.isProxyOrg r.orgId

/-- The delete of `evictProxyTags`. -/
def evictTags (s : Tables) (cutoff : Time) : Tables :=
  { s with tags := s.tags.filter fun t => !s.unused cutoff t }

def loose (s : Tables) (cutoff : Time) (m : ManifestRow) : Bool :=
  decide (m.createdAt < cutoff) &&
    (s.tagsForDigest m.repositoryId m.digest).isEmpty &&
    !s.manifestRefs.any fun r => decide (r.repositoryId = m.repositoryId ∧ r.refDigest = m.digest)

/-- The statement of the `prune-untagged` job, with what the foreign keys take along. -/
def pruneUntagged (s : Tables) (cutoff : Time) : Tables :=
  let gone := s.manifests.filter (s.loose cutoff)
  { s with
    manifests := s.manifests.filter fun m => !s.loose cutoff m
    manifestRefs := s.manifestRefs.filter fun r => !gone.any
      fun m => decide (m.repositoryId = r.repositoryId ∧ m.digest = r.manifestDigest)
    tags := s.tags.filter fun t => !gone.any
      fun m => decide (m.repositoryId = t.repositoryId ∧ m.digest = t.manifestDigest) }

/-- Insert a repository under an identifier never used before, unless its name is
taken. -/
def createRepository (s : Tables) (r : Repository) : Option Tables :=
  if s.issued.contains r.id ∨
      s.repositories.any (fun x => decide (x.orgId = r.orgId ∧ x.name = r.name)) then none
  else some { s with repositories := s.repositories ++ [r], issued := s.issued ++ [r.id] }

def deleteRepository (s : Tables) (id : RepoId) : Tables :=
  { s with
    repositories := s.repositories.filter fun r => decide (r.id ≠ id)
    manifests := s.manifests.filter fun m => decide (m.repositoryId ≠ id)
    manifestRefs := s.manifestRefs.filter fun r => decide (r.repositoryId ≠ id)
    tags := s.tags.filter fun t => decide (t.repositoryId ≠ id) }

/-! ## What the statements leave -/

section

variable {s : Tables} {repo : RepoId} {name : String} {d : Digest} {t : TagRow}

theorem findTag_some (h : s.findTag repo name = some t) :
    t ∈ s.tags ∧ t.repositoryId = repo ∧ t.name = name := by
  obtain ⟨hmem, hkey⟩ := find_some h
  exact ⟨hmem, congrArg Prod.fst hkey, congrArg Prod.snd hkey⟩

theorem pushedTag_repositoryId : (s.pushedTag repo name d).repositoryId = repo := by
  unfold pushedTag
  split
  · rename_i t ht
    exact (findTag_some ht).2.1
  · rfl

theorem pushedTag_name : (s.pushedTag repo name d).name = name := by
  unfold pushedTag
  split
  · rename_i t ht
    exact (findTag_some ht).2.2
  · rfl

@[simp] theorem pushedTag_manifestDigest : (s.pushedTag repo name d).manifestDigest = d := by
  unfold pushedTag
  split <;> rfl

@[simp] theorem pushedTag_key : (s.pushedTag repo name d).key = (repo, name) :=
  Prod.ext pushedTag_repositoryId pushedTag_name

theorem mem_tagsForDigest (ht : t ∈ s.tags) :
    t.name ∈ s.tagsForDigest t.repositoryId t.manifestDigest := by
  refine mem_map.mpr ⟨t, mem_filter.mpr ⟨ht, ?_⟩, rfl⟩
  simp

theorem mem_tags_writeTag (ht : t ∈ s.tags) : t ∈ (s.writeTag repo name d).tags ∨
      t.key = (repo, name) ∧ s.pushedTag repo name d ∈ (s.writeTag repo name d).tags := by
  by_cases hkey : t.key = (repo, name)
  · exact .inr ⟨hkey, mem_upsert_self _ _⟩
  · refine .inl (mem_upsert_of_ne ht ?_)
    rw [pushedTag_key]
    exact hkey

theorem mem_tags_of_writeTag (ht : t ∈ (s.writeTag repo name d).tags) :
    t ∈ s.tags ∨ t = s.pushedTag repo name d :=
  mem_of_mem_upsert ht

theorem mem_tags_deleteTag : t ∈ (s.deleteTag repo name).tags ↔
    t ∈ s.tags ∧ t.key ≠ (repo, name) := by
  simp [deleteTag]

theorem mem_tags_deleteManifest : t ∈ (s.deleteManifest repo d).tags ↔
    t ∈ s.tags ∧ ¬(t.repositoryId = repo ∧ t.manifestDigest = d) := by
  simp only [deleteManifest, mem_filter, decide_eq_true_eq]

theorem mem_tags_pruneUntagged {cutoff : Time} : t ∈ (s.pruneUntagged cutoff).tags ↔
    t ∈ s.tags := by
  refine ⟨fun h => (mem_filter.mp h).1, fun ht => mem_filter.mpr ⟨ht, ?_⟩⟩
  rw [not_eq_true', any_eq_false]
  intro m hm hthis
  obtain ⟨hrepo, hdigest⟩ := of_decide_eq_true hthis
  have hloose := (mem_filter.mp hm).2
  have htag := mem_tagsForDigest ht
  simp only [loose, hrepo, hdigest, and_eq_true, List.isEmpty_iff] at hloose
  rw [hloose.1.2] at htag
  exact not_mem_nil htag

end

end Tables

/-! ## The web app's reading of the tag rules

`tag-rules.ts`: the rules of a repository with its own first, and the rule that locks a tag.
The order of the rules decides which one a message names; whether a tag is protected it does
not decide, so that both programs agree on that. -/

open Registryd (OrgId RepoId Repository TagRule TagRuleRow matchTagGlob firstRule protectedRule
  tagRulesFor)

/-! ## Flags -/

structure TagFlags where
  /-- The first immutable rule that covers the tag. -/
  immutable : Option TagRule := none
  /-- The first protected rule that covers the tag. -/
  protected_ : Option TagRule := none
deriving DecidableEq

def tagFlagsLoop (tag : String) : List TagRule → TagFlags → TagFlags
  | [], flags => flags
  | r :: rules, flags =>
    if (flags.immutable.isSome || !r.immutable) && (flags.protected_.isSome || !r.protected_) then
      tagFlagsLoop tag rules flags
    else if !matchTagGlob r.pattern tag then tagFlagsLoop tag rules flags
    else
      tagFlagsLoop tag rules
        { immutable := if r.immutable && flags.immutable.isNone then some r else flags.immutable
          protected_ :=
            if r.protected_ && flags.protected_.isNone then some r else flags.protected_ }

def tagFlags (rules : List TagRule) (tag : String) : TagFlags :=
  tagFlagsLoop tag rules {}

def protectedReason (rules : List TagRule) (tag : String) : Option String :=
  (tagFlags rules tag).protected_.map fun r =>
    "Tag \"" ++ tag ++ "\" is protected by rule \"" ++ r.pattern ++ "\" and cannot be deleted."

theorem tagFlagsLoop_protected (tag : String) (rules : List TagRule) (flags : TagFlags) :
    (tagFlagsLoop tag rules flags).protected_ = flags.protected_.or (protectedRule rules tag) := by
  induction rules generalizing flags with
  | nil => simp [tagFlagsLoop, protectedRule, firstRule]
  | cons r rules ih =>
    have hfirst : protectedRule (r :: rules) tag =
        if r.protected_ && matchTagGlob r.pattern tag then some r
        else protectedRule rules tag := by
      unfold protectedRule firstRule
      rw [find?_cons]
      split <;> simp_all
    rw [hfirst]
    unfold tagFlagsLoop
    split
    · rename_i hnothing
      -- the rule cannot change a flag any more
      rw [ih]
      simp only [and_eq_true, or_eq_true, not_eq_true'] at hnothing
      rcases hnothing.2 with hset | hr
      · obtain ⟨q, hq⟩ := Option.isSome_iff_exists.mp hset
        simp [hq]
      · simp [hr]
    · split
      · rename_i hno
        rw [ih]
        simp only [not_eq_true'] at hno
        simp [hno]
      · rename_i hmatch
        rw [ih]
        simp only [not_eq_true, not_eq_false'] at hmatch
        cases hflag : flags.protected_ with
        | none =>
          cases hr : r.protected_ with
          | false => simp
          | true => simp [hmatch]
        | some q => simp

theorem tagFlags_protected (rules : List TagRule) (tag : String) :
    (tagFlags rules tag).protected_ = protectedRule rules tag := by
  unfold tagFlags
  rw [tagFlagsLoop_protected]
  rfl

variable {rules : List TagRule} {tag : String}

theorem protectedReason_none :
    protectedReason rules tag = none ↔ protectedRule rules tag = none := by
  unfold protectedReason
  rw [tagFlags_protected, Option.map_eq_none_iff]

theorem protectedRule_none : protectedRule rules tag = none ↔
      ∀ r ∈ rules, r.protected_ = true → matchTagGlob r.pattern tag = false := by
  unfold protectedRule firstRule
  rw [find?_eq_none]
  refine forall₂_congr fun r _ => ?_
  simp

section

variable (localeCompare : String → String → Ordering)

def ruleOrder (a b : TagRule) : Bool :=
  ((compare a.repositoryId.isNone b.repositoryId.isNone).then
    (localeCompare a.pattern b.pattern)).isLE

def effectiveTagRules (s : Tables) (organizationId : OrgId) (repositoryId : RepoId) :
    List TagRule :=
  let rows := s.tagRules.filter fun r => decide (r.organizationId = organizationId) &&
    (r.rule.repositoryId.isNone || decide (r.rule.repositoryId = some repositoryId))
  (rows.map (·.rule)).mergeSort (ruleOrder localeCompare)

variable {localeCompare} {s : Tables}

variable {repo : Repository}

theorem mem_effectiveTagRules {r : TagRule} :
    r ∈ effectiveTagRules localeCompare s repo.orgId repo.id ↔ r ∈ s.rulesOf repo := by
  unfold effectiveTagRules Tables.rulesOf tagRulesFor
  rw [mem_mergeSort]
  simp only [mem_map, mem_filter, mem_append, and_eq_true, or_eq_true,
    decide_eq_true_eq, Option.isNone_iff_eq_none]
  constructor
  · rintro ⟨row, ⟨hrow, horg, hnone | hthis⟩, rfl⟩
    · exact .inr ⟨⟨row, ⟨hrow, horg⟩, rfl⟩, hnone⟩
    · exact .inl ⟨⟨row, ⟨hrow, horg⟩, rfl⟩, hthis⟩
  · rintro (⟨⟨row, ⟨hrow, horg⟩, rfl⟩, hthis⟩ | ⟨⟨row, ⟨hrow, horg⟩, rfl⟩, hnone⟩)
    · exact ⟨row, ⟨hrow, horg, .inr hthis⟩, rfl⟩
    · exact ⟨row, ⟨hrow, horg, .inl hnone⟩, rfl⟩

/-- **One reading of the rules**: the web app takes a tag for protected exactly when
registryd does. -/
theorem effectiveTagRules_protected :
    protectedRule (effectiveTagRules localeCompare s repo.orgId repo.id) tag = none ↔
      protectedRule (s.rulesOf repo) tag = none := by
  rw [protectedRule_none, protectedRule_none]
  exact forall_congr' fun r => by rw [mem_effectiveTagRules]

end

end Chicoree.Images
