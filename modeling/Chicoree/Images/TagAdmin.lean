import Chicoree.Lib.Doubles
import Chicoree.Images.Tables

/-! # Manifest requests to registryd

Pushes and deletes of manifests, from a client or from the web app, statement by statement.
A transaction is one statement; a statement may fail at any time. -/

namespace Chicoree.Images

open Option
open Registryd (Digest RepoId OrgId Time Repository Visibility checkImmutable checkTagDeletable
  checkManifestDeletable)

/-! ## Requests -/

/-- What a push brings: the digest of its payload, its subject, and what it names. -/
structure PushedManifest where
  digest : Digest
  subject : Option Digest := none
  refs : List Digest := []
deriving DecidableEq

inductive RegistryRequest where
  /-- `PUT` under a tag, or under the digest alone. -/
  | put (tag : Option String) (m : PushedManifest)
  | deleteTag (tag : String)
  | deleteManifest (d : Digest)
deriving DecidableEq

/-- A manifest that an image copy pushes, under a tag of its own or by digest. -/
structure PlannedManifest where
  manifest : PushedManifest
  tag : Option String := none
deriving DecidableEq

/-- A scope above its storage limit whose grace period is over. -/
structure Breach where
  repositoryIds : List RepoId
  limitBytes : Nat
deriving DecidableEq

/-- How a statement or a call turns out, with what it brings from outside. -/
inductive Reply where
  | ok
  /-- The statement or the call failed. -/
  | failed
  /-- The caller's role does not allow it. -/
  | denied
  /-- Of the queries that were sent together, this one is answered. -/
  | query (n : Nat)
  /-- The repository is created, under this identifier. -/
  | created (id : RepoId) (visibility : Visibility)
  /-- When these images were built. -/
  | built (dates : List (Digest × Time))
  | copyPlan (manifests : List PlannedManifest)
  | breaches (due : List Breach)
deriving DecidableEq

/-- Where a request stands, with what it has read. -/
inductive RegistryCall where
  | resolve (orgSlug name : String) (request : RegistryRequest)
  | checkTagImmutable (r : Repository) (tag : String) (m : PushedManifest)
  | upsertManifest (r : Repository) (tag : Option String) (m : PushedManifest)
  | upsertTagGuarded (r : Repository) (tag : String) (d : Digest)
  | checkTagDeletable (r : Repository) (tag : String)
  | resolveTag (r : Repository) (tag : String)
  | deleteTag (r : Repository) (tag : String)
  | checkManifestDeletable (r : Repository) (d : Digest)
  | tagsForManifest (r : Repository) (d : Digest)
  | deleteManifest (r : Repository) (d : Digest)
  | answered (status : Nat) (message : String)
deriving DecidableEq

def RegistryCall.isAnswered : RegistryCall → Bool
  | .answered _ _ => true
  | _ => false

def RegistryRequest.start (r : Repository) : RegistryRequest → RegistryCall
  | .put (some tag) m => .checkTagImmutable r tag m
  | .put none m => .upsertManifest r none m
  | .deleteTag tag => .checkTagDeletable r tag
  | .deleteManifest d => .checkManifestDeletable r d

def Tables.storedManifest (s : Tables) (repo : RepoId) (d : Digest) : Option PushedManifest :=
  (s.manifests.find? fun m => decide (m.repositoryId = repo ∧ m.digest = d)).map fun m =>
    { digest := d
      subject := m.subjectDigest
      refs := (s.manifestRefs.filter
        fun r => decide (r.repositoryId = repo ∧ r.manifestDigest = d)).map (·.refDigest) }

/-! ## Handlers -/

def resolveRepository (s : Tables) (orgSlug name : String) (request : RegistryRequest)
    (a : Reply) : Option (Tables × RegistryCall) :=
  match s.getRepository orgSlug name with
  | some r => some (s, request.start r)
  | none =>
    match request, Table.find Registryd.Organization.slug orgSlug s.organizations, a with
    | .put _ _, some o, .created id visibility =>
      let r : Repository := ⟨id, o.id, name, visibility⟩
      (s.createRepository r).map fun s' => (s', request.start r)
    | _, _, _ => some (s, .answered 404 "repository not found")

/-- `UpsertTagGuarded`: check again, and point the tag at the manifest. -/
def upsertTagGuarded (s : Tables) (r : Repository) (tag : String) (d : Digest) :
    Tables × RegistryCall :=
  match checkImmutable (s.rulesOf r) tag (s.resolveTag r.id tag) d with
  | .error e => (s, .answered 403 e.message)
  | .ok () =>
    if s.manifestExists r.id d then (s.writeTag r.id tag d, .answered 201 "")
    else (s, .answered 500 "internal error")

/-- One statement of `handleManifestPut` or `handleManifestDelete`. -/
def registryAct (s : Tables) (c : RegistryCall) (a : Reply) : Option (Tables × RegistryCall) :=
  match c with
  | .answered _ _ => none
  | .resolve orgSlug name request =>
    if a = .failed then some (s, .answered 500 "internal error")
    else resolveRepository s orgSlug name request a
  | .checkTagImmutable r tag m =>
    if a = .failed then some (s, .answered 500 "internal error")
    else
      match checkImmutable (s.rulesOf r) tag (s.resolveTag r.id tag) m.digest with
      | .error e => some (s, .answered 403 e.message)
      | .ok () => some (s, .upsertManifest r (some tag) m)
  | .upsertManifest r tag m =>
    -- the manifest's foreign key names the repository
    if a = .failed ∨ (s.findRepository r.id).isNone then
      some (s, .answered 500 "internal error")
    else
      match tag with
      | some tag =>
        some (s.upsertManifest r.id m.digest m.subject m.refs, .upsertTagGuarded r tag m.digest)
      | none => some (s.upsertManifest r.id m.digest m.subject m.refs, .answered 201 "")
  | .upsertTagGuarded r tag d =>
    if a = .failed then some (s, .answered 500 "internal error")
    else some (upsertTagGuarded s r tag d)
  | .checkTagDeletable r tag =>
    if a = .failed then some (s, .answered 500 "internal error")
    else
      match checkTagDeletable (s.rulesOf r) tag with
      | .error e => some (s, .answered 403 e.message)
      | .ok () => some (s, .resolveTag r tag)
  -- the digest is for the event: a failure is ignored
  | .resolveTag r tag => some (s, .deleteTag r tag)
  | .deleteTag r tag =>
    if a = .failed then some (s, .answered 500 "internal error")
    else if (s.findTag r.id tag).isNone then some (s, .answered 404 "tag unknown")
    else some (s.deleteTag r.id tag, .answered 202 "")
  | .checkManifestDeletable r d =>
    if a = .failed then some (s, .answered 500 "internal error")
    else
      match checkManifestDeletable (s.rulesOf r) d (s.tagsForDigest r.id d) with
      | .error e => some (s, .answered 403 e.message)
      | .ok () => some (s, .tagsForManifest r d)
  | .tagsForManifest r d => some (s, .deleteManifest r d)
  | .deleteManifest r d =>
    if a = .failed then some (s, .answered 500 "internal error")
    else if s.manifestExists r.id d then some (s.deleteManifest r.id d, .answered 202 "")
    else some (s, .answered 404 "manifest unknown")

inductive RegistryStep (s : Tables) (a : Reply) :
    RegistryCall → Tables → RegistryCall → Prop
  | refused {c : RegistryCall} {status : Nat} {message : String}
      (other : status ≠ 201 ∧ status ≠ 202 ∧ status ≠ 404) :
      RegistryStep s a c s (.answered status message)
  | unknown {orgSlug name message : String} {request : RegistryRequest}
      (row : s.getRepository orgSlug name = none) :
      RegistryStep s a (.resolve orgSlug name request) s (.answered 404 message)
  | resolved {orgSlug name : String} {request : RegistryRequest} {r : Repository}
      (row : s.getRepository orgSlug name = some r) :
      RegistryStep s a (.resolve orgSlug name request) s (request.start r)
  | created {orgSlug name : String} {request : RegistryRequest} {r : Repository} {s' : Tables}
      (row : s.getRepository orgSlug name = none) (create : s.createRepository r = some s') :
      RegistryStep s a (.resolve orgSlug name request) s' (request.start r)
  | mutable {r : Repository} {tag : String} {m : PushedManifest} :
      RegistryStep s a (.checkTagImmutable r tag m) s (.upsertManifest r (some tag) m)
  | manifest {r : Repository} {tag : String} {m : PushedManifest} :
      RegistryStep s a (.upsertManifest r (some tag) m)
        (s.upsertManifest r.id m.digest m.subject m.refs) (.upsertTagGuarded r tag m.digest)
  | untagged {r : Repository} {m : PushedManifest} : RegistryStep s a (.upsertManifest r none m)
      (s.upsertManifest r.id m.digest m.subject m.refs) (.answered 201 "")
  | tagged {r : Repository} {tag : String} {d : Digest} (ran : a ≠ .failed)
      (ok : checkImmutable (s.rulesOf r) tag (s.resolveTag r.id tag) d = .ok ())
      (row : s.manifestExists r.id d = true) :
      RegistryStep s a (.upsertTagGuarded r tag d) (s.writeTag r.id tag d) (.answered 201 "")
  | deletable {r : Repository} {tag : String}
      (ok : checkTagDeletable (s.rulesOf r) tag = .ok ()) :
      RegistryStep s a (.checkTagDeletable r tag) s (.resolveTag r tag)
  | tagResolved {r : Repository} {tag : String} :
      RegistryStep s a (.resolveTag r tag) s (.deleteTag r tag)
  | tagUnknown {r : Repository} {tag message : String} (row : s.findTag r.id tag = none) :
      RegistryStep s a (.deleteTag r tag) s (.answered 404 message)
  | tagDeleted {r : Repository} {tag : String} (row : (s.findTag r.id tag).isSome = true) :
      RegistryStep s a (.deleteTag r tag) (s.deleteTag r.id tag) (.answered 202 "")
  | manifestDeletable {r : Repository} {d : Digest}
      (ok : checkManifestDeletable (s.rulesOf r) d (s.tagsForDigest r.id d) = .ok ()) :
      RegistryStep s a (.checkManifestDeletable r d) s (.tagsForManifest r d)
  | tagsFound {r : Repository} {d : Digest} :
      RegistryStep s a (.tagsForManifest r d) s (.deleteManifest r d)
  | manifestDeleted {r : Repository} {d : Digest} :
      RegistryStep s a (.deleteManifest r d) (s.deleteManifest r.id d) (.answered 202 "")
  | manifestUnknown {r : Repository} {d : Digest} {message : String} :
      RegistryStep s a (.deleteManifest r d) s (.answered 404 message)

theorem registryAct_step {s s' : Tables} {a : Reply} {c c' : RegistryCall}
    (h : registryAct s c a = some (s', c')) : RegistryStep s a c s' c' := by
  have hfailed {c : RegistryCall} {message : String} :
      RegistryStep s a c s (.answered 500 message) := .refused (by decide)
  have hrefused {c : RegistryCall} {message : String} :
      RegistryStep s a c s (.answered 403 message) := .refused (by decide)
  cases c <;> simp only [registryAct] at h
  case resolve orgSlug name request =>
    split at h
    · cases h
      exact hfailed
    · unfold resolveRepository at h
      split at h
      · cases h
        exact .resolved ‹_›
      · rename_i hnone
        split at h
        · obtain ⟨s₁, hrow, hout⟩ := map_eq_some_iff.mp h
          cases hout
          exact .created hnone hrow
        · cases h
          exact .unknown hnone
  case checkTagImmutable r tag m =>
    split at h
    · cases h
      exact hfailed
    · split at h <;> cases h <;> [exact hrefused; exact .mutable]
  case upsertManifest r tag m =>
    split at h
    · cases h
      exact hfailed
    · split at h <;> cases h <;> [exact .manifest; exact .untagged]
  case upsertTagGuarded r tag d =>
    split at h
    · cases h
      exact hfailed
    · rename_i hran
      unfold Images.upsertTagGuarded at h
      split at h
      · cases h
        exact hrefused
      · rename_i hok
        split at h <;> cases h
        · exact .tagged hran hok ‹_›
        · exact hfailed
  case checkTagDeletable r tag =>
    split at h
    · cases h
      exact hfailed
    · split at h <;> cases h <;> [exact hrefused; exact .deletable ‹_›]
  case resolveTag r tag =>
    cases h
    exact .tagResolved
  case deleteTag r tag =>
    split at h
    · cases h
      exact hfailed
    · split at h <;> cases h
      · exact .tagUnknown (isNone_iff_eq_none.mp ‹_›)
      · rename_i hthere
        exact .tagDeleted (by simpa [isSome_iff_ne_none] using hthere)
  case checkManifestDeletable r d =>
    split at h
    · cases h
      exact hfailed
    · split at h <;> cases h <;> [exact hrefused; exact .manifestDeletable ‹_›]
  case tagsForManifest r d =>
    cases h
    exact .tagsFound
  case deleteManifest r d =>
    split at h
    · cases h
      exact hfailed
    · split at h <;> cases h <;> [exact .manifestDeleted; exact .manifestUnknown]
  case answered => cases h

/-! ## Deleting a tag or an image

`tag-admin.ts` and `manifests.ts`: what the web app reads and checks before it sends a delete
to registryd, and `latest`, which follows the newest remaining image. -/

open Registryd (Digest RepoId OrgId Time Repository Organization TagRule)
open Doubles (Whole)

def takeNumber (cs : List Char) : Option (Nat × List Char) :=
  match cs.takeWhile Char.isDigit with
  | [] => none
  | ds => some (ds.foldl (fun n c => 10 * n + (c.toNat - 48)) 0, cs.drop ds.length)

def takePart : List Char → Option (Nat × List Char)
  | '.' :: cs => takeNumber cs
  | _ => none

def endsVersion : List Char → Option Bool
  | [] => some false
  | c :: _ => if c = '-' ∨ c = '+' ∨ c = '.' then some true else none

/-- The parts of a version tag, and whether it is a plain release. The parts are taken while
what follows them ends a version. -/
def versionParts (tag : String) : Option (List Nat) :=
  let cs := match tag.toList with
    | 'v' :: cs => cs
    | cs => cs
  let key (parts : List Nat) (rest : List Char) : Option (List Nat) :=
    (endsVersion rest).map fun suffix => parts ++ [if suffix then 0 else 1]
  match takeNumber cs with
  | none => none
  | some (major, r₁) =>
    match takePart r₁ with
    | none => key [major, 0, 0] r₁
    | some (minor, r₂) =>
      match (takePart r₂).bind (fun p => key [major, minor, p.1] p.2) with
      | some k => some k
      | none => (key [major, minor, 0] r₂).or (key [major, 0, 0] r₁)

/-- `versionKey`: `Number` of each part. -/
def versionKey (tag : String) : Option (List Whole) :=
  (versionParts tag).map fun parts => parts.map fun n => Whole.ofInt n

/-- `cmp(a, b) >= 0`: the first difference that is not zero is above it, or there is none.
Infinity less infinity is no number, so it is neither. -/
def keyAtLeast : List Whole → List Whole → Bool
  | .whole m :: as, .whole n :: bs => if m = n then keyAtLeast as bs else decide (n < m)
  | .infinity :: _, .whole _ :: _ => true
  | _ :: _, _ :: _ => false
  | _, _ => true

def lastBest {α : Type} (atLeast : α → α → Bool) : Option α → List α → Option α
  | best, [] => best
  | none, x :: xs => lastBest atLeast (some x) xs
  | some b, x :: xs => lastBest atLeast (some (if atLeast x b then x else b)) xs

/-- `pickNewest`: the highest version where a tag is one, else the image built last, as far
as the last hundred tell. -/
def pickNewest (candidates : List TagRow) (built : List (Digest × Time)) : Option TagRow :=
  let versioned := candidates.filterMap fun t => (versionKey t.name).map fun k => (t, k)
  if versioned.isEmpty then
    let recent := candidates.drop (candidates.length - 100)
    let dated := recent.map fun t => (t, (built.lookup t.manifestDigest).getD 0)
    (lastBest (fun x b => decide (b.2 ≤ x.2)) none dated).map (·.1)
  else (lastBest (fun x b => keyAtLeast x.2 b.2) none versioned).map (·.1)

/-! ## deleteTag -/

structure TagRemoval where
  repositoryId : RepoId
  tagName : String
  /-- Re-point `latest` where it named the deleted image. -/
  moveLatest : Bool := true
deriving DecidableEq

inductive Latest where
  | moved
  | removed
  | unchanged
deriving DecidableEq

structure DeleteTagOutcome where
  deleted : String
  latest : Latest
  latestTarget : Option String := none
deriving DecidableEq

/-- The three queries that are sent together, as far as they are answered. -/
structure TagQueries where
  target : Option (Option TagRow) := none
  latest : Option (Option TagRow) := none
  rules : Option (List TagRule) := none
deriving DecidableEq

/-- What `deleteTag` has read before it deletes. -/
structure TagContext where
  repository : Repository
  orgSlug : String
  target : TagRow
  latest : Option TagRow
  rules : List TagRule
deriving DecidableEq

inductive TagAdminPc where
  | repository
  | organization (r : Repository)
  | load (r : Repository) (orgSlug : String) (q : TagQueries)
  | registryDelete (k : TagContext) (call : RegistryCall)
  | remaining (k : TagContext)
  | deleteLatest (k : TagContext) (call : RegistryCall)
  | pickNewest (k : TagContext) (remaining : List TagRow)
  | fetchManifest (k : TagContext) (pick : TagRow)
  | putLatest (k : TagContext) (pick : TagRow) (call : RegistryCall)
  | done (result : Except String DeleteTagOutcome)
deriving DecidableEq

section

variable (localeCompare : String → String → Ordering)

def TagQueries.answer (q : TagQueries) (s : Tables) (r : Repository) (tagName : String) :
    Nat → TagQueries
  | 0 => { q with target := some (s.findTag r.id tagName) }
  | 1 => { q with latest := some (s.findTag r.id "latest") }
  | _ => { q with rules := some (effectiveTagRules localeCompare s r.orgId r.id) }

def TagRemoval.check (a : TagRemoval) (r : Repository) (orgSlug : String)
    (target latest : Option TagRow) (rules : List TagRule) : TagAdminPc :=
  match target with
  | none => .done (.error ("Tag \"" ++ a.tagName ++ "\" does not exist."))
  | some target =>
    match protectedReason rules a.tagName with
    | some blocked => .done (.error blocked)
    | none => .registryDelete ⟨r, orgSlug, target, latest, rules⟩
        (.resolve orgSlug r.name (.deleteTag a.tagName))

def TagRemoval.deleted (a : TagRemoval) (k : TagContext) (status : Nat) (message : String) :
    TagAdminPc :=
  if status = 404 then .done (.error ("Tag \"" ++ a.tagName ++ "\" does not exist."))
  else if status = 403 then .done (.error ("The registry refused: " ++ message))
  else if status ≠ 202 then
    .done (.error ("The registry refused to delete the tag (HTTP " ++ toString status ++ ")."))
  -- `latest` needs attention when it pointed at the image that was just untagged
  else if a.moveLatest = false ∨ a.tagName = "latest" ∨
      k.latest.map (·.manifestDigest) ≠ some k.target.manifestDigest then
    .done (.ok ⟨a.tagName, .unchanged, none⟩)
  else if (tagFlags k.rules "latest").immutable.isSome ∨
      (tagFlags k.rules "latest").protected_.isSome then
    .done (.ok ⟨a.tagName, .unchanged, none⟩)
  else .remaining k

def TagRemoval.latestDeleted (a : TagRemoval) (status : Nat) (message : String) : TagAdminPc :=
  if status = 403 then
    .done (.error ("Deleted " ++ a.tagName ++ ", but \"latest\" stays: " ++ message))
  else if status ≠ 202 ∧ status ≠ 404 then
    .done (.error ("Deleted " ++ a.tagName ++ ", but \"latest\" could not be removed (HTTP " ++
      toString status ++ ")."))
  else .done (.ok ⟨a.tagName, .removed, none⟩)

/-- Where `latest` goes, once the dates of the remaining images are known. -/
def TagRemoval.follow (a : TagRemoval) (k : TagContext) (remaining : List TagRow)
    (built : List (Digest × Time)) : TagAdminPc :=
  match Images.pickNewest remaining built with
  | none => .done (.ok ⟨a.tagName, .unchanged, none⟩)
  | some pick =>
    -- another tag still names the same image
    if k.latest.map (·.manifestDigest) = some pick.manifestDigest then
      .done (.ok ⟨a.tagName, .unchanged, none⟩)
    else .fetchManifest k pick

/-- One statement of `deleteTag`, or one of registryd on its behalf. -/
def tagAdminAct (s : Tables) (a : TagRemoval) (pc : TagAdminPc) (reply : Reply) :
    Option (Tables × TagAdminPc) :=
  match pc with
  | .done _ => none
  | .repository =>
    if reply = .failed then some (s, .done (.error "Could not delete the tag."))
    else
      match s.findRepository a.repositoryId with
      | none => some (s, .done (.error "Repository not found."))
      | some r => some (s, .organization r)
  | .organization r =>
    if reply = .failed then some (s, .done (.error "Could not delete the tag."))
    else
      match s.findOrganization r.orgId with
      | none => some (s, .done (.error "Organization not found."))
      | some o => some (s, .load r o.slug {})
  | .load r orgSlug q =>
    match reply with
    | .query n => some (s, .load r orgSlug (q.answer localeCompare s r a.tagName n))
    | .ok =>
      match q.target, q.latest, q.rules with
      | some target, some latest, some rules =>
        some (s, a.check r orgSlug target latest rules)
      | _, _, _ => none
    | .failed => some (s, .done (.error "Could not delete the tag."))
    | _ => none
  | .registryDelete k (.answered status message) => some (s, a.deleted k status message)
  | .registryDelete k call =>
    (registryAct s call reply).map fun out => (out.1, .registryDelete k out.2)
  | .remaining k =>
    if reply = .failed then some (s, .done (.error "Could not delete the tag."))
    else
      let remaining := (s.repositoryTags k.repository.id).filter
        fun t => decide (t.name ≠ a.tagName ∧ t.name ≠ "latest")
      if remaining.isEmpty then
        some (s, .deleteLatest k
          (.resolve k.orgSlug k.repository.name (.deleteTag "latest")))
      else some (s, .pickNewest k remaining)
  | .deleteLatest _ (.answered status message) => some (s, a.latestDeleted status message)
  | .deleteLatest k call =>
    (registryAct s call reply).map fun out => (out.1, .deleteLatest k out.2)
  | .pickNewest k remaining =>
    match reply with
    | .built dates => some (s, a.follow k remaining dates)
    | .failed => some (s, .done (.error "Could not delete the tag."))
    | _ => none
  | .fetchManifest k pick =>
    match s.storedManifest k.repository.id pick.manifestDigest, reply with
    | some m, .ok => some (s, .putLatest k pick
        (.resolve k.orgSlug k.repository.name (.put (some "latest") m)))
    | _, _ => some (s, .done (.error ("Deleted " ++ a.tagName ++ ", but the image for \"" ++
        pick.name ++ "\" could not be read to move latest.")))
  | .putLatest _ pick (.answered status _) =>
    if status ≠ 201 then
      some (s, .done (.error ("Deleted " ++ a.tagName ++ ", but moving latest failed (HTTP " ++
        toString status ++ ").")))
    else some (s, .done (.ok ⟨a.tagName, .moved, some pick.name⟩))
  | .putLatest k pick call =>
    (registryAct s call reply).map fun out => (out.1, .putLatest k pick out.2)

/-- The three queries of `manifestDeleteBlocker`, as far as they are answered. -/
structure BlockerQueries where
  parents : Option (List Digest) := none
  tags : Option (List String) := none
  rules : Option (List TagRule) := none

inductive ManifestPc where
  | repository
  | organization (r : Repository)
  | «exists» (r : Repository) (orgSlug : String)
  | blocker (r : Repository) (orgSlug : String) (q : BlockerQueries)
  | registryDelete (tags : List String) (call : RegistryCall)
  /-- Deleted, with the tags that were seen on it. -/
  | done (result : Except String (List String))

def BlockerQueries.answer (q : BlockerQueries) (s : Tables) (r : Repository) (d : Digest) :
    Nat → BlockerQueries
  | 0 => { q with parents := some (s.indexMemberships r.id d) }
  | 1 => { q with tags := some (s.tagsForDigest r.id d) }
  | _ => { q with rules := some (effectiveTagRules localeCompare s r.orgId r.id) }

/-- The tags of the indexes that list a manifest, as `describeIndexChild` names them; the
platform it also names is read from a payload. -/
def describeIndexChild (s : Tables) (repo : RepoId) (parents : List Digest) : String :=
  let parentTags := (parents.flatMap fun p => s.tagsForDigest repo p).eraseDups
  let holder :=
    if parentTags.isEmpty then "a multi-arch index that still exists"
    else "the multi-arch index tagged " ++
      String.intercalate ", " (parentTags.map fun t => "\"" ++ t ++ "\"")
  "The platform variant of " ++ holder ++
    ". It cannot be deleted on its own — delete the index or its tags instead."

/-- `manifestDeleteBlocker`: why the manifest cannot be deleted right now. -/
def manifestDeleteBlocker (s : Tables) (repo : RepoId) (parents : List Digest)
    (tags : List String) (rules : List TagRule) : Option String :=
  if parents.isEmpty then
    (tags.findSome? (protectedReason rules)).map
      (· ++ " The image cannot be deleted while it carries that tag.")
  else some (describeIndexChild s repo parents)

def manifestDeleted (tags : List String) (status : Nat) (message : String) : ManifestPc :=
  if status = 404 then .done (.error "This image does not exist (anymore).")
  else if status = 403 then .done (.error ("The registry refused: " ++ message))
  else if status ≠ 202 then
    .done (.error ("The registry refused to delete the image (HTTP " ++ toString status ++ ")."))
  else .done (.ok tags)

/-- One statement of `deleteManifestByDigest`, or one of registryd on its behalf. -/
def manifestAct (s : Tables) (repositoryId : RepoId) (d : Digest) (pc : ManifestPc)
    (reply : Reply) : Option (Tables × ManifestPc) :=
  match pc with
  | .done _ => none
  | .repository =>
    if reply = .failed then some (s, .done (.error "Could not delete the image."))
    else
      match s.findRepository repositoryId with
      | none => some (s, .done (.error "Repository not found."))
      | some r => some (s, .organization r)
  | .organization r =>
    if reply = .failed then some (s, .done (.error "Could not delete the image."))
    else
      match s.findOrganization r.orgId with
      | none => some (s, .done (.error "Organization not found."))
      | some o => some (s, .«exists» r o.slug)
  | .«exists» r orgSlug =>
    if reply = .failed then some (s, .done (.error "Could not delete the image."))
    else if s.manifestExists r.id d then some (s, .blocker r orgSlug {})
    else some (s, .done (.error "This image does not exist (anymore)."))
  | .blocker r orgSlug q =>
    match reply with
    | .query n => some (s, .blocker r orgSlug (q.answer localeCompare s r d n))
    | .ok =>
      match q.parents, q.tags, q.rules with
      | some parents, some tags, some rules =>
        match manifestDeleteBlocker s r.id parents tags rules with
        | some reason => some (s, .done (.error reason))
        | none => some (s, .registryDelete tags
            (.resolve orgSlug r.name (.deleteManifest d)))
      | _, _, _ => none
    | .failed => some (s, .done (.error "Could not delete the image."))
    | _ => none
  | .registryDelete tags (.answered status message) =>
    some (s, manifestDeleted tags status message)
  | .registryDelete tags call =>
    (registryAct s call reply).map fun out => (out.1, .registryDelete tags out.2)

end

end Chicoree.Images
