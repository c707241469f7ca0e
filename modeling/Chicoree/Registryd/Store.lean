import Chicoree.Lib.Table

/-! # The content tables and their transactions

The tables registryd reads and writes for its content (`store.go`), with each SQL
transaction as one function on them. A table is the list of its rows; columns no
modelled statement reads are left out. -/

namespace Chicoree.Registryd

abbrev Digest := String
abbrev RepoId := String
abbrev OrgId := String

/-- Points in time, in the database's clock. -/
abbrev Time := Int

inductive Visibility where
  | «public»
  | «private»
deriving DecidableEq

/-! ## Rows -/

structure Organization where
  id : OrgId
  slug : String
deriving DecidableEq

structure Repository where
  id : RepoId
  orgId : OrgId
  name : String
  visibility : Visibility
deriving DecidableEq

structure Blob where
  digest : Digest
  size : Nat
  createdAt : Time
deriving DecidableEq

/-- A row of `repository_blobs`: the link through which a repository serves a
blob. -/
structure RepositoryBlob where
  repositoryId : RepoId
  blobDigest : Digest
  createdAt : Time
deriving DecidableEq

/-- A row of `manifest_refs`: a config, layer or child a manifest names. -/
structure ManifestRef where
  repositoryId : RepoId
  manifestDigest : Digest
  refDigest : Digest
deriving DecidableEq

structure Db where
  organizations : List Organization := []
  repositories : List Repository := []
  blobs : List Blob := []
  repositoryBlobs : List RepositoryBlob := []
  manifestRefs : List ManifestRef := []
deriving DecidableEq

namespace Db

def orgIdBySlug (db : Db) (slug : String) : Option OrgId :=
  (Table.find Organization.slug slug db.organizations).map (·.id)

def getRepository (db : Db) (orgSlug name : String) : Option Repository :=
  match db.orgIdBySlug orgSlug with
  | none => none
  | some o => Table.find (fun r : Repository => (r.orgId, r.name)) (o, name) db.repositories

/-- The transaction of `EnsureRepository`: insert the repository under a fresh
identifier, or answer the one that took the name in the meantime. -/
def ensureRepository (db : Db) (orgId : OrgId) (name : String)
    (visibility : Visibility) (fresh : RepoId) : Db × Repository :=
  match Table.find (fun r : Repository => (r.orgId, r.name)) (orgId, name)
      db.repositories with
  | some r => (db, r)
  | none =>
    let r : Repository := ⟨fresh, orgId, name, visibility⟩
    ({ db with repositories := db.repositories ++ [r] }, r)

/-! ## Blobs -/

/-- Whether a repository of the organization already holds the blob. -/
def orgHasBlob (db : Db) (orgId : OrgId) (d : Digest) : Bool :=
  db.repositoryBlobs.any fun l => decide (l.blobDigest = d) &&
    db.repositories.any fun r => decide (r.id = l.repositoryId ∧ r.orgId = orgId)

def blobManifestRefs (db : Db) (repo : RepoId) (d : Digest) : Nat :=
  db.manifestRefs.countP fun m => decide (m.repositoryId = repo ∧ m.refDigest = d)

def insertBlob (db : Db) (d : Digest) (size : Nat) (now : Time) : Db :=
  { db with blobs := Table.insertNew Blob.digest ⟨d, size, now⟩ db.blobs }

/-- `LinkBlob`: the insert into `repository_blobs`. -/
def linkBlob (db : Db) (repo : RepoId) (d : Digest) (now : Time) : Db :=
  let links := Table.insertNew (fun l : RepositoryBlob => (l.repositoryId, l.blobDigest))
    ⟨repo, d, now⟩ db.repositoryBlobs
  { db with repositoryBlobs := links }

/-- `UpsertBlob`: record the blob and link it, in one transaction. The link's
foreign key fails the transaction when the repository is gone. -/
def upsertBlob (db : Db) (repo : RepoId) (d : Digest) (size : Nat) (now : Time) : Option Db :=
  if db.repositories.any (fun r => decide (r.id = repo)) then
    some ((db.insertBlob d size now).linkBlob repo d now)
  else none

/-- `UnlinkBlob`: drop the repository's link and, when it was the last one
anywhere, the blob row. Answers how many links remain; `none` where there was no
link to drop. -/
def unlinkBlob (db : Db) (repo : RepoId) (d : Digest) : Option (Db × Nat) :=
  if db.repositoryBlobs.any (fun l => decide (l.repositoryId = repo ∧ l.blobDigest = d)) then
    let links := db.repositoryBlobs.filter
      fun l => decide (¬(l.repositoryId = repo ∧ l.blobDigest = d))
    let remaining := links.countP fun l => decide (l.blobDigest = d)
    let blobs := if remaining = 0 then db.blobs.filter fun b => decide (b.digest ≠ d)
      else db.blobs
    some ({ db with repositoryBlobs := links, blobs := blobs }, remaining)
  else none

/-- First statement of `CollectGarbage`: drop the links older than the cutoff
that no manifest of their repository names. -/
def unlinkGarbage (db : Db) (cutoff : Time) : Db :=
  let links := db.repositoryBlobs.filter fun l =>
    !(decide (l.createdAt < cutoff) &&
      decide (db.blobManifestRefs l.repositoryId l.blobDigest = 0))
  { db with repositoryBlobs := links }

/-- Whether the second statement of `CollectGarbage` deletes a blob row. -/
def orphaned (db : Db) (cutoff : Time) (b : Blob) : Bool :=
  decide (b.createdAt < cutoff) &&
    !db.repositoryBlobs.any fun l => decide (l.blobDigest = b.digest)

/-- Second statement of `CollectGarbage`: delete the blob rows older than the
cutoff that no repository links, and answer their digests. -/
def deleteOrphans (db : Db) (cutoff : Time) : Db × List Digest :=
  ({ db with blobs := db.blobs.filter fun b => !db.orphaned cutoff b },
    (db.blobs.filter (db.orphaned cutoff)).map (·.digest))

/-! ## Which blob rows a transaction leaves -/

@[simp] theorem ensureRepository_blobs (db : Db) (o : OrgId) (n : String)
    (v : Visibility) (fresh : RepoId) :
    (db.ensureRepository o n v fresh).1.blobs = db.blobs := by
  unfold ensureRepository
  split <;> rfl

variable {db db' : Db} {repo : RepoId} {d : Digest} {b : Blob}

theorem mem_blobs_upsertBlob {size : Nat}
    {now : Time} (h : db.upsertBlob repo d size now = some db')
    (hb : b ∈ db'.blobs) : b ∈ db.blobs ∨ b.digest = d := by
  unfold upsertBlob at h
  split at h
  · cases h
    have hb : b ∈ Table.insertNew Blob.digest ⟨d, size, now⟩ db.blobs := hb
    rcases Table.mem_of_mem_insertNew hb with hb | hb
    · exact .inl hb
    · exact .inr (by rw [hb])
  · contradiction

theorem mem_blobs_unlinkBlob {n : Nat}
    (h : db.unlinkBlob repo d = some (db', n)) (hb : b ∈ db'.blobs) :
    b ∈ db.blobs := by
  unfold unlinkBlob at h
  split at h
  · obtain ⟨rfl, -⟩ := h
    split at hb
    · exact (List.mem_filter.mp hb).1
    · exact hb
  · contradiction

theorem mem_blobs_deleteOrphans {cutoff : Time}
    (hb : b ∈ (db.deleteOrphans cutoff).1.blobs) : b ∈ db.blobs :=
  (List.mem_filter.mp hb).1

end Db

/-! ## Resolving the repository of a write

`resolveRepoForWrite`, one database call at a time: the repository under its
current name with the storage check for content new to the organization, or, on a
first push, the checks a new repository has to pass and its creation. The answers
of the calls that read other tables (quotas, redirects, default visibility) are
part of the step's label. -/

/-- How one call to the database or the storage driver turned out. -/
inductive Answer where
  /-- The call succeeded; a check it makes passed. -/
  | ok
  /-- A quota check refused, or the name is a former name. -/
  | refused
  /-- The visibility a new repository gets. -/
  | visibility (v : Visibility)
  /-- The transaction committed under a generated identifier; `acked` is false
  where the acknowledgement was lost. -/
  | fresh (id : RepoId) (acked : Bool)
  /-- An error without effect. -/
  | failed
  /-- The call took effect, but its caller saw an error. -/
  | lost
deriving DecidableEq

/-- Where `resolveRepoForWrite` stands: the call it makes next. -/
inductive ResolvePc where
  | getRepository
  | orgHasBlob (repo : Repository)
  | storageQuota (repo : Repository)
  | moved
  | orgIdBySlug
  | defaultVisibility (orgId : OrgId)
  | repositoryQuota (orgId : OrgId) (v : Visibility)
  | newOrgHasBlob (orgId : OrgId) (v : Visibility)
  | newStorageQuota (orgId : OrgId) (v : Visibility)
  | ensureGet (v : Visibility)
  | ensureOrgId (v : Visibility)
  | ensureInsert (orgId : OrgId) (v : Visibility)
deriving DecidableEq

inductive Resolved where
  | more (pc : ResolvePc)
  | repo (r : Repository)
  | answered (status : Nat)

/-- The calls of `resolveRepoForWrite` that only read. -/
def resolveRead (db : Db) (org name : String) (d : Digest) :
    ResolvePc → Answer → Option Resolved
  | _, .failed => some (.answered 500)
  | .getRepository, .ok =>
    match db.getRepository org name with
    | some r => some (.more (.orgHasBlob r))
    | none => some (.more .moved)
  | .orgHasBlob r, .ok =>
    -- only content new to the organization counts against its storage
    if db.orgHasBlob r.orgId d then some (.repo r) else some (.more (.storageQuota r))
  | .storageQuota r, .ok => some (.repo r)
  | .storageQuota _, .refused => some (.answered 403)
  | .moved, .ok => some (.more .orgIdBySlug)
  | .moved, .refused => some (.answered 403)
  | .orgIdBySlug, .ok =>
    match db.orgIdBySlug org with
    | some o => some (.more (.defaultVisibility o))
    | none => some (.answered 404)
  | .defaultVisibility o, .visibility v => some (.more (.repositoryQuota o v))
  | .repositoryQuota o v, .ok => some (.more (.newOrgHasBlob o v))
  | .repositoryQuota _ _, .refused => some (.answered 403)
  | .newOrgHasBlob o v, .ok =>
    if db.orgHasBlob o d then some (.more (.ensureGet v))
    else some (.more (.newStorageQuota o v))
  | .newStorageQuota _ v, .ok => some (.more (.ensureGet v))
  | .newStorageQuota _ _, .refused => some (.answered 403)
  | .ensureGet v, .ok =>
    match db.getRepository org name with
    | some r => some (.repo r)
    | none => some (.more (.ensureOrgId v))
  | .ensureOrgId v, .ok =>
    match db.orgIdBySlug org with
    | some o => some (.more (.ensureInsert o v))
    | none => some (.answered 500)
  | _, _ => none

def resolveInsert (db : Db) (name : String) (o : OrgId) (v : Visibility) :
    Answer → Option (Db × Resolved)
  | .fresh id acked =>
    if db.repositories.any (fun r => decide (r.id = id)) then none
    else
      let (db', r) := db.ensureRepository o name v id
      some (db', if acked then .repo r else .answered 500)
  | .failed => some (db, .answered 500)
  | _ => none

/-- One call of `resolveRepoForWrite` for the name `org/name` and a digest. -/
def resolveStep (db : Db) (org name : String) (d : Digest) (pc : ResolvePc)
    (a : Answer) : Option (Db × Resolved) :=
  match pc with
  | .ensureInsert o v => resolveInsert db name o v a
  | pc => (resolveRead db org name d pc a).map fun out => (db, out)

inductive ReadCall (db : Db) (org name : String) (d : Digest) :
    ResolvePc → Answer → Resolved → Prop
  | answered {pc : ResolvePc} {a : Answer} {status : Nat} (refused : status ≠ 201)
      (plain : a = .ok ∨ a = .refused ∨ a = .failed) :
      ReadCall db org name d pc a (.answered status)
  | known {r : Repository} (row : db.getRepository org name = some r) :
      ReadCall db org name d .getRepository .ok (.more (.orgHasBlob r))
  | unknown (row : db.getRepository org name = none) :
      ReadCall db org name d .getRepository .ok (.more .moved)
  | held {r : Repository} (held : db.orgHasBlob r.orgId d = true) :
      ReadCall db org name d (.orgHasBlob r) .ok (.repo r)
  | lacking {r : Repository} (lacking : db.orgHasBlob r.orgId d = false) :
      ReadCall db org name d (.orgHasBlob r) .ok (.more (.storageQuota r))
  | room {r : Repository} : ReadCall db org name d (.storageQuota r) .ok (.repo r)
  | stayed : ReadCall db org name d .moved .ok (.more .orgIdBySlug)
  | org {o : OrgId} (slug : db.orgIdBySlug org = some o) :
      ReadCall db org name d .orgIdBySlug .ok (.more (.defaultVisibility o))
  | visibility {o : OrgId} {v : Visibility} :
      ReadCall db org name d (.defaultVisibility o) (.visibility v) (.more (.repositoryQuota o v))
  | allowed {o : OrgId} {v : Visibility} :
      ReadCall db org name d (.repositoryQuota o v) .ok (.more (.newOrgHasBlob o v))
  | newHeld {o : OrgId} {v : Visibility} (held : db.orgHasBlob o d = true) :
      ReadCall db org name d (.newOrgHasBlob o v) .ok (.more (.ensureGet v))
  | newLacking {o : OrgId} {v : Visibility} (lacking : db.orgHasBlob o d = false) :
      ReadCall db org name d (.newOrgHasBlob o v) .ok (.more (.newStorageQuota o v))
  | newRoom {o : OrgId} {v : Visibility} :
      ReadCall db org name d (.newStorageQuota o v) .ok (.more (.ensureGet v))
  | there {v : Visibility} {r : Repository} (row : db.getRepository org name = some r) :
      ReadCall db org name d (.ensureGet v) .ok (.repo r)
  | missing {v : Visibility} (row : db.getRepository org name = none) :
      ReadCall db org name d (.ensureGet v) .ok (.more (.ensureOrgId v))
  | ensureOrg {v : Visibility} {o : OrgId} (slug : db.orgIdBySlug org = some o) :
      ReadCall db org name d (.ensureOrgId v) .ok (.more (.ensureInsert o v))

/-- What a call of `resolveRepoForWrite` does: it only reads, or it inserts the repository. -/
inductive ResolveCall (db : Db) (org name : String) (d : Digest) :
    ResolvePc → Answer → Db → Resolved → Prop
  | read {pc : ResolvePc} {a : Answer} {out : Resolved} (reads : ReadCall db org name d pc a out) :
      ResolveCall db org name d pc a db out
  | insert {o : OrgId} {v : Visibility} {id : RepoId} {acked : Bool}
      (fresh : ∀ r ∈ db.repositories, r.id ≠ id) :
      ResolveCall db org name d (.ensureInsert o v) (.fresh id acked)
        (db.ensureRepository o name v id).1
        (if acked then .repo (db.ensureRepository o name v id).2 else .answered 500)

section resolve

variable {db db' : Db} {org name : String} {d : Digest} {pc : ResolvePc} {a : Answer}
  {out : Resolved}

theorem resolveRead_call (h : resolveRead db org name d pc a = some out) :
    ReadCall db org name d pc a out := by
  cases a with
  | failed =>
    cases h
    exact .answered (by decide) (by simp)
  | fresh id acked | lost => cases pc <;> simp [resolveRead] at h
  | visibility v =>
    cases pc <;> simp only [resolveRead, reduceCtorEq, Option.some.injEq] at h
    subst h
    exact .visibility
  | refused =>
    cases pc <;> simp only [resolveRead, reduceCtorEq, Option.some.injEq] at h
    all_goals
      subst h
      exact .answered (by decide) (by simp)
  | ok =>
    cases pc <;> simp only [resolveRead, reduceCtorEq, Option.some.injEq] at h
    case getRepository => split at h <;> cases h <;> [exact .known ‹_›; exact .unknown ‹_›]
    case orgHasBlob =>
      split at h <;> cases h
      · exact .held ‹_›
      · exact .lacking (Bool.eq_false_iff.mpr ‹_›)
    case storageQuota =>
      subst h
      exact .room
    case moved =>
      subst h
      exact .stayed
    case orgIdBySlug =>
      split at h <;> cases h
      · exact .org ‹_›
      · exact .answered (by decide) (by simp)
    case repositoryQuota =>
      subst h
      exact .allowed
    case newOrgHasBlob =>
      split at h <;> cases h
      · exact .newHeld ‹_›
      · exact .newLacking (Bool.eq_false_iff.mpr ‹_›)
    case newStorageQuota =>
      subst h
      exact .newRoom
    case ensureGet => split at h <;> cases h <;> [exact .there ‹_›; exact .missing ‹_›]
    case ensureOrgId =>
      split at h <;> cases h
      · exact .ensureOrg ‹_›
      · exact .answered (by decide) (by simp)

theorem resolveStep_call (h : resolveStep db org name d pc a = some (db', out)) :
    ResolveCall db org name d pc a db' out := by
  unfold resolveStep at h
  split at h
  · unfold resolveInsert at h
    split at h
    · split at h
      · cases h
      · rename_i hfree
        cases h
        apply ResolveCall.insert
        intro r hr hid
        exact hfree (List.any_eq_true.mpr ⟨r, hr, decide_eq_true hid⟩)
    · cases h
      exact .read (.answered (by decide) (by simp))
    · cases h
  · obtain ⟨out', hread, h⟩ := Option.map_eq_some_iff.mp h
    cases h
    exact .read (resolveRead_call hread)

theorem resolveStep_rest (h : resolveStep db org name d pc a = some (db', out)) :
    ∃ repositories, db' = { db with repositories := repositories } := by
  cases resolveStep_call h with
  | read reads => exact ⟨db.repositories, rfl⟩
  | insert fresh =>
    unfold Db.ensureRepository
    split
    · exact ⟨db.repositories, rfl⟩
    · exact ⟨_, rfl⟩

end resolve

end Chicoree.Registryd
