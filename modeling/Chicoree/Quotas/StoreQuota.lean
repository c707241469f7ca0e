import Chicoree.Lib.Distinct
import Chicoree.RateLimits.Settings
import Chicoree.Registryd.Store

/-! # Members and limits

What the quota checks of registryd and of the web application read besides the content
tables: who owns which organization, and the limits an administrator set for
organizations and for users. The schema keys the limits by organization and by user, and
the memberships by an identifier of their own: nothing in it keeps a user from having two
rows in one organization. -/

namespace Chicoree.Quotas

open List
open Registryd (OrgId RepoId Digest Db Visibility Repository Blob)

abbrev UserId := String

structure Member where
  id : String
  organizationId : OrgId
  userId : UserId
  role : String
deriving DecidableEq

/-- A row of `organization_limits`; a limit that is `none` is no limit. -/
structure OrganizationLimits where
  organizationId : OrgId
  maxPublicRepos : Option Int
  maxPrivateRepos : Option Int
  maxStorageBytes : Option Int
  maxMembers : Option Int
deriving DecidableEq

structure UserLimits where
  userId : UserId
  maxOrganizations : Option Int
  maxPublicRepos : Option Int
  maxPrivateRepos : Option Int
  maxStorageBytes : Option Int
deriving DecidableEq

/-- The limits an administrator set. -/
structure LimitRows where
  organizationLimits : List OrganizationLimits := []
  userLimits : List UserLimits := []
deriving DecidableEq

structure Accounts where
  members : List Member := []
  limits : LimitRows := {}
deriving DecidableEq

/-! ## Kinds of limit -/

/-- What a limit is about. -/
inductive Kind where
  | storage
  | repositories (v : Visibility)
deriving DecidableEq

def OrganizationLimits.column (l : OrganizationLimits) : Kind → Option Int
  | .storage => l.maxStorageBytes
  | .repositories .public => l.maxPublicRepos
  | .repositories .private => l.maxPrivateRepos

def UserLimits.column (l : UserLimits) : Kind → Option Int
  | .storage => l.maxStorageBytes
  | .repositories .public => l.maxPublicRepos
  | .repositories .private => l.maxPrivateRepos

namespace Accounts

/-- The column of the organization's row, NULL where it has no row. -/
def organizationLimit (a : Accounts) (org : OrgId) (k : Kind) : Option Int :=
  (Table.find OrganizationLimits.organizationId org a.limits.organizationLimits).bind (·.column k)

def userLimit (a : Accounts) (user : UserId) (k : Kind) : Option Int :=
  (Table.find UserLimits.userId user a.limits.userLimits).bind (·.column k)

def ownerRows (a : Accounts) (user : UserId) (org : OrgId) : List Member :=
  a.members.filter fun m =>
    decide (m.organizationId = org ∧ m.userId = user ∧ m.role = "owner")

def Owns (a : Accounts) (user : UserId) (org : OrgId) : Prop :=
  ∃ m ∈ a.members, m.organizationId = org ∧ m.userId = user ∧ m.role = "owner"

/-- The organization counts against the accounts of its owners: it is the user's, and has
no limit of the kind itself. -/
def InPool (a : Accounts) (k : Kind) (user : UserId) (org : OrgId) : Prop :=
  a.Owns user org ∧ a.organizationLimit org k = none

variable {a : Accounts} {user : UserId} {org : OrgId}

theorem mem_ownerRows {m : Member} :
    m ∈ a.ownerRows user org ↔
      m ∈ a.members ∧ m.organizationId = org ∧ m.userId = user ∧ m.role = "owner" := by
  simp [ownerRows]

theorem ownerRows_ne_nil : a.ownerRows user org ≠ [] ↔ a.Owns user org := by
  constructor
  · intro hne
    obtain ⟨m, hm⟩ := exists_mem_of_ne_nil _ hne
    exact ⟨m, mem_ownerRows.mp hm⟩
  · rintro ⟨m, hm⟩
    exact ne_nil_of_mem (mem_ownerRows.mpr hm)

end Accounts

/-! ## Linked blobs -/

/-- `blobs b JOIN repository_blobs rb ON … JOIN repositories r ON …`: one row for each link
of a blob to a repository. -/
def linkedBlobs (db : Db) : List (Repository × Blob) :=
  db.blobs.flatMap fun b =>
    (db.repositoryBlobs.filter fun l => decide (l.blobDigest = b.digest)).flatMap fun l =>
      (db.repositories.filter fun r => decide (r.id = l.repositoryId)).map fun r => (r, b)

theorem mem_linkedBlobs {db : Db} {r : Repository} {b : Blob} :
    (r, b) ∈ linkedBlobs db ↔ b ∈ db.blobs ∧ r ∈ db.repositories ∧
      ∃ l ∈ db.repositoryBlobs, l.blobDigest = b.digest ∧ l.repositoryId = r.id := by
  simp only [linkedBlobs, mem_flatMap, mem_filter, mem_map, decide_eq_true_eq]
  constructor
  · rintro ⟨b, hb, l, ⟨hl, hdigest⟩, r, ⟨hr, hid⟩, heq⟩
    cases heq
    exact ⟨hb, hr, l, hl, hdigest, hid.symm⟩
  · rintro ⟨hb, hr, l, hl, hdigest, hid⟩
    exact ⟨b, hb, l, ⟨hl, hdigest⟩, r, ⟨hr, hid.symm⟩, rfl⟩

end Chicoree.Quotas

/-! ## The quota checks of registryd

`store/quota.go`: an organization with a limit of its own is governed by that limit alone;
without one, every owner with a limit is asked, over all organizations of that owner that
have none. Amounts are exact integers: an `int64` wraps only beyond 2^63 bytes. -/

namespace Chicoree.Quotas.Store

open List
open Registryd (OrgId RepoId Digest Db Visibility Repository)

/-- Whose limit an error is about. -/
inductive Scope where
  | organization
  | owner
deriving DecidableEq

/-- `QuotaError`: a limit a push would exceed. -/
structure QuotaError where
  scope : Scope
  kind : Kind
  used : Int
  limit : Int
deriving DecidableEq

def orgStorageRows (db : Db) (org : OrgId) : List (Digest × Nat) :=
  ((linkedBlobs db).filter fun x => decide (x.1.orgId = org)).map fun x =>
    (x.2.digest, x.2.size)

def orgStorageUsed (db : Db) (org : OrgId) : Nat :=
  Distinct.total Prod.snd (orgStorageRows db org)

/-- The rows of `ownerStorageUsedSQL`, one for each row of the owner. -/
def ownerStorageRows (a : Accounts) (db : Db) (user : UserId) : List (OrgId × Digest × Nat) :=
  (linkedBlobs db).flatMap fun x =>
    if a.organizationLimit x.1.orgId .storage = none then
      (a.ownerRows user x.1.orgId).map fun _ => (x.1.orgId, x.2.digest, x.2.size)
    else []

def ownerStorageUsed (a : Accounts) (db : Db) (user : UserId) : Nat :=
  Distinct.total (fun x => x.2.2) (ownerStorageRows a db user)

def orgRepositoriesUsed (db : Db) (org : OrgId) (v : Visibility) : Nat :=
  db.repositories.countP fun r => decide (r.orgId = org ∧ r.visibility = v)

/-- The repositories that count against the owner: the join lists one for each row of the
owner. -/
def ownerRepositoriesUsed (a : Accounts) (db : Db) (user : UserId) (v : Visibility) : Nat :=
  (db.repositories.flatMap fun r =>
    if r.visibility = v ∧ a.organizationLimit r.orgId (.repositories v) = none then
      a.ownerRows user r.orgId
    else []).length

def limitedOwners (a : Accounts) (org : OrgId) (k : Kind) : List (UserId × Int) :=
  (a.members.filter fun m => decide (m.organizationId = org ∧ m.role = "owner")).filterMap
    fun m => (a.userLimit m.userId k).map fun limit => (m.userId, limit)

/-- What `CheckStorageQuota` fails with: a limit, or a query without an answer. -/
inductive CheckError where
  | quota (e : QuotaError)
  | query
deriving DecidableEq

/-- The comparison with one limit. The sum of the stored sizes is cast to `bigint`, which
fails beyond its range. -/
def checkUsed (scope : Scope) (used : Nat) (additional limit : Int) : Option CheckError :=
  if 2 ^ 63 ≤ used then some .query
  else if RateLimits.int64 (used + additional) > limit then
    some (.quota ⟨scope, .storage, used, limit⟩)
  else none

/-- `CheckStorageQuota`: the error, or none where the bytes may be added. -/
def checkStorageQuota (a : Accounts) (db : Db) (org : OrgId) (additional : Int) :
    Option CheckError :=
  match a.organizationLimit org .storage with
  | some limit =>
    -- the owners' accounts are not consulted
    checkUsed .organization (orgStorageUsed db org) additional limit
  | none =>
    (limitedOwners a org .storage).findSome? fun (o : UserId × Int) =>
      checkUsed .owner (ownerStorageUsed a db o.1) additional o.2

/-- `CheckStorageQuota` for the length of a content, where no sum leaves `int64`. -/
def checkContentQuota (a : Accounts) (db : Db) (org : OrgId) (additional : Nat) :
    Option QuotaError :=
  match a.organizationLimit org .storage with
  | some limit =>
    -- the owners' accounts are not consulted
    if orgStorageUsed db org + additional > limit then
      some ⟨.organization, .storage, orgStorageUsed db org, limit⟩
    else none
  | none =>
    (limitedOwners a org .storage).findSome? fun (o : UserId × Int) =>
      if ownerStorageUsed a db o.1 + additional > o.2 then
        some ⟨.owner, .storage, ownerStorageUsed a db o.1, o.2⟩
      else none

/-- `CheckRepositoryQuota`: the error, or none where the repository may be created. -/
def checkRepositoryQuota (a : Accounts) (db : Db) (org : OrgId) (v : Visibility) :
    Option QuotaError :=
  match a.organizationLimit org (.repositories v) with
  | some limit =>
    if orgRepositoriesUsed db org v ≥ limit then
      some ⟨.organization, .repositories v, orgRepositoriesUsed db org v, limit⟩
    else none
  | none =>
    (limitedOwners a org (.repositories v)).findSome? fun (o : UserId × Int) =>
      if ownerRepositoriesUsed a db o.1 v ≥ o.2 then
        some ⟨.owner, .repositories v, ownerRepositoriesUsed a db o.1 v, o.2⟩
      else none

/-! ## What is counted, and when a check refuses -/

section meaning

variable {a : Accounts} {db : Db} {org : OrgId} {user : UserId} {k : Kind} {v : Visibility}

variable {d : Digest} {n : Nat}

theorem mem_orgStorageRows : (d, n) ∈ orgStorageRows db org ↔
      ∃ r b, (r, b) ∈ linkedBlobs db ∧ r.orgId = org ∧ b.digest = d ∧ b.size = n := by
  simp only [orgStorageRows, mem_map, mem_filter, decide_eq_true_eq, Prod.exists, Prod.mk.injEq]
  constructor
  · rintro ⟨r, b, ⟨hlinked, horg⟩, hd, hn⟩
    exact ⟨r, b, hlinked, horg, hd, hn⟩
  · rintro ⟨r, b, hlinked, horg, hd, hn⟩
    exact ⟨r, b, ⟨hlinked, horg⟩, hd, hn⟩

theorem mem_ownerStorageRows {o : OrgId} : (o, d, n) ∈ ownerStorageRows a db user ↔
      (d, n) ∈ orgStorageRows db o ∧ a.InPool .storage user o := by
  rw [mem_orgStorageRows]
  simp only [ownerStorageRows, mem_flatMap, Prod.exists]
  constructor
  · rintro ⟨r, b, hlinked, hrow⟩
    split at hrow
    · rename_i hlimit
      obtain ⟨m, hm, heq⟩ := mem_map.mp hrow
      cases heq
      exact ⟨⟨r, b, hlinked, rfl, rfl, rfl⟩, ⟨m, Accounts.mem_ownerRows.mp hm⟩, hlimit⟩
    · cases hrow
  · rintro ⟨⟨r, b, hlinked, rfl, rfl, rfl⟩, ⟨m, hm⟩, hlimit⟩
    refine ⟨r, b, hlinked, ?_⟩
    rw [if_pos hlimit]
    exact mem_map.mpr ⟨m, Accounts.mem_ownerRows.mpr hm, rfl⟩

variable {limit : Int}

theorem mem_limitedOwners : (user, limit) ∈ limitedOwners a org k ↔
      a.Owns user org ∧ a.userLimit user k = some limit := by
  simp only [limitedOwners, mem_filterMap, mem_filter, decide_eq_true_eq,
    Option.map_eq_some_iff, Prod.mk.injEq]
  constructor
  · rintro ⟨m, ⟨hm, horg, hrole⟩, l, hl, rfl, rfl⟩
    exact ⟨⟨m, hm, horg, rfl, hrole⟩, hl⟩
  · rintro ⟨⟨m, hm, horg, rfl, hrole⟩, hl⟩
    exact ⟨m, ⟨hm, horg, hrole⟩, limit, hl, rfl, rfl⟩

theorem noError_iff {α : Type} {exceeds : Prop} [Decidable exceeds] {e : α} :
    (if exceeds then some e else none) = none ↔ ¬exceeds := by
  simp only [ite_eq_right_iff, reduceCtorEq, imp_false]

theorem noOwnerOver_iff {exceeds : UserId × Int → Prop} [DecidablePred exceeds]
    {e : UserId × Int → QuotaError} :
    ((limitedOwners a org k).findSome? fun o => if exceeds o then some (e o) else none) = none ↔
      ∀ u limit, a.Owns u org → a.userLimit u k = some limit → ¬exceeds (u, limit) := by
  rw [findSome?_eq_none_iff]
  simp only [noError_iff, Prod.forall, mem_limitedOwners, and_imp]

theorem checkContentQuota_limited (h : a.organizationLimit org .storage = some limit) :
    checkContentQuota a db org n = none ↔ (orgStorageUsed db org : Int) + n ≤ limit := by
  unfold checkContentQuota
  rw [h]
  dsimp only
  rw [noError_iff, Int.not_lt]

theorem checkContentQuota_pooled (h : a.organizationLimit org .storage = none) :
    checkContentQuota a db org n = none ↔
      ∀ u limit, a.Owns u org → a.userLimit u .storage = some limit →
        (ownerStorageUsed a db u : Int) + n ≤ limit := by
  unfold checkContentQuota
  rw [h]
  dsimp only
  simp only [noOwnerOver_iff, Int.not_lt]

theorem checkUsed_none {scope : Scope} {used : Nat} {m : Int} :
    checkUsed scope used m limit = none ↔
      used < 2 ^ 63 ∧ RateLimits.int64 (used + m) ≤ limit := by
  unfold checkUsed
  split
  · rename_i hlarge
    simp only [reduceCtorEq, false_iff, not_and]
    intro hsmall
    omega
  · rename_i hsmall
    rw [noError_iff, Int.not_lt, and_iff_right (Nat.not_le.mp hsmall)]

theorem checkStorageQuota_limited {m : Int} (h : a.organizationLimit org .storage = some limit) :
    checkStorageQuota a db org m = none ↔
      orgStorageUsed db org < 2 ^ 63 ∧ RateLimits.int64 (orgStorageUsed db org + m) ≤ limit := by
  unfold checkStorageQuota
  rw [h]
  exact checkUsed_none

theorem checkStorageQuota_pooled {m : Int} (h : a.organizationLimit org .storage = none) :
    checkStorageQuota a db org m = none ↔
      ∀ u limit, a.Owns u org → a.userLimit u .storage = some limit →
        ownerStorageUsed a db u < 2 ^ 63 ∧
          RateLimits.int64 (ownerStorageUsed a db u + m) ≤ limit := by
  unfold checkStorageQuota
  rw [h]
  dsimp only
  rw [findSome?_eq_none_iff]
  simp only [checkUsed_none, Prod.forall, mem_limitedOwners, and_imp]

theorem checkRepositoryQuota_limited (h : a.organizationLimit org (.repositories v) = some limit) :
    checkRepositoryQuota a db org v = none ↔ (orgRepositoriesUsed db org v : Int) < limit := by
  unfold checkRepositoryQuota
  rw [h]
  dsimp only
  rw [noError_iff, Int.not_le]

theorem checkRepositoryQuota_pooled (h : a.organizationLimit org (.repositories v) = none) :
    checkRepositoryQuota a db org v = none ↔
      ∀ u limit, a.Owns u org → a.userLimit u (.repositories v) = some limit →
        (ownerRepositoriesUsed a db u v : Int) < limit := by
  unfold checkRepositoryQuota
  rw [h]
  dsimp only
  simp only [noOwnerOver_iff, Int.not_le]

end meaning

end Chicoree.Quotas.Store
