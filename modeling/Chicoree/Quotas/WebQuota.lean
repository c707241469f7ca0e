import Chicoree.Quotas.StoreQuota
import Chicoree.RateLimits.LimitGrammar

/-! # The quota checks of the web application

`lib/quota.ts`, the web-side twin of the checks of registryd. Storage amounts come out of
the database as `bigint` and become JavaScript numbers, which are exact up to 2^53 only.
The counts are cast to `int` and the sums to `bigint`: one that does not fit fails the
query, and with it the check. -/

namespace Chicoree.Quotas.Web

open List
open Registryd (OrgId Db Visibility Repository)
open RateLimits (roundBits roundBits_of_lt le_roundBits)

/-! ## Numbers -/

/-- `Number(n)` of a `bigint`, and what a sum of two numbers is rounded to. -/
def toNumber : Int → Int
  | .ofNat n => roundBits n
  | .negSucc n => -roundBits (n + 1)

variable {b : Int}

/-- What an organization, or an account over its organizations, uses. -/
structure Usage where
  organizations : Int
  publicRepos : Int
  privateRepos : Int
  storageBytes : Int
  members : Int

/-- Limits; `none` is unlimited. -/
structure Limits where
  maxOrganizations : Option Int := none
  maxPublicRepos : Option Int := none
  maxPrivateRepos : Option Int := none
  maxStorageBytes : Option Int := none
  /-- Organizations only. -/
  maxMembers : Option Int := none

/-- `usage[usageKey]`. -/
def Usage.repos (u : Usage) : Visibility → Int
  | .public => u.publicRepos
  | .private => u.privateRepos

/-- `limits[key]`. -/
def Limits.repos (l : Limits) : Visibility → Option Int
  | .public => l.maxPublicRepos
  | .private => l.maxPrivateRepos

/-- The distinct blobs linked to repositories of the organization. -/
def orgStorageBytes (db : Db) (org : OrgId) : Nat :=
  Distinct.total Prod.snd
    (((linkedBlobs db).filter fun x => decide (x.1.orgId = org)).map fun x =>
      (x.2.digest, x.2.size))

def orgRepos (db : Db) (org : OrgId) (v : Visibility) : Nat :=
  db.repositories.countP fun r => decide (r.orgId = org ∧ r.visibility = v)

def orgMembers (a : Accounts) (org : OrgId) : Nat :=
  a.members.countP fun m => decide (m.organizationId = org)

/-- The usage of an organization is within the types of the query. -/
def OrgAnswers (a : Accounts) (db : Db) (org : OrgId) : Prop :=
  orgRepos db org .public < 2 ^ 31 ∧ orgRepos db org .private < 2 ^ 31 ∧
    orgMembers a org < 2 ^ 31 ∧ orgStorageBytes db org < 2 ^ 63

instance (a : Accounts) (db : Db) (org : OrgId) : Decidable (OrgAnswers a db org) :=
  inferInstanceAs (Decidable (_ ∧ _ ∧ _ ∧ _))

def orgUsage (a : Accounts) (db : Db) (org : OrgId) : Usage where
  organizations := 1
  publicRepos := orgRepos db org .public
  privateRepos := orgRepos db org .private
  storageBytes := toNumber (orgStorageBytes db org)
  members := orgMembers a org

/-- `getOrgUsage`; `none` where the query fails. -/
def getOrgUsage (a : Accounts) (db : Db) (org : OrgId) : Option Usage :=
  if OrgAnswers a db org then some (orgUsage a db org) else none

/-- A row of the CTE `owned`. -/
structure Owned where
  organizationId : OrgId
  maxPublicRepos : Option Int
  maxPrivateRepos : Option Int
  maxStorageBytes : Option Int

/-- `WITH owned AS (…)`: one row for each row that makes the user an owner. -/
def owned (a : Accounts) (user : UserId) : List Owned :=
  (a.members.filter fun m => decide (m.userId = user ∧ m.role = "owner")).map fun m =>
    ⟨m.organizationId, a.organizationLimit m.organizationId (.repositories .public),
      a.organizationLimit m.organizationId (.repositories .private),
      a.organizationLimit m.organizationId .storage⟩

def Owned.column (o : Owned) : Kind → Option Int
  | .storage => o.maxStorageBytes
  | .repositories .public => o.maxPublicRepos
  | .repositories .private => o.maxPrivateRepos

/-- `SELECT organization_id FROM owned WHERE … IS NULL`. -/
def pool (a : Accounts) (user : UserId) (k : Kind) : List OrgId :=
  ((owned a user).filter fun o => decide (o.column k = none)).map (·.organizationId)

/-- `organization_id IN (…)`: each repository of the pool once. -/
def poolRepos (a : Accounts) (db : Db) (user : UserId) (v : Visibility) : Nat :=
  db.repositories.countP fun r =>
    decide (r.orgId ∈ pool a user (.repositories v) ∧ r.visibility = v)

/-- The distinct blobs of each organization of the pool. -/
def poolStorageBytes (a : Accounts) (db : Db) (user : UserId) : Nat :=
  Distinct.total (fun x => x.2.2)
    (((linkedBlobs db).filter fun x => decide (x.1.orgId ∈ pool a user .storage)).map fun x =>
      (x.1.orgId, x.2.digest, x.2.size))

def ownedMembers (a : Accounts) (user : UserId) : Nat :=
  a.members.countP fun m => decide (m.organizationId ∈ (owned a user).map (·.organizationId))

/-- The usage of an account is within the types of the query. -/
def UserAnswers (a : Accounts) (db : Db) (user : UserId) : Prop :=
  (owned a user).length < 2 ^ 31 ∧ poolRepos a db user .public < 2 ^ 31 ∧
    poolRepos a db user .private < 2 ^ 31 ∧ ownedMembers a user < 2 ^ 31 ∧
    poolStorageBytes a db user < 2 ^ 63

instance (a : Accounts) (db : Db) (user : UserId) : Decidable (UserAnswers a db user) :=
  inferInstanceAs (Decidable (_ ∧ _ ∧ _ ∧ _ ∧ _))

def userUsage (a : Accounts) (db : Db) (user : UserId) : Usage where
  organizations := (owned a user).length
  publicRepos := poolRepos a db user .public
  privateRepos := poolRepos a db user .private
  storageBytes := toNumber (poolStorageBytes a db user)
  members := ownedMembers a user

/-- `getUserUsage`; `none` where the query fails. -/
def getUserUsage (a : Accounts) (db : Db) (user : UserId) : Option Usage :=
  if UserAnswers a db user then some (userUsage a db user) else none

/-- The limits of an organization; no row is no limit. -/
def getOrgLimits (a : Accounts) (org : OrgId) : Limits :=
  match Table.find OrganizationLimits.organizationId org a.limits.organizationLimits with
  | some row =>
    ⟨none, row.maxPublicRepos, row.maxPrivateRepos, row.maxStorageBytes.map toNumber,
      row.maxMembers⟩
  | none => {}

/-- The limits of an account; no row is no limit. -/
def getUserLimits (a : Accounts) (user : UserId) : Limits :=
  match Table.find UserLimits.userId user a.limits.userLimits with
  | some row =>
    ⟨row.maxOrganizations, row.maxPublicRepos, row.maxPrivateRepos,
      row.maxStorageBytes.map toNumber, none⟩
  | none => {}

/-- `orgOwnerIds`: a user is there once for each row that makes an owner. -/
def orgOwnerIds (a : Accounts) (org : OrgId) : List UserId :=
  (a.members.filter fun m => decide (m.organizationId = org ∧ m.role = "owner")).map (·.userId)

def visibilityText : Visibility → String
  | .public => "public"
  | .private => "private"

/-- How a check does not let something through: with its reason, or thrown by a query. -/
inductive Refusal where
  | reason (text : String)
  | thrown
deriving DecidableEq

/-- `checkRepoQuota`: the refusal, or none where one more repository of this visibility
can be created; `pending` more are already promised. -/
def checkRepoQuota (a : Accounts) (db : Db) (org : OrgId) (v : Visibility)
    (orgLabel : String := "this organization") (pending : Nat := 0) : Option Refusal :=
  match getOrgUsage a db org with
  | none => some .thrown
  | some orgUsage =>
    match (getOrgLimits a org).repos v with
    | some limit =>
      -- the owners' accounts are not consulted
      if orgUsage.repos v + pending ≥ limit then
        some (.reason s!"{orgLabel} has reached its limit of {limit} {visibilityText v} repositories.")
      else none
    | none =>
      (orgOwnerIds a org).findSome? fun owner =>
        match getUserUsage a db owner with
        | none => some .thrown
        | some usage =>
          match (getUserLimits a owner).repos v with
          | none => none
          | some limit =>
            if usage.repos v + pending ≥ limit then
              some (.reason (s!"The organization owner's account has reached its limit of {limit} " ++
                s!"{visibilityText v} repositories."))
            else none

/-- `checkStorageQuota`: the refusal, or none where the bytes, a number, can be added.
`formatBytes` is how amounts are shown. -/
def checkStorageQuota (formatBytes : Int → String) (a : Accounts) (db : Db) (org : OrgId)
    (additionalBytes : Int) : Option Refusal :=
  match getOrgUsage a db org with
  | none => some .thrown
  | some orgUsage =>
    match (getOrgLimits a org).maxStorageBytes with
    | some limit =>
      let used := orgUsage.storageBytes
      if toNumber (used + additionalBytes) > limit then
        some (.reason s!"Storage limit reached: {formatBytes used} of {formatBytes limit} used.")
      else none
    | none =>
      (orgOwnerIds a org).findSome? fun owner =>
        match getUserUsage a db owner with
        | none => some .thrown
        | some usage =>
          match (getUserLimits a owner).maxStorageBytes with
          | none => none
          | some limit =>
            let used := usage.storageBytes
            if toNumber (used + additionalBytes) > limit then
              some (.reason (s!"The owner's account storage limit is reached: {formatBytes used} of " ++
                s!"{formatBytes limit}."))
            else none

/-! ## What is counted, and when a check refuses -/

section meaning

variable {a : Accounts} {db : Db} {org : OrgId} {user : UserId} {k : Kind} {v : Visibility}

theorem getOrgLimits_repos : (getOrgLimits a org).repos v =
    a.organizationLimit org (.repositories v) := by
  unfold getOrgLimits Accounts.organizationLimit
  cases Table.find OrganizationLimits.organizationId org a.limits.organizationLimits with
  | none | some row => cases v <;> rfl

theorem getOrgLimits_storage : (getOrgLimits a org).maxStorageBytes =
    (a.organizationLimit org .storage).map toNumber := by
  unfold getOrgLimits Accounts.organizationLimit
  cases Table.find OrganizationLimits.organizationId org a.limits.organizationLimits with
  | none | some row => rfl

theorem getUserLimits_repos : (getUserLimits a user).repos v =
    a.userLimit user (.repositories v) := by
  unfold getUserLimits Accounts.userLimit
  cases Table.find UserLimits.userId user a.limits.userLimits with
  | none | some row => cases v <;> rfl

theorem getUserLimits_storage : (getUserLimits a user).maxStorageBytes =
    (a.userLimit user .storage).map toNumber := by
  unfold getUserLimits Accounts.userLimit
  cases Table.find UserLimits.userId user a.limits.userLimits with
  | none | some row => rfl

theorem mem_orgOwnerIds : user ∈ orgOwnerIds a org ↔ a.Owns user org := by
  simp only [orgOwnerIds, mem_map, mem_filter, decide_eq_true_eq]
  constructor
  · rintro ⟨m, ⟨hm, horg, hrole⟩, huser⟩
    exact ⟨m, hm, horg, huser, hrole⟩
  · rintro ⟨m, hm, horg, huser, hrole⟩
    exact ⟨m, ⟨hm, horg, hrole⟩, huser⟩

theorem mem_pool : org ∈ pool a user k ↔ a.InPool k user org := by
  have hcolumn (m : Member) : (Owned.mk m.organizationId
      (a.organizationLimit m.organizationId (.repositories .public))
      (a.organizationLimit m.organizationId (.repositories .private))
      (a.organizationLimit m.organizationId .storage)).column k =
        a.organizationLimit m.organizationId k := by
    cases k with
    | storage => rfl
    | repositories v => cases v <;> rfl
  simp only [pool, owned, mem_map, mem_filter, decide_eq_true_eq]
  constructor
  · rintro ⟨_, ⟨⟨m, ⟨hm, huser, hrole⟩, rfl⟩, hnull⟩, rfl⟩
    exact ⟨⟨m, hm, rfl, huser, hrole⟩, (hcolumn m).symm.trans hnull⟩
  · rintro ⟨⟨m, hm, rfl, huser, hrole⟩, hnull⟩
    exact ⟨_, ⟨⟨m, ⟨hm, huser, hrole⟩, rfl⟩, (hcolumn m).trans hnull⟩, rfl⟩

theorem orgUsage_repos : (orgUsage a db org).repos v = orgRepos db org v := by
  cases v <;> rfl

theorem userUsage_repos : (userUsage a db user).repos v = poolRepos a db user v := by
  cases v <;> rfl

variable {label : String} {formatBytes : Int → String} {limit n : Int}

/-- A check goes on from the organization's usage only where the query answers. -/
theorem fromOrgUsage_iff {rest : Usage → Option Refusal} : (match getOrgUsage a db org with
      | none => some Refusal.thrown
      | some usage => rest usage) = none ↔
    OrgAnswers a db org ∧ rest (orgUsage a db org) = none := by
  unfold getOrgUsage
  by_cases h : OrgAnswers a db org
  · simp [h]
  · simp [h]

/-- The loop over the owners ends without a refusal where every owner's usage is there and
within the limit. -/
theorem ownersWithin_iff {limitOf : UserId → Option Int} {exceeded : Usage → Int → Prop}
    [∀ usage limit, Decidable (exceeded usage limit)] {reason : Usage → Int → Refusal} :
    ((orgOwnerIds a org).findSome? fun owner =>
      match getUserUsage a db owner with
      | none => some Refusal.thrown
      | some usage =>
        match limitOf owner with
        | none => none
        | some limit => if exceeded usage limit then some (reason usage limit) else none) = none ↔
    ∀ u, a.Owns u org → UserAnswers a db u ∧
      ∀ limit, limitOf u = some limit → ¬exceeded (userUsage a db u) limit := by
  rw [findSome?_eq_none_iff]
  refine forall_congr' fun u => ?_
  rw [mem_orgOwnerIds]
  refine forall_congr' fun _ => ?_
  unfold getUserUsage
  by_cases h : UserAnswers a db u
  · cases limitOf u with
    | none => simp [h]
    | some limit => simp [h]
  · simp [h]

theorem checkRepoQuota_limited (h : a.organizationLimit org (.repositories v) = some limit) :
    checkRepoQuota a db org v label = none ↔
      OrgAnswers a db org ∧ (orgRepos db org v : Int) < limit := by
  unfold checkRepoQuota
  rw [fromOrgUsage_iff, getOrgLimits_repos, h]
  refine and_congr_right fun _ => ?_
  dsimp only
  rw [Store.noError_iff, orgUsage_repos]
  omega

theorem checkRepoQuota_pooled (h : a.organizationLimit org (.repositories v) = none) :
    checkRepoQuota a db org v label = none ↔ OrgAnswers a db org ∧
      ∀ u, a.Owns u org → UserAnswers a db u ∧
        ∀ limit, a.userLimit u (.repositories v) = some limit →
          (poolRepos a db u v : Int) < limit := by
  unfold checkRepoQuota
  rw [fromOrgUsage_iff, getOrgLimits_repos, h]
  refine and_congr_right fun _ => ?_
  dsimp only
  rw [ownersWithin_iff]
  simp only [getUserLimits_repos, userUsage_repos, Int.natCast_zero, Int.add_zero, ge_iff_le,
    Int.not_le]

theorem checkStorageQuota_limited (h : a.organizationLimit org .storage = some limit) :
    checkStorageQuota formatBytes a db org n = none ↔ OrgAnswers a db org ∧
      toNumber (toNumber (orgStorageBytes db org) + n) ≤ toNumber limit := by
  unfold checkStorageQuota
  rw [fromOrgUsage_iff, getOrgLimits_storage, h]
  refine and_congr_right fun _ => ?_
  dsimp only [Option.map_some]
  rw [Store.noError_iff, Int.not_lt]
  exact Iff.rfl

theorem checkStorageQuota_pooled (h : a.organizationLimit org .storage = none) :
    checkStorageQuota formatBytes a db org n = none ↔ OrgAnswers a db org ∧
      ∀ u, a.Owns u org → UserAnswers a db u ∧
        ∀ limit, a.userLimit u .storage = some limit →
          toNumber (toNumber (poolStorageBytes a db u) + n) ≤ toNumber limit := by
  unfold checkStorageQuota
  rw [fromOrgUsage_iff, getOrgLimits_storage, h]
  refine and_congr_right fun _ => ?_
  dsimp only [Option.map_none]
  rw [ownersWithin_iff]
  simp only [getUserLimits_storage, Option.map_eq_some_iff, forall_exists_index, and_imp,
    forall_apply_eq_imp_iff₂, Int.not_lt]
  exact Iff.rfl

end meaning

end Chicoree.Quotas.Web
