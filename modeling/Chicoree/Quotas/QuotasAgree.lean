import Chicoree.Quotas.WebQuota

/-! # Two implementations of one rule

Where the checks of registryd and of the web application refuse alike. Both ask the same
accounts and sum storage over the same distinct rows, so there only the arithmetic can
part them: registryd adds in 64 bits, the web application in JavaScript's numbers. The
repositories of an owner's pool are counted over a join with `member` by registryd, and
over `IN` by the web application: an owner with two rows is counted twice by one. -/

namespace Chicoree.Quotas

open List
open Registryd (OrgId Db Visibility Repository)
open RateLimits (int64)

/-! ## The accounts asked -/

/-- Whose limit a check compares with. -/
inductive Account where
  | organization (org : OrgId)
  | owner (user : UserId)

/-- The accounts a check asks, and their limits: the organization alone where it has a
limit of the kind, else its owners. -/
inductive Asked (a : Accounts) (org : OrgId) (k : Kind) : Account → Int → Prop
  | organization {limit} : a.organizationLimit org k = some limit →
      Asked a org k (.organization org) limit
  | owner {user limit} : a.organizationLimit org k = none → a.Owns user org →
      a.userLimit user k = some limit → Asked a org k (.owner user) limit

/-- The bytes that count against the account: each blob once for each organization. -/
def Account.bytes (a : Accounts) (db : Db) : Account → Nat
  | .organization org => Web.orgStorageBytes db org
  | .owner user => Web.poolStorageBytes a db user

/-- The repositories that count against the account. -/
def Account.repositories (a : Accounts) (db : Db) (v : Visibility) : Account → Nat
  | .organization org => Web.orgRepos db org v
  | .owner user => Web.poolRepos a db user v

/-- The further rows that make the user an owner, one for each of them and each of the
repositories that count. -/
def Account.repeated (a : Accounts) (db : Db) (v : Visibility) : Account → Nat
  | .organization _ => 0
  | .owner user =>
    ((db.repositories.filter fun r =>
      decide (r.orgId ∈ Web.pool a user (.repositories v) ∧ r.visibility = v)).map fun r =>
        (a.ownerRows user r.orgId).length - 1).sum

/-- The database answers the usage queries that the web application makes for the check:
the counts fit `int` and the sums `bigint`. -/
structure Answered (a : Accounts) (db : Db) (org : OrgId) (k : Kind) : Prop where
  organization : Web.OrgAnswers a db org
  owners : a.organizationLimit org k = none → ∀ u, a.Owns u org → Web.UserAnswers a db u

/-! ## Sums of bytes -/

/-- No room in 64 bits: the bytes in use are no `bigint`, or the wrapped sum is above the
limit. -/
def FullInt64 (used : Nat) (n limit : Int) : Prop :=
  2 ^ 63 ≤ used ∨ limit < int64 (used + n)

/-- No room in numbers: the rounded sum is above the rounded limit. -/
def FullNumber (used : Nat) (n limit : Int) : Prop :=
  Web.toNumber limit < Web.toNumber (Web.toNumber used + Web.toNumber n)

section sums

variable {used n : Nat} {limit : Int}

end sums

/-! ## When the two agree -/

/-- Of the accounts asked for the bytes, none is full by one sum alone, unless another is
full by the other sum too; and where the usage queries are not answered, one is full by
the sum of 64 bits. -/
structure StorageAlike (a : Accounts) (db : Db) (org : OrgId) (n : Int) : Prop where
  inInt64 : ∀ x limit, Asked a org .storage x limit → FullInt64 (x.bytes a db) n limit →
    ¬FullNumber (x.bytes a db) n limit → Answered a db org .storage →
    ∃ y limit, Asked a org .storage y limit ∧ FullNumber (y.bytes a db) n limit
  inNumbers : ∀ x limit, Asked a org .storage x limit → FullNumber (x.bytes a db) n limit →
    ¬FullInt64 (x.bytes a db) n limit →
    ∃ y limit, Asked a org .storage y limit ∧ FullInt64 (y.bytes a db) n limit
  answered : ¬Answered a db org .storage →
    ∃ x limit, Asked a org .storage x limit ∧ FullInt64 (x.bytes a db) n limit

/-- No owner asked is brought to the limit by repeated rows alone, unless another's
account is full without any; and where the usage queries are not answered, one is full. -/
structure RepositoriesAlike (a : Accounts) (db : Db) (org : OrgId) (v : Visibility) : Prop where
  repeatedRows : ∀ x limit, Asked a org (.repositories v) x limit →
    x.repositories a db v < limit → limit ≤ x.repositories a db v + x.repeated a db v →
    Answered a db org (.repositories v) →
    ∃ y limit, Asked a org (.repositories v) y limit ∧ limit ≤ y.repositories a db v
  answered : ¬Answered a db org (.repositories v) →
    ∃ x limit, Asked a org (.repositories v) x limit ∧
      limit ≤ x.repositories a db v + x.repeated a db v

section agreement

variable {a : Accounts} {db : Db} {org : OrgId} {user : UserId} {k : Kind} {v : Visibility}

theorem asked_iff_of_limited {l : Int} (h : a.organizationLimit org k = some l)
    {P : Account → Int → Prop} :
    (∀ x limit, Asked a org k x limit → P x limit) ↔ P (.organization org) l := by
  constructor
  · intro hall
    exact hall _ _ (.organization h)
  · intro hP x limit hasked
    cases hasked with
    | organization hlimit =>
      rw [h] at hlimit
      cases hlimit
      exact hP
    | owner hnone =>
      rw [h] at hnone
      contradiction

theorem asked_iff_of_pooled (h : a.organizationLimit org k = none) {P : Account → Int → Prop} :
    (∀ x limit, Asked a org k x limit → P x limit) ↔
      ∀ u limit, a.Owns u org → a.userLimit u k = some limit → P (.owner u) limit := by
  constructor
  · intro hall u limit howns hlimit
    exact hall _ _ (.owner h howns hlimit)
  · intro hP x limit hasked
    cases hasked with
    | organization hlimit =>
      rw [h] at hlimit
      contradiction
    | owner _ howns hlimit => exact hP _ _ howns hlimit

theorem ownerStorageUsed_eq : Store.ownerStorageUsed a db user = Web.poolStorageBytes a db user := by
  refine Distinct.total_congr ?_
  rintro ⟨o, d, n⟩
  rw [Store.mem_ownerStorageRows, Store.mem_orgStorageRows]
  simp only [mem_map, mem_filter, decide_eq_true_eq, Prod.exists, Prod.mk.injEq, Web.mem_pool]
  constructor
  · rintro ⟨⟨r, b, hlinked, rfl, rfl, rfl⟩, hpool⟩
    exact ⟨r, b, ⟨hlinked, hpool⟩, rfl, rfl, rfl⟩
  · rintro ⟨r, b, ⟨hlinked, hpool⟩, rfl, rfl, rfl⟩
    exact ⟨⟨r, b, hlinked, rfl, rfl, rfl⟩, hpool⟩

/-- The rows of the join are the repositories of the pool and the repeated rows. -/
theorem ownerRepositoriesUsed_eq : Store.ownerRepositoriesUsed a db user v =
    Web.poolRepos a db user v + Account.repeated a db v (.owner user) := by
  unfold Store.ownerRepositoriesUsed
  rw [Distinct.length_join (p := fun r =>
    decide (r.orgId ∈ Web.pool a user (.repositories v) ∧ r.visibility = v))]
  · have hcounted : ∀ r ∈ db.repositories.filter fun r =>
        decide (r.orgId ∈ Web.pool a user (.repositories v) ∧ r.visibility = v),
        (if r.visibility = v ∧ a.organizationLimit r.orgId (.repositories v) = none then
          a.ownerRows user r.orgId else []).length - 1 = (a.ownerRows user r.orgId).length - 1 := by
      intro r hr
      obtain ⟨hpool, hv⟩ := of_decide_eq_true (mem_filter.mp hr).2
      rw [if_pos ⟨hv, (Web.mem_pool.mp hpool).2⟩]
    rw [map_congr_left hcounted]
    rfl
  · intro r _
    rw [decide_eq_true_eq, Web.mem_pool]
    split
    · rename_i hcounts
      rw [Accounts.ownerRows_ne_nil]
      exact ⟨fun howns => ⟨⟨howns, hcounts.2⟩, hcounts.1⟩, fun h => h.1.1⟩
    · rename_i hcounts
      simp only [ne_eq, not_true_eq_false, false_iff]
      exact fun h => hcounts ⟨h.2, h.1.2⟩

variable {n : Int} {formatBytes : Int → String} {label : String}

theorem storage_registryd : Store.checkStorageQuota a db org n = none ↔
    ∀ x limit, Asked a org .storage x limit → ¬FullInt64 (x.bytes a db) n limit := by
  cases hlimit : a.organizationLimit org .storage with
  | some limit =>
    rw [asked_iff_of_limited hlimit, Store.checkStorageQuota_limited hlimit]
    simp only [FullInt64, Account.bytes, not_or, Nat.not_le, Int.not_lt]
    rfl
  | none =>
    rw [asked_iff_of_pooled hlimit, Store.checkStorageQuota_pooled hlimit]
    simp only [FullInt64, Account.bytes, not_or, Nat.not_le, Int.not_lt, ownerStorageUsed_eq]

theorem storage_web : Web.checkStorageQuota formatBytes a db org (Web.toNumber n) = none ↔
    Answered a db org .storage ∧
      ∀ x limit, Asked a org .storage x limit → ¬FullNumber (x.bytes a db) n limit := by
  cases hlimit : a.organizationLimit org .storage with
  | some limit =>
    rw [asked_iff_of_limited hlimit, Web.checkStorageQuota_limited hlimit]
    simp only [FullNumber, Account.bytes, Int.not_lt]
    refine and_congr_left fun _ => ⟨fun h => ⟨h, ?_⟩, fun h => h.organization⟩
    rw [hlimit]
    exact fun hnone => absurd hnone (by simp)
  | none =>
    rw [asked_iff_of_pooled hlimit, Web.checkStorageQuota_pooled hlimit]
    simp only [FullNumber, Account.bytes, Int.not_lt]
    constructor
    · rintro ⟨horg, howners⟩
      exact ⟨⟨horg, fun _ u hu => (howners u hu).1⟩, fun u limit hu => (howners u hu).2 limit⟩
    · rintro ⟨hanswered, hroom⟩
      exact ⟨hanswered.organization, fun u hu =>
        ⟨hanswered.owners hlimit u hu, fun limit => hroom u limit hu⟩⟩

theorem repositories_registryd : Store.checkRepositoryQuota a db org v = none ↔
    ∀ x limit, Asked a org (.repositories v) x limit →
      x.repositories a db v + x.repeated a db v < limit := by
  cases hlimit : a.organizationLimit org (.repositories v) with
  | some limit =>
    rw [asked_iff_of_limited hlimit, Store.checkRepositoryQuota_limited hlimit]
    simp only [Account.repositories, Account.repeated, Int.natCast_zero, Int.add_zero]
    rfl
  | none =>
    rw [asked_iff_of_pooled hlimit, Store.checkRepositoryQuota_pooled hlimit]
    simp only [Account.repositories, ownerRepositoriesUsed_eq, Int.natCast_add]

theorem repositories_web : Web.checkRepoQuota a db org v label = none ↔
    Answered a db org (.repositories v) ∧
      ∀ x limit, Asked a org (.repositories v) x limit → x.repositories a db v < limit := by
  cases hlimit : a.organizationLimit org (.repositories v) with
  | some limit =>
    rw [asked_iff_of_limited hlimit, Web.checkRepoQuota_limited hlimit]
    refine and_congr_left fun _ => ⟨fun h => ⟨h, ?_⟩, fun h => h.organization⟩
    rw [hlimit]
    exact fun hnone => absurd hnone (by simp)
  | none =>
    rw [asked_iff_of_pooled hlimit, Web.checkRepoQuota_pooled hlimit]
    constructor
    · rintro ⟨horg, howners⟩
      exact ⟨⟨horg, fun _ u hu => (howners u hu).1⟩, fun u limit hu => (howners u hu).2 limit⟩
    · rintro ⟨hanswered, hroom⟩
      exact ⟨hanswered.organization, fun u hu =>
        ⟨hanswered.owners hlimit u hu, fun limit => hroom u limit hu⟩⟩

end agreement

theorem isSome_iff_of_none_iff {α β : Type} {x : Option α} {y : Option β} :
    (x.isSome ↔ y.isSome) ↔ (x = none ↔ y = none) := by
  rw [← Option.ne_none_iff_isSome, ← Option.ne_none_iff_isSome]
  exact not_iff_not

/-- Two checks ask the same accounts, one of them only where its queries are answered. They
let in alike where what is full for one of them is made up for by another account. -/
theorem alike_iff {asked full full' : Account → Int → Prop} {answered : Prop} :
    ((∀ x l, asked x l → ¬full x l) ↔ answered ∧ ∀ x l, asked x l → ¬full' x l) ↔
      (∀ x l, asked x l → full x l → ¬full' x l → answered → ∃ y l, asked y l ∧ full' y l) ∧
      (∀ x l, asked x l → full' x l → ¬full x l → ∃ y l, asked y l ∧ full y l) ∧
      (¬answered → ∃ x l, asked x l ∧ full x l) := by
  have hfree {f : Account → Int → Prop} (h : ¬∃ y l, asked y l ∧ f y l) :
      ∀ y l, asked y l → ¬f y l := fun y l hy hf => h ⟨y, l, hy, hf⟩
  constructor
  · intro h
    refine ⟨?_, ?_, ?_⟩
    · intro x l hasked hfull _ hanswered
      by_contra hroom
      exact h.mpr ⟨hanswered, hfree hroom⟩ x l hasked hfull
    · intro x l hasked hfull _
      by_contra hroom
      exact (h.mp (hfree hroom)).2 x l hasked hfull
    · intro hno
      by_contra hroom
      exact hno (h.mp (hfree hroom)).1
  · rintro ⟨hfirst, hsecond, hunanswered⟩
    constructor
    · intro hroom
      by_cases hanswered : answered
      · refine ⟨hanswered, fun x l hasked hfull => ?_⟩
        obtain ⟨y, m, hy, hfull⟩ := hsecond x l hasked hfull (hroom x l hasked)
        exact hroom y m hy hfull
      · obtain ⟨x, l, hasked, hfull⟩ := hunanswered hanswered
        exact absurd hfull (hroom x l hasked)
    · rintro ⟨hanswered, hroom⟩ x l hasked hfull
      obtain ⟨y, m, hy, hfull⟩ := hfirst x l hasked hfull (hroom x l hasked) hanswered
      exact hroom y m hy hfull

/-- The library, with one private repository and one stored byte. -/
def library : Db where
  organizations := [⟨"o1", "library"⟩]
  repositories := [⟨"r1", "o1", "nginx", .private⟩]
  blobs := [⟨"sha256:aa", 1, 0⟩]
  repositoryBlobs := [⟨"r1", "sha256:aa", 0⟩]

/-- Two logins at once made alice an owner of the library twice. -/
def aliceTwice : List Member := [⟨"m1", "o1", "alice", "owner"⟩, ⟨"m2", "o1", "alice", "owner"⟩]

end Chicoree.Quotas
