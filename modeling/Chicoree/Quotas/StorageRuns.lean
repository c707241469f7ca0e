import Chicoree.Quotas.StoreQuota
import Chicoree.Registryd.CommittedBlob
import Chicoree.Registryd.ContentShown

/-! # What a new link adds

The usage of an organization and of an owner's pool after one more link, and the invariants
of the tables it rests on. A deposit is a write that passed its check: it keeps every limit,
and adds the size of its blob where the organization did not hold it. -/

namespace Chicoree.Quotas

open List Table Distinct
open Registryd (OrgId RepoId Digest Db Visibility Repository Blob Time)

/-! ## Tables -/

/-- The keys and the foreign keys of the content tables. -/
structure Consistent (db : Db) : Prop where
  repositories : Table.Keyed Repository.id db.repositories
  blobs : Table.Keyed Blob.digest db.blobs
  known : db.LinksKnown
  recorded : ∀ l ∈ db.repositoryBlobs, ∃ b ∈ db.blobs, b.digest = l.blobDigest

section tables

variable {db db' : Db} {org : OrgId} {d : Digest} {r : Repository} {b : Blob}

variable {now : Time}

theorem mem_insertBlob {size : Nat} (hb : b ∈ db.blobs) :
    b ∈ (db.insertBlob d size now).blobs := mem_insertNew_of_mem hb

theorem keyed_insertNew {ρ κ : Type} [DecidableEq κ] {key : ρ → κ} {rows : List ρ} {x : ρ}
    (h : Table.Keyed key rows) : Table.Keyed key (Table.insertNew key x rows) := by
  unfold Table.insertNew
  split
  · exact h
  · rename_i hnew
    refine h.append fun y hy hkey => hnew ?_
    exact any_eq_true.mpr ⟨y, hy, decide_eq_true hkey⟩

theorem exists_insertBlob (db : Db) (d : Digest) (size : Nat) (now : Time) :
    ∃ b ∈ (db.insertBlob d size now).blobs, b.digest = d ∧ (b ∈ db.blobs ∨ b.size = size) := by
  by_cases hold : ∃ b ∈ db.blobs, b.digest = d
  · obtain ⟨b, hb, hd⟩ := hold
    exact ⟨b, mem_insertBlob hb, hd, .inl hb⟩
  · have hkey : ∃ b ∈ Table.insertNew Blob.digest ⟨d, size, now⟩ db.blobs, b.digest = d :=
      exists_key_insertNew _ _
    obtain ⟨b, hb, hd⟩ := hkey
    rcases mem_of_mem_insertNew hb with hmem | rfl
    · exact absurd ⟨b, hmem, hd⟩ hold
    · exact ⟨_, hb, rfl, .inr rfl⟩

theorem Consistent.insertBlob (h : Consistent db) (d : Digest) (size : Nat) (now : Time) :
    Consistent (db.insertBlob d size now) where
  repositories := h.repositories
  blobs := keyed_insertNew h.blobs
  known := h.known
  recorded l hl := by
    obtain ⟨b, hb, hd⟩ := h.recorded l hl
    exact ⟨b, mem_insertBlob hb, hd⟩

theorem Consistent.linkBlob (h : Consistent db) (hr : r ∈ db.repositories)
    (hb : b ∈ db.blobs) : Consistent (db.linkBlob r.id b.digest now) where
  repositories := h.repositories
  blobs := h.blobs
  known := by
    intro l hl
    rcases mem_of_mem_insertNew hl with hl | rfl
    · exact h.known l hl
    · exact ⟨r, hr, rfl⟩
  recorded := by
    intro l hl
    rcases mem_of_mem_insertNew hl with hl | rfl
    · exact h.recorded l hl
    · exact ⟨b, hb, rfl⟩

variable {name : String} {v : Visibility} {id : RepoId}

theorem Consistent.ensureRepository (h : Consistent db)
    (hnew : ∀ row ∈ db.repositories, row.id ≠ id) :
    Consistent (db.ensureRepository org name v id).1 where
  repositories := by
    have heffect : Registryd.DbEffect [id] none db (db.ensureRepository org name v id).1 :=
      (Registryd.DbEffect.ensureRepository hnew).1
    exact heffect.keyed h.repositories
  blobs := by
    rw [Registryd.Db.ensureRepository_blobs]
    exact h.blobs
  known := by
    have heffect : Registryd.DbEffect [id] none db (db.ensureRepository org name v id).1 :=
      (Registryd.DbEffect.ensureRepository hnew).1
    exact heffect.known h.known
  recorded := by
    unfold Db.ensureRepository
    split <;> exact h.recorded

/-! ## Linked blobs -/

theorem orgHasBlob_iff (h : Consistent db) :
    db.orgHasBlob org d = true ↔ ∃ n, (d, n) ∈ Store.orgStorageRows db org := by
  simp only [Db.orgHasBlob, any_eq_true, Bool.and_eq_true, decide_eq_true_eq,
    Store.mem_orgStorageRows, mem_linkedBlobs]
  constructor
  · rintro ⟨l, hl, rfl, r, hr, hid, horg⟩
    obtain ⟨b, hb, hd⟩ := h.recorded l hl
    exact ⟨b.size, r, b, ⟨hb, hr, l, hl, hd.symm, hid.symm⟩, horg, hd, rfl⟩
  · rintro ⟨n, r, b, ⟨_, hr, l, hl, hdigest, hid⟩, horg, hd, -⟩
    exact ⟨l, hl, hdigest.trans hd, r, hr, hid.symm, horg⟩

def SameLinked (db db' : Db) : Prop := ∀ x, x ∈ linkedBlobs db' ↔ x ∈ linkedBlobs db

theorem SameLinked.refl (db : Db) : SameLinked db db := fun _ => Iff.rfl

theorem SameLinked.trans {db₁ db₂ db₃ : Db} (h : SameLinked db₁ db₂) (h' : SameLinked db₂ db₃) :
    SameLinked db₁ db₃ := fun x => (h' x).trans (h x)

theorem sameLinked_insertBlob (h : Consistent db) (d : Digest) (size : Nat) (now : Time) :
    SameLinked db (db.insertBlob d size now) := by
  rintro ⟨r, b⟩
  rw [mem_linkedBlobs, mem_linkedBlobs]
  constructor
  · rintro ⟨hb, hr, l, hl, hdigest, hid⟩
    refine ⟨?_, hr, l, hl, hdigest, hid⟩
    -- the link has a row of its own, and keys are unique
    obtain ⟨b', hb', hd'⟩ := h.recorded l hl
    have heq : b = b' := Table.Keyed.eq_of_key (keyed_insertNew h.blobs) hb (mem_insertBlob hb')
      (hdigest.symm.trans hd'.symm)
    rw [heq]
    exact hb'
  · rintro ⟨hb, hr, hlink⟩
    exact ⟨mem_insertBlob hb, hr, hlink⟩

theorem sameLinked_ensureRepository (h : Consistent db)
    (hnew : ∀ row ∈ db.repositories, row.id ≠ id) :
    SameLinked db (db.ensureRepository org name v id).1 := by
  unfold Db.ensureRepository
  split
  · exact .refl db
  · rintro ⟨r, b⟩
    rw [mem_linkedBlobs, mem_linkedBlobs]
    constructor
    · rintro ⟨hb, hr, l, hl, hdigest, hid⟩
      refine ⟨hb, ?_, l, hl, hdigest, hid⟩
      rcases mem_append.mp hr with hr | hr
      · exact hr
      · obtain ⟨row, hrow, hrowid⟩ := h.known l hl
        rw [mem_singleton.mp hr] at hid
        exact absurd (hrowid.trans hid) (hnew row hrow)
    · rintro ⟨hb, hr, hlink⟩
      exact ⟨hb, mem_append_left _ hr, hlink⟩

def OneMore (db db' : Db) (r : Repository) (b : Blob) : Prop :=
  ∀ x, x ∈ linkedBlobs db' ↔ x ∈ linkedBlobs db ∨ x = (r, b)

theorem oneMore_linkBlob (h : Consistent db) (hr : r ∈ db.repositories)
    (hb : b ∈ db.blobs) : OneMore db (db.linkBlob r.id b.digest now) r b := by
  rintro ⟨r', b'⟩
  rw [mem_linkedBlobs, mem_linkedBlobs]
  constructor
  · rintro ⟨hb', hr', l, hl, hdigest, hid⟩
    rcases mem_of_mem_insertNew hl with hl | rfl
    · exact .inl ⟨hb', hr', l, hl, hdigest, hid⟩
    · have hrow : r = r' := h.repositories.eq_of_key hr hr' hid
      have hblob : b = b' := h.blobs.eq_of_key hb hb' hdigest
      rw [hrow, hblob]
      exact .inr rfl
  · rintro (⟨hb', hr', l, hl, hlink⟩ | heq)
    · exact ⟨hb', hr', l, mem_insertNew_of_mem hl, hlink⟩
    · cases heq
      have hnew : ∃ l ∈ (db.linkBlob r.id b.digest now).repositoryBlobs,
          (l.repositoryId, l.blobDigest) = (r.id, b.digest) := exists_key_insertNew _ _
      obtain ⟨l, hl, hkey⟩ := hnew
      exact ⟨hb, hr, l, hl, congrArg Prod.snd hkey, congrArg Prod.fst hkey⟩

end tables

/-- The organization's usage is within its own limit. -/
def WithinOrganization (a : Accounts) (db : Db) (org : OrgId) : Prop :=
  ∀ limit, a.organizationLimit org .storage = some limit →
    (Store.orgStorageUsed db org : Int) ≤ limit

/-- The usage of the user's pool is within the limit of the account. -/
def WithinOwner (a : Accounts) (db : Db) (user : UserId) : Prop :=
  ∀ limit, a.userLimit user .storage = some limit → (Store.ownerStorageUsed a db user : Int) ≤ limit

/-- The blob may be added to the organization: it holds it, or the quota has room. -/
def Cleared (a : Accounts) (db : Db) (org : OrgId) (d : Digest) (n : Nat) : Prop :=
  db.orgHasBlob org d = true ∨ Store.checkContentQuota a db org n = none

structure Deposit (a : Accounts) (db db' : Db) (r : Repository) (b : Blob) : Prop where
  rows : OneMore db db' r b
  unique : ∀ b' ∈ db.blobs, b'.digest = b.digest → b' = b
  cleared : Cleared a db r.orgId b.digest b.size

section usage

variable {a : Accounts} {db db' : Db} {org : OrgId} {user : UserId} {r : Repository} {b : Blob}

variable {x : Digest × Nat}

section

variable (h : SameLinked db db')
include h

theorem SameLinked.mem_orgStorageRows :
    x ∈ Store.orgStorageRows db' org ↔ x ∈ Store.orgStorageRows db org := by
  obtain ⟨d, n⟩ := x
  rw [Store.mem_orgStorageRows, Store.mem_orgStorageRows]
  refine exists_congr fun r => exists_congr fun b => ?_
  rw [h (r, b)]

theorem SameLinked.orgStorageUsed : Store.orgStorageUsed db' org = Store.orgStorageUsed db org :=
  total_congr fun _ => h.mem_orgStorageRows

theorem SameLinked.ownerStorageUsed :
    Store.ownerStorageUsed a db' user = Store.ownerStorageUsed a db user := by
  refine total_congr ?_
  rintro ⟨o, x⟩
  rw [Store.mem_ownerStorageRows, Store.mem_ownerStorageRows, h.mem_orgStorageRows]

theorem SameLinked.checkContentQuota (n : Nat) :
    Store.checkContentQuota a db' org n = Store.checkContentQuota a db org n := by
  have howner (u : UserId) : Store.ownerStorageUsed a db' u = Store.ownerStorageUsed a db u :=
    h.ownerStorageUsed
  unfold Store.checkContentQuota
  simp only [h.orgStorageUsed, howner]

theorem SameLinked.orgHasBlob (hdb : Consistent db) (hdb' : Consistent db') {d : Digest}
    : db'.orgHasBlob org d = db.orgHasBlob org d := by
  rw [Bool.eq_iff_iff, orgHasBlob_iff hdb, orgHasBlob_iff hdb']
  exact exists_congr fun n => h.mem_orgStorageRows

end

theorem Cleared.of_same {d : Digest} {n : Nat} (h : Cleared a db org d n)
    (hsame : SameLinked db db') (hdb : Consistent db) (hdb' : Consistent db') :
    Cleared a db' org d n := by
  unfold Cleared
  rw [hsame.orgHasBlob hdb hdb', hsame.checkContentQuota]
  exact h

/-! ### One link more -/

theorem OneMore.mem_orgStorageRows (h : OneMore db db' r b) :
    x ∈ Store.orgStorageRows db' org ↔
      (r.orgId = org ∧ x = (b.digest, b.size)) ∨ x ∈ Store.orgStorageRows db org := by
  obtain ⟨d, n⟩ := x
  rw [Store.mem_orgStorageRows, Store.mem_orgStorageRows]
  constructor
  · rintro ⟨r', b', hlinked, horg, hd, hn⟩
    rcases (h (r', b')).mp hlinked with hold | heq
    · exact .inr ⟨r', b', hold, horg, hd, hn⟩
    · cases heq
      rw [← hd, ← hn]
      exact .inl ⟨horg, rfl⟩
  · rintro (⟨horg, heq⟩ | ⟨r', b', hold, hrest⟩)
    · cases heq
      exact ⟨r, b, (h (r, b)).mpr (.inr rfl), horg, rfl, rfl⟩
    · exact ⟨r', b', (h (r', b')).mpr (.inl hold), hrest⟩

namespace Deposit

section

variable (h : Deposit a db db' r b) (hdb : Consistent db)
include h hdb

theorem mem_rows_iff :
    (b.digest, b.size) ∈ Store.orgStorageRows db org ↔ db.orgHasBlob org b.digest = true := by
  rw [orgHasBlob_iff hdb]
  constructor
  · intro hmem
    exact ⟨b.size, hmem⟩
  · rintro ⟨n, hmem⟩
    obtain ⟨r', b', hlinked, -, hd, hn⟩ := Store.mem_orgStorageRows.mp hmem
    rw [h.unique b' (mem_linkedBlobs.mp hlinked).1 hd] at hn
    rw [hn]
    exact hmem

theorem same_of_held (hheld : db.orgHasBlob r.orgId b.digest = true) :
    x ∈ Store.orgStorageRows db' org ↔ x ∈ Store.orgStorageRows db org := by
  rw [h.rows.mem_orgStorageRows]
  constructor
  · rintro (⟨rfl, rfl⟩ | hold)
    · exact (h.mem_rows_iff hdb).mpr hheld
    · exact hold
  · intro hold
    exact .inr hold

theorem orgStorageUsed (org : OrgId) :
    Store.orgStorageUsed db' org = Store.orgStorageUsed db org +
      if org = r.orgId ∧ db.orgHasBlob org b.digest = false then b.size else 0 := by
  by_cases horg : org = r.orgId
  · subst horg
    by_cases hheld : db.orgHasBlob r.orgId b.digest = true
    · rw [if_neg (by simp [hheld])]
      exact total_congr fun _ => h.same_of_held hdb hheld
    · rw [if_pos ⟨rfl, Bool.eq_false_iff.mpr hheld⟩]
      refine total_insert (r := (b.digest, b.size)) (fun x => ?_) ?_
      · rw [h.rows.mem_orgStorageRows]
        exact or_congr_left (and_iff_right rfl)
      · rw [h.mem_rows_iff hdb]
        exact hheld
  · rw [if_neg (fun hand => horg hand.1)]
    refine total_congr fun x => ?_
    rw [h.rows.mem_orgStorageRows]
    exact or_iff_right fun hand => horg hand.1.symm

theorem ownerStorageUsed (user : UserId) :
    Store.ownerStorageUsed a db' user = Store.ownerStorageUsed a db user ∨
      (a.InPool .storage user r.orgId ∧ db.orgHasBlob r.orgId b.digest = false ∧
        Store.ownerStorageUsed a db' user = Store.ownerStorageUsed a db user + b.size) := by
  by_cases hheld : db.orgHasBlob r.orgId b.digest = true
  · left
    refine total_congr ?_
    rintro ⟨o, x⟩
    rw [Store.mem_ownerStorageRows, Store.mem_ownerStorageRows, h.same_of_held hdb hheld]
  · by_cases hpool : a.InPool .storage user r.orgId
    · right
      refine ⟨hpool, Bool.eq_false_iff.mpr hheld, ?_⟩
      refine total_insert (r := (r.orgId, b.digest, b.size)) ?_ ?_
      · rintro ⟨o, d, n⟩
        rw [Store.mem_ownerStorageRows, Store.mem_ownerStorageRows, h.rows.mem_orgStorageRows]
        constructor
        · rintro ⟨⟨rfl, heq⟩ | hold, hin⟩
          · cases heq
            exact .inl rfl
          · exact .inr ⟨hold, hin⟩
        · rintro (heq | ⟨hold, hin⟩)
          · cases heq
            exact ⟨.inl ⟨rfl, rfl⟩, hpool⟩
          · exact ⟨.inr hold, hin⟩
      · rw [Store.mem_ownerStorageRows, h.mem_rows_iff hdb]
        exact fun hmem => hheld hmem.1
    · left
      refine total_congr ?_
      rintro ⟨o, x⟩
      rw [Store.mem_ownerStorageRows, Store.mem_ownerStorageRows, h.rows.mem_orgStorageRows]
      constructor
      · rintro ⟨⟨rfl, -⟩ | hold, hin⟩
        · exact absurd hin hpool
        · exact ⟨hold, hin⟩
      · rintro ⟨hold, hin⟩
        exact ⟨.inr hold, hin⟩

theorem withinOrganization (hwithin : WithinOrganization a db org)
    : WithinOrganization a db' org := by
  intro limit hlimit
  have hbefore : (Store.orgStorageUsed db org : Int) ≤ limit := hwithin limit hlimit
  rw [h.orgStorageUsed hdb org]
  split
  · rename_i hnew
    obtain ⟨rfl, hnew⟩ := hnew
    rcases h.cleared with hheld | hfree
    · rw [hnew] at hheld
      cases hheld
    · have hroom := (Store.checkContentQuota_limited hlimit).mp hfree
      omega
  · omega

theorem withinOwner (hwithin : WithinOwner a db user) : WithinOwner a db' user := by
  intro limit hlimit
  have hbefore : (Store.ownerStorageUsed a db user : Int) ≤ limit := hwithin limit hlimit
  rcases h.ownerStorageUsed hdb user with hsame | ⟨⟨howns, hnull⟩, hnew, hgrown⟩
  · rw [hsame]
    exact hbefore
  · rcases h.cleared with hheld | hfree
    · rw [hnew] at hheld
      cases hheld
    · -- every owner with a limit was asked
      have hroom := (Store.checkContentQuota_pooled hnull).mp hfree user limit howns hlimit
      rw [hgrown]
      omega

end

end Deposit

end usage

/-! ## Handler runs under a storage quota

The handlers of registryd that write content, run to their end one after the other, with
the answers of their storage checks computed from the tables and the limits. What one call
does is said for each handler; the room a check found is still there when the handler
writes, because nothing else links a blob meanwhile. -/

open Registryd

/-- The organization whose storage the next call of `resolveRepoForWrite` checks. -/
def asksStorage : ResolvePc → Option OrgId
  | .storageQuota r => some r.orgId
  | .newStorageQuota o _ => some o
  | _ => none

/-- The storage check the next call of a request makes, and what it finds. An upload is
checked with the bytes of its session, a mount with the recorded size that `LinkedBlobSize`
answered, a manifest with no bytes, a proxied blob with its size where it is new. -/
def storageCheck (a : Accounts) (s : Registry) : Task → Option (Option Store.QuotaError)
  | .content (.commit rq (.resolve _ pc)) =>
    (asksStorage pc).map fun o => Store.checkContentQuota a s.db o rq.session.offset
  | .mount rq (.resolve pc) =>
    (asksStorage pc).map fun o =>
      Store.checkContentQuota a s.db o ((s.db.blobExists rq.digest).getD 0)
  | .manifestPut _ (.resolve pc) =>
    (asksStorage pc).map fun o => Store.checkContentQuota a s.db o 0
  | .blobGet rq (.storageQuota r size) =>
    some (if s.db.orgHasBlob r.orgId rq.digest then none
      else Store.checkContentQuota a s.db r.orgId size)
  | _ => none

/-- A check answers as the limits say. -/
def Judged (a : Accounts) (s : Registry) (t : Task) (reply : Reply) : Prop :=
  ∀ verdict, storageCheck a s t = some verdict →
    (reply = .answer .ok → verdict = none) ∧ (reply = .answer .refused → verdict ≠ none)

/-- What goes on besides the handler: time, the proxies' configuration, and downloads. A
download that fails does so with the status of an error. -/
def Background : RegistryEnv → Prop
  | .tick _ | .proxies _ | .download _ (.body _ _) | .download _ (.answer _) => True
  | .download _ (.error n) => 400 ≤ n
  | .deleteRepository _ | .deleteManifest _ _ => False

inductive HandlerRun (hash : Bytes → Digest) (a : Accounts) (s₀ : Registry) (t₀ : Task) :
    Registry → Task → Prop
  | refl : HandlerRun hash a s₀ t₀ s₀ t₀
  | call {s s' : Registry} {t t' : Task} {i : Nat} {reply : Reply}
      (run : HandlerRun hash a s₀ t₀ s t) (judged : Judged a s t reply)
      (act : requestAct hash s i t reply = some (s', t')) : HandlerRun hash a s₀ t₀ s' t'
  | background {s s' : Registry} {t : Task} {e : RegistryEnv}
      (run : HandlerRun hash a s₀ t₀ s t) (quiet : Background e)
      (act : registryEnv hash s e = some s') : HandlerRun hash a s₀ t₀ s' t

def writesContent : Task → Prop
  | .content (.commit _ .stat) => True
  | .mount _ .getSource => True
  | .manifestPut _ (.resolve .getRepository) => True
  | .blobGet _ .getRepository => True
  | _ => False

def status : Task → Option Nat
  | .content (.done n) => some n
  | .mount _ (.done n) => some n
  | .manifestPut _ (.done n) => some n
  | .manifestGet _ (.done n) => some n
  | .blobGet _ (.done n) => some n
  | _ => none

structure CompleteRun (hash : Bytes → Digest) (a : Accounts) (s : Registry) (t : Task)
    (s' : Registry) (n : Nat) : Prop where
  writes : writesContent t
  run : ∃ t', HandlerRun hash a s t s' t' ∧ status t' = some n

inductive Runs (hash : Bytes → Digest) (a : Accounts) (s₀ : Registry) : Registry → Prop
  | nil : Runs hash a s₀ s₀
  | snoc {s s' : Registry} {t : Task} {n : Nat} (before : Runs hash a s₀ s)
      (run : CompleteRun hash a s t s' n) : Runs hash a s₀ s'

def accepted : Task → Nat
  | .blobGet _ _ => 200
  | _ => 201

/-- The organization uses more by the size of a digest's content, where it did not hold it,
and no other organization's usage changes. -/
def UsageGrows (s s' : Registry) (org : OrgId) (d : Digest) (n : Nat) : Prop :=
  ∀ o, Store.orgStorageUsed s'.db o = Store.orgStorageUsed s.db o +
    if o = org ∧ s.db.orgHasBlob o d = false then n else 0

/-- What an accepted request adds: the content of its blob, or nothing. -/
def AddsContent (s s' : Registry) : Task → Prop
  | .content (.commit rq _) => ∃ r, s'.db.getRepository rq.org rq.name = some r ∧
      UsageGrows s s' r.orgId rq.expected rq.session.content.length
  | .mount rq _ => ∃ r b, s'.db.getRepository rq.org rq.name = some r ∧ b ∈ s'.db.blobs ∧
      b.digest = rq.digest ∧ UsageGrows s s' r.orgId rq.digest b.size
  | .manifestPut _ _ => ∀ o, Store.orgStorageUsed s'.db o = Store.orgStorageUsed s.db o
  | .blobGet rq _ => ∃ r b, r ∈ s'.db.repositories ∧ b ∈ s'.db.blobs ∧
      b.digest = rq.digest ∧ UsageGrows s s' r.orgId rq.digest b.size
  | _ => True

/-! ## Sound states -/

def Sized (hash : Bytes → Digest) (d : Digest) (n : Nat) : Prop :=
  ∃ c, hash c = d ∧ c.length = n

/-- What a download has of the content is content of its digest, once it was hashed, and
its failures are errors. -/
def Hashed (hash : Bytes → Digest) (d : Digest) : DownloadPc → Prop
  | .lateQuota c | .stat c | .put c | .register c => hash c = d
  | .finished n => Sized hash d n
  | .failed n => 400 ≤ n
  | _ => True

/-- The tables keep their keys, and what is recorded of content is its size. -/
structure Sound (hash : Bytes → Digest) (s : Registry) : Prop where
  tables : Consistent s.db
  sizes : ∀ b ∈ s.db.blobs, Sized hash b.digest b.size
  downloads : ∀ dl ∈ s.downloads, Hashed hash dl.digest dl.pc

/-- What stays while no blob is linked and no repository created. -/
structure Quiet (s s' : Registry) : Prop where
  organizations : s'.db.organizations = s.db.organizations
  repositories : s'.db.repositories = s.db.repositories
  blobs : ∀ b ∈ s.db.blobs, b ∈ s'.db.blobs
  linked : SameLinked s.db s'.db
  calls : ∀ i d, s.callDigest i = some d → s'.callDigest i = some d

section background

variable {hash : Bytes → Digest} {s s' : Registry}

theorem Quiet.refl (s : Registry) : Quiet s s :=
  ⟨rfl, rfl, fun _ hb => hb, .refl s.db, fun _ _ h => h⟩

theorem downloadStep_recorded {dl : Download} {reply : DownloadReply} {pc pc' : DownloadPc}
    (hpc : Hashed hash dl.digest pc) (hreply : ∀ n, reply = .error n → 400 ≤ n)
    (h : downloadStep hash s dl pc reply = some (s', pc')) :
    Hashed hash dl.digest pc' ∧ s'.downloads = s.downloads ∧
      (s'.db = s.db ∨ ∃ c, hash c = dl.digest ∧
        s'.db = s.db.insertBlob dl.digest c.length s.storage.now) := by
  have hbroken : 400 ≤ 502 := by decide
  cases downloadStep_call h with
  | error => exact ⟨hreply _ rfl, rfl, .inl rfl⟩
  | refused high => exact ⟨high, rfl, .inl rfl⟩
  | announced | unannounced | room => exact ⟨trivial, rfl, .inl rfl⟩
  | stagedLate digest | staged digest => exact ⟨digest, rfl, .inl rfl⟩
  | lateRoom | stored | missing | put => exact ⟨hpc, rfl, .inl rfl⟩
  | putLost => exact ⟨hbroken, rfl, .inl rfl⟩
  | register => exact ⟨⟨_, hpc, rfl⟩, rfl, .inr ⟨_, hpc, rfl⟩⟩
  | registerLost => exact ⟨hbroken, rfl, .inr ⟨_, hpc, rfl⟩⟩

theorem Sound.insertBlob (h : Sound hash s) {d : Digest} {c : Bytes} (hc : hash c = d)
    (now : Time) : ∀ b ∈ (s.db.insertBlob d c.length now).blobs, Sized hash b.digest b.size := by
  intro b hb
  rcases mem_of_mem_insertNew hb with hb | rfl
  · exact h.sizes b hb
  · exact ⟨c, hc, rfl⟩

theorem background_step {e : RegistryEnv} (hs : Sound hash s) (hquiet : Background e)
    (h : registryEnv hash s e = some s') : Sound hash s' ∧ Quiet s s' := by
  cases e with
  | tick t | proxies configuration =>
    cases h
    exact ⟨⟨hs.tables, hs.sizes, hs.downloads⟩, ⟨rfl, rfl, fun _ hb => hb, .refl _, fun _ _ h => h⟩⟩
  | deleteRepository repo | deleteManifest repo d => cases hquiet
  | download call reply =>
    have hreply : ∀ n, reply = .error n → 400 ≤ n := by
      intro n hn
      subst hn
      exact hquiet
    unfold registryEnv downloadCall at h
    cases hdl : s.downloads[call]? with
    | none => simp [hdl] at h
    | some dl =>
      simp only [hdl] at h
      obtain ⟨⟨s₁, pc'⟩, hstep, h⟩ := Option.map_eq_some_iff.mp h
      cases h
      obtain ⟨hpc', -, hdb⟩ :=
        downloadStep_recorded (hs.downloads dl (mem_of_getElem? hdl)) hreply hstep
      have hcalls : ∀ x ∈ s.downloads.set call { dl with pc := pc' }, Hashed hash x.digest x.pc := by
        intro x hx
        rcases mem_or_eq_of_mem_set hx with hx | rfl
        · exact hs.downloads x hx
        · exact hpc'
      have hdigest : ∀ i d, s.callDigest i = some d →
          ((s.downloads.set call { dl with pc := pc' })[i]?.map Download.digest) = some d := by
        intro i d hi
        rw [getElem?_set]
        unfold Registry.callDigest at hi
        split
        · rename_i heq
          subst heq
          rw [hdl] at hi
          rw [if_pos (List.getElem?_eq_some_iff.mp hdl).1]
          exact hi
        · exact hi
      rcases hdb with hdb | ⟨c, hc, hdb⟩
      · have hdb : s₁.db = s.db := hdb
        refine ⟨⟨?_, ?_, hcalls⟩, ⟨?_, ?_, ?_, ?_, hdigest⟩⟩
        · rw [hdb]
          exact hs.tables
        · rw [hdb]
          exact hs.sizes
        · rw [hdb]
        · rw [hdb]
        · rw [hdb]
          exact fun _ hb => hb
        · rw [hdb]
          exact .refl _
      · refine ⟨⟨?_, ?_, hcalls⟩, ⟨?_, ?_, ?_, ?_, hdigest⟩⟩
        · show Consistent s₁.db
          rw [hdb]
          exact hs.tables.insertBlob _ _ _
        · show ∀ b ∈ s₁.db.blobs, _
          rw [hdb]
          exact hs.insertBlob hc _
        · show s₁.db.organizations = _
          rw [hdb]
          rfl
        · show s₁.db.repositories = _
          rw [hdb]
          rfl
        · show ∀ b ∈ _, b ∈ s₁.db.blobs
          rw [hdb]
          exact fun _ hb => mem_insertBlob hb
        · show SameLinked s.db s₁.db
          rw [hdb]
          exact sameLinked_insertBlob hs.tables _ _ _

end background

end Chicoree.Quotas
