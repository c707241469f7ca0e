import Chicoree.Quotas.StorageKept

/-! # Pushes over the limit

What a push is refused storage for: an upload commit, a mount or a manifest, run alone. The
check is asked for the digest and the size that its caller passes, and a manifest passes its
own digest, which is no blob of the organization, with no bytes; above the limit even that
is too much. -/

namespace Chicoree.Quotas

open Registryd Option Store

/-! ## Pushes -/

/-- What a push asks room for. -/
structure Push where
  org : String
  name : String
  digest : Digest
  size : Nat

/-- An upload asks for the bytes of its session, a mount for the recorded size, a manifest
for none. -/
def pushOf (db : Db) : Task → Option Push
  | .content (.commit rq _) => some ⟨rq.org, rq.name, rq.expected, rq.session.offset⟩
  | .mount rq _ => some ⟨rq.org, rq.name, rq.digest, (db.blobExists rq.digest).getD 0⟩
  | .manifestPut rq _ => some ⟨rq.org, rq.name, rq.manifest.digest, 0⟩
  | _ => none

def newBytes (db : Db) (org : OrgId) (p : Push) : Nat :=
  if db.orgHasBlob org p.digest then 0 else p.size

/-- So many bytes more would leave the usage above the limit of the organization, or, where
it has none, above that of an owner. -/
def Exceeds (a : Accounts) (db : Db) (org : OrgId) (n : Nat) : Prop :=
  match a.organizationLimit org .storage with
  | some limit => limit < (orgStorageUsed db org : Int) + n
  | none => ∃ user limit, a.Owns user org ∧ a.userLimit user .storage = some limit ∧
      limit < (ownerStorageUsed a db user : Int) + n

/-- The calls of a push that runs alone, with its storage checks answered as the limits
say. -/
inductive PushCalls (hash : Bytes → Digest) (a : Accounts) (s₀ : Registry) (t₀ : Task) :
    Registry → Task → Prop
  | refl : PushCalls hash a s₀ t₀ s₀ t₀
  | call {s s' : Registry} {t t' : Task} {i : Nat} {reply : Reply}
      (run : PushCalls hash a s₀ t₀ s t) (judged : Judged a s t reply)
      (act : requestAct hash s i t reply = some (s', t')) : PushCalls hash a s₀ t₀ s' t'

def admitted : Task → Bool
  | .content (.commit _ (.put _)) => true
  | .content (.commit _ (.upsertBlob _)) => true
  | .mount _ (.linkBlob _) => true
  | .manifestPut _ (.checkTagImmutable _) => true
  | .manifestPut _ (.blobs _ _) => true
  | .manifestPut _ (.children _ _) => true
  | .manifestPut _ (.upsertManifest _) => true
  | .manifestPut _ .upsertTagGuarded => true
  | _ => false

/-- The push gets as far as a storage check. -/
def Asks (hash : Bytes → Digest) (a : Accounts) (s₀ : Registry) (t₀ : Task) : Prop :=
  ∃ s t verdict, PushCalls hash a s₀ t₀ s t ∧ storageCheck a s t = some verdict

/-- What is promised of a push: its storage check refuses it only for new bytes that exceed
a limit, and it is not admitted with such. -/
structure OnlyNewLayers (hash : Bytes → Digest) (a : Accounts) (s₀ : Registry) (t₀ : Task)
    (p : Push) : Prop where
  refused : ∀ s t e, PushCalls hash a s₀ t₀ s t → storageCheck a s t = some (some e) →
    ∃ org, s₀.db.orgIdBySlug p.org = some org ∧ 0 < newBytes s₀.db org p ∧
      Exceeds a s₀.db org (newBytes s₀.db org p)
  admitted : ∀ s t, PushCalls hash a s₀ t₀ s t → admitted t = true →
    ∀ org, s₀.db.orgIdBySlug p.org = some org →
      ¬(0 < newBytes s₀.db org p ∧ Exceeds a s₀.db org (newBytes s₀.db org p))

/-! ## Resolving the repository -/

variable {pc : ResolvePc} {ans : Answer} {out : Resolved} {db' : Db}

section resolve

variable {a : Accounts} {db : Db} {p : Push} {org : OrgId}

theorem checkContentQuota_iff {n : Nat} :
    checkContentQuota a db org n ≠ none ↔ Exceeds a db org n := by
  unfold Exceeds
  cases hlimit : a.organizationLimit org .storage with
  | some limit =>
    rw [ne_eq, checkContentQuota_limited hlimit]
    simp only [not_le]
  | none =>
    rw [ne_eq, checkContentQuota_pooled hlimit]
    simp only [not_forall, not_le, exists_prop]

/-- The content is there already, or there is room for it. -/
def Settled (a : Accounts) (db : Db) (p : Push) : Prop :=
  ∀ org, db.orgIdBySlug p.org = some org →
    db.orgHasBlob org p.digest = true ∨ checkContentQuota a db org p.size = none

/-- What the resolution of a repository has found out before a call. -/
def Found (a : Accounts) (db : Db) (p : Push) : ResolvePc → Prop
  | .getRepository | .moved | .orgIdBySlug => True
  | .orgHasBlob r => db.orgIdBySlug p.org = some r.orgId
  | .storageQuota r =>
    db.orgIdBySlug p.org = some r.orgId ∧ db.orgHasBlob r.orgId p.digest = false
  | .defaultVisibility o | .repositoryQuota o _ | .newOrgHasBlob o _ =>
    db.orgIdBySlug p.org = some o
  | .newStorageQuota o _ =>
    db.orgIdBySlug p.org = some o ∧ db.orgHasBlob o p.digest = false
  | .ensureGet _ | .ensureOrgId _ | .ensureInsert _ _ => Settled a db p

theorem Found.asks (h : Found a db p pc) (hasks : asksStorage pc = some org) :
    db.orgIdBySlug p.org = some org ∧ db.orgHasBlob org p.digest = false := by
  cases pc <;> simp only [asksStorage, reduceCtorEq, Option.some.injEq] at hasks
  all_goals
    subst hasks
    exact h

/-- What a call of the resolution leaves known. -/
def Learned (a : Accounts) (db : Db) (p : Push) : Resolved → Prop
  | .more pc => Found a db p pc
  | .repo _ => Settled a db p
  | .answered _ => True

/-- One call of the resolution: it goes on with what it found, or has the repository of a
push that is settled. -/
theorem resolveRead_learned (h : Found a db p pc)
    (hjudged : ∀ o, asksStorage pc = some o → ans = .ok →
      checkContentQuota a db o p.size = none)
    (hread : ReadCall db p.org p.name p.digest pc ans out) : Learned a db p out := by
  have hsettled : ∀ o, db.orgIdBySlug p.org = some o →
      db.orgHasBlob o p.digest = true ∨ checkContentQuota a db o p.size = none →
        Settled a db p := by
    intro o ho hor o' ho'
    rw [ho] at ho'
    cases ho'
    exact hor
  cases hread with
  | answered | unknown | stayed => trivial
  | known row => exact getRepository_orgId row
  | held held => exact hsettled _ h (.inl held)
  | lacking lacking | newLacking lacking => exact ⟨h, lacking⟩
  | room => exact hsettled _ h.1 (.inr (hjudged _ rfl rfl))
  | org slug => exact slug
  | @newHeld o v held => exact hsettled o h (.inl held)
  | @newRoom o v => exact hsettled o h.1 (.inr (hjudged _ rfl rfl))
  | visibility | allowed | there | missing | ensureOrg => exact h

/-- The same of a call of `resolveRepoForWrite`, which changes the tables only where it
creates the repository, and is done then. -/
theorem resolveStep_learned (h : Found a db p pc)
    (hjudged : ∀ o, asksStorage pc = some o → ans = .ok →
      checkContentQuota a db o p.size = none)
    (hstep : resolveStep db p.org p.name p.digest pc ans = some (db', out)) :
    Learned a db p out ∧ ∀ pc', out = .more pc' → db' = db := by
  cases resolveStep_call hstep with
  | read reads => exact ⟨resolveRead_learned h hjudged reads, fun _ _ => rfl⟩
  | @insert o v id acked fresh =>
    cases acked with
    | true => exact ⟨h, nofun⟩
    | false => exact ⟨trivial, nofun⟩

end resolve

/-! ## A push alone -/

section alone

variable {hash : Bytes → Digest} {a : Accounts} {s₀ s s' : Registry} {t₀ t t' : Task} {p : Push}

/-- How far a push has come: nothing is written before it is settled. -/
def PushStage (a : Accounts) (s₀ s : Registry) (p : Push) : Task → Prop
  | .content (.commit rq .stat) => s.db = s₀.db ∧ pushOf s₀.db (.content (.commit rq .stat)) = some p
  | .content (.commit rq (.resolve found pc)) => s.db = s₀.db ∧
      pushOf s₀.db (.content (.commit rq (.resolve found pc))) = some p ∧ Found a s₀.db p pc
  | .mount rq (.resolve pc) =>
    s.db = s₀.db ∧ pushOf s₀.db (.mount rq (.resolve pc)) = some p ∧ Found a s₀.db p pc
  | .mount _ (.done _) | .content (.done _) | .manifestPut _ (.done _) => True
  | .mount rq .getSource => s.db = s₀.db ∧ pushOf s₀.db (.mount rq .getSource) = some p
  | .mount rq (.linkedBlobSize r) =>
    s.db = s₀.db ∧ pushOf s₀.db (.mount rq (.linkedBlobSize r)) = some p
  | .manifestPut rq (.resolve pc) => s.db = s₀.db ∧
      pushOf s₀.db (.manifestPut rq (.resolve pc)) = some p ∧ Found a s₀.db p pc
  | .content (.commit _ _) | .mount _ _ | .manifestPut _ _ => Settled a s₀.db p
  | _ => False

variable {reply : Reply}

/-- A call of `resolveRepoForWrite` for the push whose storage the task has checked. -/
theorem Judged.learns {push : Push} (h : Judged a s t (.answer ans))
    (hpush : pushOf s.db t = some push)
    (hcheck : storageCheck a s t =
      (asksStorage pc).map fun o => checkContentQuota a s.db o push.size)
    (hstage : s.db = s₀.db ∧ pushOf s₀.db t = some p ∧ Found a s₀.db p pc)
    (hstep : resolveStep s.db push.org push.name push.digest pc ans = some (db', out)) :
    Learned a s₀.db p out ∧ ∀ pc', out = .more pc' → db' = s₀.db := by
  obtain ⟨hdb, hp, hfound⟩ := hstage
  rw [hdb] at hpush hcheck hstep
  obtain rfl : push = p := Option.some.inj (hpush.symm.trans hp)
  refine resolveStep_learned hfound (fun o ho hok => ?_) hstep
  subst hok
  refine (h _ ?_).1 rfl
  rw [hcheck, ho]
  rfl

theorem commit_stage {rq : CommitRequest} {pc : CommitPc} {storage : Storage}
    {task : BlobTask} (h : PushStage a s₀ s p (.content (.commit rq pc)))
    (hjudged : Judged a s (.content (.commit rq pc)) (.answer ans))
    (hcall : commitUpload hash s.storage rq pc ans = some (storage, task)) :
    PushStage a s₀ { s with storage := storage } p (.content task) := by
  cases commitUpload_call hcall with
  | found | missing => exact ⟨h.1, h.2, trivial⟩
  | answered | resolveAnswered | putLost | upsert | upsertLost => trivial
  | more resolve =>
    obtain ⟨hfound, hsame⟩ := hjudged.learns rfl rfl h resolve
    exact ⟨hsame _ rfl, h.2.1, hfound⟩
  | resolved resolve => split <;> exact (hjudged.learns rfl rfl h resolve).1
  | put => exact h

theorem mount_stage {rq : MountRequest} {pc pc' : MountPc} (h : PushStage a s₀ s p (.mount rq pc))
    (hjudged : Judged a s (.mount rq pc) (.answer ans))
    (hcall : tryMount s rq pc ans = some (s', pc')) : PushStage a s₀ s' p (.mount rq pc') := by
  cases tryMount_call hcall with
  | answered | resolveAnswered | mount | mountLost => trivial
  | source => exact h
  | linked => exact ⟨h.1, h.2, trivial⟩
  | more resolve =>
    obtain ⟨hfound, hsame⟩ := hjudged.learns rfl rfl h resolve
    exact ⟨hsame _ rfl, h.2.1, hfound⟩
  | resolved resolve => exact (hjudged.learns rfl rfl h resolve).1

theorem manifestPut_stage {rq : ManifestPut} {pc pc' : ManifestPutPc}
    (h : PushStage a s₀ s p (.manifestPut rq pc))
    (hjudged : Judged a s (.manifestPut rq pc) (.answer ans))
    (hcall : handleManifestPut s rq pc ans = some (s', pc')) :
    PushStage a s₀ s' p (.manifestPut rq pc') := by
  cases handleManifestPut_call hcall with
  | answered | resolveAnswered | upsertLost => trivial
  | more resolve =>
    obtain ⟨hfound, hsame⟩ := hjudged.learns rfl rfl h resolve
    exact ⟨hsame _ rfl, h.2.1, hfound⟩
  | resolved resolve => split <;> exact (hjudged.learns rfl rfl h resolve).1
  | mutable | blob | allBlobs | child | allChildren => exact h
  | upsert =>
    split
    · exact h
    · trivial

theorem PushStage.congr (h : PushStage a s₀ s p t) (hdb : s'.db = s.db) :
    PushStage a s₀ s' p t := by
  unfold PushStage at h ⊢
  split at h
  all_goals first
    | exact ⟨hdb.trans h.1, h.2⟩
    | exact h

theorem requestAct_stage {i : Nat} (h : PushStage a s₀ s p t)
    (hjudged : Judged a s t reply) (hact : requestAct hash s i t reply = some (s', t')) :
    PushStage a s₀ s' p t' := by
  unfold requestAct at hact
  split at hact
  · cases hact
  · obtain ⟨out, hcall, heq⟩ := map_eq_some_iff.mp hact
    cases heq
    suffices hstage : PushStage a s₀ out.1 p out.2 from hstage.congr rfl
    cases reply with
    | answer ans =>
      cases t with
      | content task =>
        obtain ⟨res, hblob, rfl⟩ := map_eq_some_iff.mp hcall
        cases task with
        | commit rq pc => exact commit_stage h hjudged hblob
        | done n => simp [blobAct] at hblob
        | blobDelete org name d pc | gc grace pc => exact h.elim
      | mount rq pc =>
        obtain ⟨res, hmount, rfl⟩ := map_eq_some_iff.mp hcall
        exact mount_stage h hjudged hmount
      | manifestPut rq pc =>
        obtain ⟨res, hput, rfl⟩ := map_eq_some_iff.mp hcall
        exact manifestPut_stage h hjudged hput
      | manifestGet rq pc | blobGet rq pc => exact h.elim
    | _ =>
      cases t with
      | manifestGet rq pc | blobGet rq pc => exact h.elim
      | _ => simp [requestCall] at hcall

theorem pushStage_start (hwrites : writesContent t₀) (hpush : pushOf s₀.db t₀ = some p) :
    PushStage a s₀ s₀ p t₀ := by
  unfold writesContent at hwrites
  split at hwrites
  · exact ⟨rfl, hpush⟩
  · exact ⟨rfl, hpush⟩
  · exact ⟨rfl, hpush, trivial⟩
  · cases hpush
  · exact hwrites.elim

theorem PushCalls.stage (hwrites : writesContent t₀) (hpush : pushOf s₀.db t₀ = some p)
    (h : PushCalls hash a s₀ t₀ s t) : PushStage a s₀ s p t := by
  induction h with
  | refl => exact pushStage_start hwrites hpush
  | call _ judged act ih => exact requestAct_stage ih judged act

theorem PushStage.settled (h : PushStage a s₀ s p t) (hadmitted : admitted t = true) :
    Settled a s₀.db p := by
  unfold admitted at hadmitted
  split at hadmitted <;> first | exact h | cases hadmitted

theorem PushStage.check (h : PushStage a s₀ s p t) {verdict : Option Store.QuotaError}
    (hcheck : storageCheck a s t = some verdict) :
    ∃ org, s₀.db.orgIdBySlug p.org = some org ∧ s₀.db.orgHasBlob org p.digest = false ∧
      checkContentQuota a s₀.db org p.size = verdict := by
  unfold storageCheck at hcheck
  split at hcheck
  case h_4 => exact h.elim
  case h_5 => cases hcheck
  all_goals
    obtain ⟨hdb, hpush, hfound⟩ := h
    obtain ⟨org, hasks, hverdict⟩ := map_eq_some_iff.mp hcheck
    obtain ⟨horg, hhas⟩ := hfound.asks hasks
    cases hpush
    exact ⟨org, horg, hhas, hdb ▸ hverdict⟩

end alone

/-- **Over the limit**: the storage check of a push asks for its new bytes and for nothing
else, unless the push gets as far as that check with no bytes at all and a digest that is no
blob of the organization, above a limit. -/
theorem only_new_layers_refused {hash : Bytes → Digest} {a : Accounts} {s₀ : Registry}
    {t₀ : Task} {p : Push} (hwrites : writesContent t₀) (hpush : pushOf s₀.db t₀ = some p) :
    OnlyNewLayers hash a s₀ t₀ p ↔ (Asks hash a s₀ t₀ → p.size = 0 → ∀ org,
      s₀.db.orgIdBySlug p.org = some org → ¬ Exceeds a s₀.db org 0) := by
  constructor
  · intro h hasks hzero org horg hexceeds
    obtain ⟨s, t, verdict, hrun, hcheck⟩ := hasks
    obtain ⟨org', horg', -, hverdict⟩ := (hrun.stage hwrites hpush).check hcheck
    rw [horg] at horg'
    cases horg'
    rw [hzero] at hverdict
    cases verdict with
    | none => exact checkContentQuota_iff.mpr hexceeds hverdict
    | some e =>
      obtain ⟨org', -, hpos, -⟩ := h.refused s t e hrun hcheck
      unfold newBytes at hpos
      split at hpos <;> omega
  · intro hroom
    constructor
    · intro s t e hrun hcheck
      obtain ⟨org, horg, hhas, hverdict⟩ := (hrun.stage hwrites hpush).check hcheck
      have hnew : newBytes s₀.db org p = p.size := by
        unfold newBytes
        rw [hhas]
        rfl
      have hexceeds : Exceeds a s₀.db org p.size := by
        rw [← checkContentQuota_iff, hverdict]
        exact some_ne_none e
      refine ⟨org, horg, ?_, hnew ▸ hexceeds⟩
      rw [hnew]
      by_contra hpos
      have hzero : p.size = 0 := by omega
      rw [hzero] at hexceeds
      exact hroom ⟨s, t, _, hrun, hcheck⟩ hzero org horg hexceeds
    · intro s t hrun hadmitted org horg hboth
      obtain ⟨hpos, hexceeds⟩ := hboth
      rcases (hrun.stage hwrites hpush).settled hadmitted org horg with hhas | hfree
      · unfold newBytes at hpos
        rw [if_pos hhas] at hpos
        omega
      · unfold newBytes at hpos hexceeds
        split at hpos
        · omega
        · rename_i hhas
          rw [if_neg hhas] at hexceeds
          exact checkContentQuota_iff.mpr hexceeds hfree

theorem only_new_layers_refused_commit :
    OnlyNewLayers contentDigest tenByteLimit tenBytes (.content (.commit oneByte .stat))
      ⟨"acme", "app", contentDigest [7], 1⟩ := by
  have hwrites : writesContent (.content (.commit oneByte .stat)) := trivial
  have hpush : pushOf tenBytes.db (.content (.commit oneByte .stat)) =
      some ⟨"acme", "app", contentDigest [7], 1⟩ := rfl
  refine (only_new_layers_refused hwrites hpush).mpr ?_
  intro _ hzero
  cases hzero

def elevenBytes : Registry :=
  tenBytes.withDb
    { tenBytes.db with
      blobs := [⟨"sha256:c", 11, 0⟩]
      repositoryBlobs := [⟨"r1", "sha256:c", 0⟩] }

def linkedImage : ManifestPut :=
  ⟨"acme", "app", { digest := "sha256:m", config := some "sha256:c" }, false⟩

/-- All the blobs of the image are linked in the organization, and its manifest is refused
for the storage limit. -/
theorem linked_image_refused :
    (∀ d ∈ linkedImage.manifest.blobs, elevenBytes.db.orgHasBlob "o1" d = true) ∧
      ¬ OnlyNewLayers contentDigest tenByteLimit elevenBytes
        (.manifestPut linkedImage (.resolve .getRepository)) ⟨"acme", "app", "sha256:m", 0⟩ := by
  have hfree {s : Registry} {t : Task} {reply : Reply} (h : storageCheck tenByteLimit s t = none) :
      Judged tenByteLimit s t reply := by
    intro v hv
    rw [h] at hv
    cases hv
  refine ⟨by decide, ?_⟩
  intro h
  have hcall {s s' : Registry} {t t' : Task} (run : PushCalls contentDigest tenByteLimit elevenBytes
        (.manifestPut linkedImage (.resolve .getRepository)) s t)
      (judged : Judged tenByteLimit s t (.answer .ok))
      (act : requestAct contentDigest s 0 t (.answer .ok) = some (s', t')) :
      PushCalls contentDigest tenByteLimit elevenBytes
        (.manifestPut linkedImage (.resolve .getRepository)) s' t' :=
    .call run judged act
  have hget := hcall .refl (hfree rfl) rfl
  have hblob := hcall hget (hfree rfl) rfl
  obtain ⟨org, -, hnew, -⟩ := h.refused _ _ _ hblob rfl
  unfold newBytes at hnew
  split at hnew <;> exact Nat.lt_irrefl 0 hnew

end Chicoree.Quotas
