import Chicoree.Registryd.TableEffects

/-! # The grace period of the garbage collection

A collection leaves links that are younger than its grace, so that a push has that time to
send its manifest. Beside the registry the state keeps what uploads and mounts were answered:
a 201 promises that the blob stays linked and stored for the grace. -/

namespace Chicoree.Registryd

open Option (map_eq_some_iff)
open Transition Bool List Table

/-! ## Promises -/

/-- A 201 to an upload or a mount. -/
structure Promise where
  repositoryId : RepoId
  digest : Digest
  answeredAt : Time
  /-- The repository had a link of the digest already. -/
  renewed : Bool
deriving DecidableEq

def Promise.active (pr : Promise) (grace : Nat) (now : Time) : Bool :=
  decide (now < pr.answeredAt + grace)

def Promise.covers (pr : Promise) (l : RepositoryBlob) : Bool :=
  decide (l.repositoryId = pr.repositoryId) && decide (l.blobDigest = pr.digest)

def Db.hasLink (db : Db) (repo : RepoId) (d : Digest) : Bool :=
  db.repositoryBlobs.any fun l => decide (l.repositoryId = repo) && decide (l.blobDigest = d)

structure Graced where
  registry : Registry
  promises : List Promise := []

def promised (s : Registry) : Task → Task → List Promise
  | .content (.commit rq (.upsertBlob r)), .content (.done 201) =>
    [⟨r.id, rq.expected, s.storage.now, s.db.hasLink r.id rq.expected⟩]
  | .mount rq (.linkBlob r), .mount _ (.done 201) =>
    [⟨r.id, rq.digest, s.storage.now, s.db.hasLink r.id rq.digest⟩]
  | _, _ => []

def Task.graced (grace : Nat) : Task → Bool
  | .content (.gc g _) => decide (g = grace)
  | .content (.commit _ _) => true
  | .content (.done _) => true
  | .mount _ _ => true
  | .manifestPut _ _ => true
  | _ => false

def graceEnv (hash : Bytes → Digest) (s : Graced) : RegistryEnv → Option Graced
  | .tick t => (registryEnv hash s.registry (.tick t)).map fun r => { s with registry := r }
  | .deleteManifest repo d =>
    (registryEnv hash s.registry (.deleteManifest repo d)).map fun r => { s with registry := r }
  | _ => none

def graceProgram (hash : Bytes → Digest) (grace : Nat) : Program Graced Task Reply RegistryEnv where
  init s := emptyRegistry s.registry.storage ∧ emptyContent s.registry ∧ s.promises = []
  fresh t := t.fresh && t.graced grace
  act s i t a := (requestAct hash s.registry i t a).map fun out =>
    (⟨out.1, s.promises ++ promised s.registry t out.2⟩, out.2)
  env := graceEnv hash

abbrev gracedRegistry (hash : Bytes → Digest) (grace : Nat) :
    Machine (Pool Graced Task) (Move Task Reply RegistryEnv) :=
  (graceProgram hash grace).machine

/-! ## What one call does to links, blobs and objects -/

def Task.relies (d : Digest) : Task → Bool
  | .content t => t.relies d
  | _ => false

def Task.erases : Task → Option Digest
  | .content t => t.erases
  | _ => none

def Db.Recorded (db : Db) (d : Digest) : Prop := ∃ b ∈ db.blobs, b.digest = d

/-- What a call does to links and blob rows, and what it promises. -/
inductive LinkStep (s : Registry) (t : Task) (a : Reply) (s' : Registry) (t' : Task) : Prop where
  | same (links : s'.db.repositoryBlobs = s.db.repositoryBlobs)
      (recorded : ∀ l ∈ s.db.repositoryBlobs, s.db.Recorded l.blobDigest →
        s'.db.Recorded l.blobDigest)
      (silent : promised s t t' = []) (now : s'.storage.now = s.storage.now)
  | link (r : Repository) (d : Digest)
      (links : s'.db.repositoryBlobs = (s.db.linkBlob r.id d s.storage.now).repositoryBlobs)
      (blobs : ∀ b ∈ s.db.blobs, b ∈ s'.db.blobs) (recorded : s'.db.Recorded d)
      (promise : ∀ pr ∈ promised s t t', pr = ⟨r.id, d, s.storage.now, s.db.hasLink r.id d⟩)
      (now : s'.storage.now = s.storage.now)
  | unlink (grace : Nat) (task : t = .content (.gc grace .unlinkGarbage))
      (ok : a ≠ .answer .failed)
      (links : s'.db.repositoryBlobs = (s.db.unlinkGarbage (s.storage.now - grace)).repositoryBlobs)
      (blobs : s'.db.blobs = s.db.blobs) (silent : promised s t t' = [])
      (now : s'.storage.now = s.storage.now)

variable {db : Db} {repo : RepoId} {d : Digest} {now : Time}

section calls

variable {hash : Bytes → Digest} {s s' : Registry} {t t' : Task} {a : Reply}

theorem LinkStep.refl (h : promised s t t' = []) : LinkStep s t a s t' :=
  .same rfl (fun _ _ h => h) h rfl

theorem LinkStep.other (hlinks : s'.db.repositoryBlobs = s.db.repositoryBlobs)
    (hblobs : s'.db.blobs = s.db.blobs) (h : promised s t t' = [])
    (hnow : s'.storage.now = s.storage.now) : LinkStep s t a s' t' := by
  refine .same hlinks (fun l _ hrecorded => ?_) h hnow
  unfold Db.Recorded
  rw [hblobs]
  exact hrecorded

variable {db' : Db}

theorem upsertBlob_recorded {size : Nat} (h : db.upsertBlob repo d size now = some db') :
    db'.repositoryBlobs = (db.linkBlob repo d now).repositoryBlobs ∧
      (∀ b ∈ db.blobs, b ∈ db'.blobs) ∧ db'.Recorded d := by
  unfold Db.upsertBlob at h
  split at h
  · cases h
    refine ⟨rfl, fun b hb => mem_insertNew_of_mem hb, ?_⟩
    exact exists_key_insertNew (⟨d, size, now⟩ : Blob) db.blobs
  · cases h

theorem mountBlob_recorded (h : db.mountBlob repo d now = some db') :
    db'.repositoryBlobs = (db.linkBlob repo d now).repositoryBlobs ∧ db'.blobs = db.blobs ∧
      db'.Recorded d := by
  unfold Db.mountBlob at h
  split at h
  · rename_i hcond
    cases h
    rw [and_eq_true, Option.isSome_iff_exists] at hcond
    obtain ⟨-, size, hsize⟩ := hcond
    obtain ⟨b, hb, -⟩ := map_eq_some_iff.mp hsize
    exact ⟨rfl, rfl, b, find_some hb⟩
  · cases h

theorem commitUpload_links {s' : Storage} {rq : CommitRequest} {pc : CommitPc} {a : Answer}
    {t' : BlobTask} (h : commitUpload hash s.storage rq pc a = some (s', t')) :
    LinkStep s (.content (.commit rq pc)) (.answer a) { s with storage := s' } (.content t') := by
  cases commitUpload_call h with
  | found | missing => exact .refl rfl
  | answered refused =>
    apply LinkStep.refl
    cases pc <;> simp [promised, refused]
  | more resolve | resolveAnswered resolve | resolved resolve =>
    obtain ⟨repositories, rfl⟩ := resolveStep_rest resolve
    exact .other rfl rfl rfl rfl
  | put | putLost => exact .other rfl rfl rfl rfl
  | @upsert r db row =>
    obtain ⟨hlinks, hblobs, hrecorded⟩ := upsertBlob_recorded row
    exact .link r rq.expected hlinks hblobs hrecorded (fun pr hpr => mem_singleton.mp hpr) rfl
  | @upsertLost r db row =>
    obtain ⟨hlinks, hblobs, hrecorded⟩ := upsertBlob_recorded row
    exact .link r rq.expected hlinks hblobs hrecorded nofun rfl

variable {grace : Nat}

theorem handleGC_links_step {s' : Storage} {pc : GcPc} {a : Answer}
    {t' : BlobTask} (h : handleGC s.storage grace pc a = some (s', t')) :
    LinkStep s (.content (.gc grace pc)) (.answer a) { s with storage := s' } (.content t') := by
  cases handleGC_call h with
  | unlink | unlinkLost => exact .unlink grace rfl (by simp) rfl rfl rfl rfl
  | @orphans cutoff | @orphansLost cutoff =>
    -- a linked blob is no orphan
    have hkeeps : ∀ l ∈ s.db.repositoryBlobs, s.db.Recorded l.blobDigest →
        (s.db.deleteOrphans cutoff).1.Recorded l.blobDigest := by
      rintro l hl ⟨b, hb, hbd⟩
      refine ⟨b, mem_filter.mpr ⟨hb, ?_⟩, hbd⟩
      have hlinked : (s.db.repositoryBlobs.any fun x => decide (x.blobDigest = b.digest)) = true :=
        any_eq_true.mpr ⟨l, hl, decide_eq_true hbd.symm⟩
      simp [Db.orphaned, hlinked]
    exact .same rfl hkeeps rfl rfl
  | ended => exact .refl (by cases pc <;> rfl)
  | erase | kept => exact .other rfl rfl rfl rfl

variable {rq : MountRequest} {pc pc' : MountPc}

theorem tryMount_links {a : Answer} (h : tryMount s rq pc a = some (s', pc')) :
    LinkStep s (.mount rq pc) (.answer a) s' (.mount rq pc') := by
  cases tryMount_call h with
  | answered => exact .refl (by cases pc <;> rfl)
  | source | linked => exact .refl rfl
  | more resolve | resolveAnswered resolve | resolved resolve =>
    obtain ⟨repositories, rfl⟩ := resolveStep_rest resolve
    exact .other rfl rfl rfl rfl
  | @mount r db row =>
    obtain ⟨hlinks, hblobs, hrecorded⟩ := mountBlob_recorded row
    exact .link r rq.digest hlinks (fun b hb => hblobs ▸ hb) hrecorded
      (fun pr hpr => mem_singleton.mp hpr) rfl
  | @mountLost r db row =>
    obtain ⟨hlinks, hblobs, hrecorded⟩ := mountBlob_recorded row
    exact .link r rq.digest hlinks (fun b hb => hblobs ▸ hb) hrecorded
      nofun rfl

/-- Blob rows, links, objects and the clock are as before. -/
structure SameStorage (s s' : Registry) : Prop where
  links : s'.db.repositoryBlobs = s.db.repositoryBlobs
  blobs : s'.db.blobs = s.db.blobs
  driver : s'.storage.driver = s.storage.driver
  now : s'.storage.now = s.storage.now

theorem SameStorage.refl (s : Registry) : SameStorage s s := ⟨rfl, rfl, rfl, rfl⟩

theorem upsertManifest_storage {m : Parsed}
    (h : s.upsertManifest repo m = some s') : SameStorage s s' := by
  unfold Registry.upsertManifest at h
  split at h
  · cases h
    exact ⟨rfl, rfl, rfl, rfl⟩
  · cases h

theorem handleManifestPut_storage {rq : ManifestPut} {pc pc' : ManifestPutPc} {a : Answer}
    (h : handleManifestPut s rq pc a = some (s', pc')) : SameStorage s s' := by
  cases handleManifestPut_call h with
  | more resolve | resolveAnswered resolve | resolved resolve =>
    obtain ⟨repositories, rfl⟩ := resolveStep_rest resolve
    exact ⟨rfl, rfl, rfl, rfl⟩
  | upsert row | upsertLost row => exact upsertManifest_storage row
  | _ => exact .refl s

theorem tryMount_content {a : Answer} (h : tryMount s rq pc a = some (s', pc')) :
    s'.storage.driver = s.storage.driver ∧ s'.db.blobs = s.db.blobs := by
  cases tryMount_call h with
  | more resolve | resolveAnswered resolve | resolved resolve =>
    obtain ⟨repositories, rfl⟩ := resolveStep_rest resolve
    exact ⟨rfl, rfl⟩
  | mount row | mountLost row => exact ⟨rfl, (mountBlob_recorded row).2.1⟩
  | _ => exact ⟨rfl, rfl⟩

structure GraceEffect (grace : Nat) (s : Registry) (t : Task) (a : Reply) (s' : Registry)
    (t' : Task) : Prop where
  links : LinkStep s t a s' t'
  rows : ∀ b ∈ s'.db.blobs, b ∈ s.db.blobs ∨ t.relies b.digest = true
  relies : ∀ d, t'.relies d = true → t.relies d = true ∨ s'.storage.driver.stat d = true
  objects : ∀ d, s.storage.driver.stat d = true →
    s'.storage.driver.stat d = true ∨ (t.erases = some d ∧ a ≠ .answer .failed)
  graced : t'.graced grace = true

variable {i : Nat}

theorem blobAct_graced {s s' : Storage} {t t' : BlobTask} {a : Answer}
    (h : blobAct hash s i t a = some (s', t')) (hg : (Task.content t).graced grace = true) :
    (Task.content t').graced grace = true := by
  cases t with
  | commit rq pc =>
    simp only [blobAct] at h
    unfold commitUpload at h
    repeat' split at h
    all_goals cases h <;> rfl
  | blobDelete org name d pc => cases hg
  | gc g pc =>
    simp only [blobAct] at h
    unfold handleGC at h
    repeat' split at h
    all_goals cases h <;> first | rfl | exact hg
  | done status => cases h

theorem requestAct_graced (h : requestAct hash s i t a = some (s', t'))
    (hg : t.graced grace = true) : GraceEffect grace s t a s' t' := by
  unfold requestAct at h
  split at h
  · cases h
  · obtain ⟨⟨s₁, t₁⟩, hcall, hout⟩ := map_eq_some_iff.mp h
    cases hout
    -- the history and the identifiers are not among what is kept here
    suffices heffect : GraceEffect grace s t a s₁ t₁ by
      obtain ⟨hlinks, hrows, hrelies, hobjects, hgraced⟩ := heffect
      refine ⟨?_, hrows, hrelies, hobjects, hgraced⟩
      cases hlinks with
      | same links recorded silent now => exact .same links recorded silent now
      | link r d links blobs recorded promise now =>
        exact .link r d links blobs recorded promise now
      | unlink g task ok links blobs silent now =>
        exact .unlink g task ok links blobs silent now
    cases t with
    | content t =>
      cases a with
      | answer a =>
        obtain ⟨⟨st, u⟩, hact, hout⟩ := map_eq_some_iff.mp hcall
        cases hout
        have heffect := blobAct_effect i hact
        refine ⟨?_, heffect.rows, heffect.relies, fun d hd => ?_, blobAct_graced hact hg⟩
        · cases t with
          | commit rq pc => exact commitUpload_links hact
          | blobDelete org name d pc => cases hg
          | gc g pc => exact handleGC_links_step hact
          | done status => cases hact
        · rcases heffect.objects d hd with hstat | ⟨herases, hne⟩
          · exact .inl hstat
          · exact .inr ⟨herases, by simpa using hne⟩
      | _ => cases hcall
    | mount rq pc =>
      cases a with
      | answer a =>
        obtain ⟨⟨s₂, pc'⟩, hact, hout⟩ := map_eq_some_iff.mp hcall
        cases hout
        obtain ⟨hdriver, hblobs⟩ := tryMount_content hact
        refine ⟨tryMount_links hact, fun b hb => .inl (hblobs ▸ hb),
          nofun, fun d hd => .inl ?_, rfl⟩
        rw [hdriver]
        exact hd
      | _ => cases hcall
    | manifestPut rq pc =>
      cases a with
      | answer a =>
        obtain ⟨⟨s₂, pc'⟩, hact, hout⟩ := map_eq_some_iff.mp hcall
        cases hout
        have hsame := handleManifestPut_storage hact
        refine ⟨.other hsame.links hsame.blobs rfl hsame.now, fun b hb => .inl (hsame.blobs ▸ hb),
          nofun, fun d hd => .inl ?_, rfl⟩
        rw [hsame.driver]
        exact hd
      | _ => cases hcall
    | manifestGet rq pc | blobGet rq pc => cases hg

end calls

/-! ## The grace protects a running push

A link that an upload or a mount inserts is as old as its promise. One that was there before
keeps the age of the earlier push: while no collection drops such a link within the grace of
a later promise, and none removes an object that is in use, every promise is kept. -/

variable {hash : Bytes → Digest} {grace i : Nat} {s s' : Graced} {t t' : Task} {a : Reply}
  {p : Pool Graced Task}

/-! ## The promise and the condition -/

/-- Until the grace has passed, what was answered with 201 is linked and stored. -/
def GraceKept (grace : Nat) (s : Graced) : Prop :=
  ∀ pr ∈ s.promises, pr.active grace s.registry.storage.now = true →
    s.registry.db.Linked pr.repositoryId pr.digest ∧ s.registry.db.Recorded pr.digest ∧
      s.registry.storage.driver.stat pr.digest = true

/-- A collection leaves the links that an upload or a mount within the grace has found there. -/
def sparesRenewed (grace : Nat) (s : Graced) : Bool :=
  s.promises.all fun pr =>
    !pr.renewed || !pr.active grace s.registry.storage.now ||
      s.registry.db.repositoryBlobs.all fun l =>
        !pr.covers l || (s.registry.db.unlinkGarbage
          (s.registry.storage.now - grace)).repositoryBlobs.contains l

/-- No row of `blobs` names the digest, and no running commit relies on its object. -/
def unused (p : Pool Graced Task) (d : Digest) : Bool :=
  (p.shared.registry.db.blobs.all fun b => decide (b.digest ≠ d)) &&
    p.tasks.all fun q => !q.relies d

def graceSafe (grace : Nat) (p : Pool Graced Task) : Move Task Reply RegistryEnv → Bool
  | .act i a =>
    match p.tasks[i]? with
    | none => true
    | some t =>
      decide (a = .answer .failed) ||
        ((decide (t ≠ .content (.gc grace .unlinkGarbage)) || sparesRenewed grace p.shared) &&
          (t.erases.all fun d => unused p d))
  | _ => true

/-- **The condition on a step**: a collection drops no link that an upload or a mount answered
within the grace has found already there; and it removes no object while a row names it or a
running commit relies on it. -/
abbrev GraceSafe (grace : Nat) (p : Pool Graced Task) (m : Move Task Reply RegistryEnv) : Prop :=
  graceSafe grace p m = true

theorem GraceSafe.cases (hc : GraceSafe grace p (.act i a)) (ht : p.tasks[i]? = some t)
    (ha : a ≠ .answer .failed) :
    (t = .content (.gc grace .unlinkGarbage) → sparesRenewed grace p.shared = true) ∧
      ∀ d, t.erases = some d → unused p d = true := by
  unfold GraceSafe graceSafe at hc
  simp only [ht, ha, decide_false, Bool.false_or, and_eq_true, or_eq_true] at hc
  refine ⟨fun htask => ?_, fun d hd => ?_⟩
  · rcases hc.1 with hne | hspares
    · exact absurd htask (of_decide_eq_true hne)
    · exact hspares
  · simpa [hd] using hc.2

/-! ## The invariant -/

/-- Rows have their objects, links their rows, and a promise its link: one as young as the
promise, unless it was there before. -/
structure GraceInv (grace : Nat) (s : Graced) : Prop where
  rows : ∀ b ∈ s.registry.db.blobs, s.registry.storage.driver.stat b.digest = true
  recorded : ∀ l ∈ s.registry.db.repositoryBlobs, s.registry.db.Recorded l.blobDigest
  links : ∀ pr ∈ s.promises, pr.active grace s.registry.storage.now = true →
    ∃ l ∈ s.registry.db.repositoryBlobs, pr.covers l = true ∧
      (pr.renewed = false → pr.answeredAt ≤ l.createdAt)

/-- The object that a running commit relies on is there, and collections have the grace. -/
structure GraceTask (grace : Nat) (s : Graced) (_ : Nat) (t : Task) : Prop where
  reliable : ∀ d, t.relies d = true → s.registry.storage.driver.stat d = true
  graced : t.graced grace = true

variable {l : RepositoryBlob}

theorem covers_iff {pr : Promise} :
    pr.covers l = true ↔ l.repositoryId = pr.repositoryId ∧ l.blobDigest = pr.digest := by
  simp [Promise.covers]

theorem GraceInv.kept (h : GraceInv grace s) : GraceKept grace s := by
  intro pr hpr hactive
  obtain ⟨l, hl, hcovers, -⟩ := h.links pr hpr hactive
  obtain ⟨hrepo, hdigest⟩ := covers_iff.mp hcovers
  obtain ⟨b, hb, hbd⟩ := h.recorded l hl
  refine ⟨⟨l, hl, hrepo, hdigest⟩, ⟨b, hb, hbd.trans hdigest⟩, ?_⟩
  have hstat := h.rows b hb
  rw [hbd, hdigest] at hstat
  exact hstat

variable {r' : Registry}

theorem GraceEffect.stat_kept
    (he : GraceEffect grace p.shared.registry t a r' t') (hc : GraceSafe grace p (.act i a))
    (ht : p.tasks[i]? = some t) (hd : p.shared.registry.storage.driver.stat d = true)
    (huse : p.shared.registry.db.Recorded d ∨ ∃ q ∈ p.tasks, q.relies d = true) :
    r'.storage.driver.stat d = true := by
  rcases he.objects d hd with hstat | ⟨herases, ha⟩
  · exact hstat
  · have hunused := (hc.cases ht ha).2 d herases
    simp only [unused, and_eq_true, all_eq_true, decide_eq_true_eq, not_eq_true'] at hunused
    rcases huse with ⟨b, hb, hbd⟩ | ⟨q, hq, hrelies⟩
    · exact absurd hbd (hunused.1 b hb)
    · rw [hunused.2 q hq] at hrelies
      cases hrelies

theorem mem_unlinkGarbage {cutoff : Time}
    (hl : l ∈ db.repositoryBlobs) (hyoung : cutoff ≤ l.createdAt) :
    l ∈ (db.unlinkGarbage cutoff).repositoryBlobs := by
  refine mem_filter.mpr ⟨hl, ?_⟩
  have hnot : ¬ l.createdAt < cutoff := Int.not_lt.mpr hyoung
  simp [hnot]

theorem hasLink_iff : db.hasLink repo d = true ↔
      ∃ l ∈ db.repositoryBlobs, l.repositoryId = repo ∧ l.blobDigest = d := by
  simp [Db.hasLink]

theorem linkBlob_promise :
    ∃ l ∈ (db.linkBlob repo d now).repositoryBlobs,
      (⟨repo, d, now, db.hasLink repo d⟩ : Promise).covers l = true ∧
        (db.hasLink repo d = false → now ≤ l.createdAt) := by
  obtain ⟨l, hl, hkey⟩ : ∃ l ∈ (db.linkBlob repo d now).repositoryBlobs,
      (l.repositoryId, l.blobDigest) = (repo, d) :=
    exists_key_insertNew (⟨repo, d, now⟩ : RepositoryBlob) db.repositoryBlobs
  simp only [Prod.mk.injEq] at hkey
  refine ⟨l, hl, covers_iff.mpr hkey, fun hnew => ?_⟩
  rcases mem_of_mem_insertNew hl with hold | rfl
  · have hthere : db.hasLink repo d = true := hasLink_iff.mpr ⟨l, hold, hkey⟩
    rw [hnew] at hthere
    cases hthere
  · exact Int.le_refl _

theorem GraceEffect.inv (he : GraceEffect grace p.shared.registry t a r' t')
    (hc : GraceSafe grace p (.act i a)) (ht : p.tasks[i]? = some t)
    (h : GraceInv grace p.shared) (htask : GraceTask grace p.shared i t) :
    GraceInv grace ⟨r', p.shared.promises ++ promised p.shared.registry t t'⟩ := by
  have hmem : t ∈ p.tasks := mem_of_getElem? ht
  have hrows : ∀ b ∈ r'.db.blobs, r'.storage.driver.stat b.digest = true := by
    intro b hb
    rcases he.rows b hb with hb | hrelies
    · exact he.stat_kept hc ht (h.rows b hb) (.inl ⟨b, hb, rfl⟩)
    · exact he.stat_kept hc ht (htask.reliable _ hrelies) (.inr ⟨t, hmem, hrelies⟩)
  cases he.links with
  | same links recorded silent now =>
    refine ⟨hrows, fun l hl => ?_, fun pr hpr hactive => ?_⟩
    · have hold : l ∈ p.shared.registry.db.repositoryBlobs := links ▸ hl
      exact recorded l hold (h.recorded l hold)
    · rw [silent, append_nil] at hpr
      rw [links]
      exact h.links pr hpr (now ▸ hactive)
  | link r d links blobs recorded promise now =>
    refine ⟨hrows, fun l hl => ?_, fun pr hpr hactive => ?_⟩
    · have hl : l ∈ (p.shared.registry.db.linkBlob r.id d
          p.shared.registry.storage.now).repositoryBlobs := links ▸ hl
      rcases mem_of_mem_insertNew hl with hold | rfl
      · obtain ⟨b, hb, hbd⟩ := h.recorded l hold
        exact ⟨b, blobs b hb, hbd⟩
      · exact recorded
    · rw [links]
      rcases mem_append.mp hpr with hpr | hpr
      · obtain ⟨l, hl, hrest⟩ := h.links pr hpr (now ▸ hactive)
        exact ⟨l, mem_insertNew_of_mem hl, hrest⟩
      · rw [promise pr hpr]
        exact linkBlob_promise
  | unlink g task ok links blobs silent now =>
    subst task
    have hg : g = grace := of_decide_eq_true htask.graced
    subst hg
    have hspares := (hc.cases ht ok).1 rfl
    refine ⟨hrows, fun l hl => ?_, fun pr hpr hactive => ?_⟩
    · have hl : l ∈ (p.shared.registry.db.unlinkGarbage
          (p.shared.registry.storage.now - g)).repositoryBlobs := links ▸ hl
      obtain ⟨b, hb, hbd⟩ := h.recorded l (mem_filter.mp hl).1
      exact ⟨b, blobs ▸ hb, hbd⟩
    · rw [silent, append_nil] at hpr
      have hactive : pr.active g p.shared.registry.storage.now = true := now ▸ hactive
      obtain ⟨l, hl, hcovers, hyoung⟩ := h.links pr hpr hactive
      refine ⟨l, ?_, hcovers, hyoung⟩
      rw [links]
      cases hrenewed : pr.renewed with
      | true =>
        have hpr' := all_eq_true.mp hspares pr hpr
        simp only [hrenewed, hactive, Bool.not_true, Bool.false_or, all_eq_true] at hpr'
        have hspared := hpr' l hl
        simpa [hcovers] using hspared
      | false =>
        -- the link is as young as the promise, which the cutoff has not reached
        refine mem_unlinkGarbage hl ?_
        have hlt : p.shared.registry.storage.now < pr.answeredAt + g := of_decide_eq_true hactive
        have hle : pr.answeredAt ≤ l.createdAt := hyoung hrenewed
        have hcutoff : p.shared.registry.storage.now - (g : Int) ≤ pr.answeredAt :=
          Int.sub_right_le_of_le_add (Int.le_of_lt hlt)
        exact Int.le_trans hcutoff hle

theorem grace_outline (hash : Bytes → Digest) (grace : Nat) :
    (graceProgram hash grace).Outline (GraceSafe grace) (GraceInv grace) (GraceTask grace) where
  init s h := by
    obtain ⟨⟨hblobs, hlinks, -⟩, -, hpromises⟩ := h
    refine ⟨fun b hb => ?_, fun l hl => ?_, fun pr hpr => ?_⟩
    · have hb : b ∈ s.registry.storage.db.blobs := hb
      rw [hblobs] at hb
      cases hb
    · have hl : l ∈ s.registry.storage.db.repositoryBlobs := hl
      rw [hlinks] at hl
      cases hl
    · rw [hpromises] at hpr
      cases hpr
  spawn p t _ _ hfresh := by
    have hfresh : (t.fresh && t.graced grace) = true := hfresh
    rw [and_eq_true] at hfresh
    refine ⟨fun d hd => ?_, hfresh.2⟩
    -- a request that just arrived relies on nothing
    cases t with
    | content t =>
      cases t with
      | commit rq pc => cases pc <;> first | cases hd | cases hfresh.1
      | blobDelete org name e pc | gc g pc | done status => cases hd
    | mount rq pc | manifestPut rq pc | manifestGet rq pc | blobGet rq pc => cases hd
  act p i a t s' t' h hc ht hact := by
    obtain ⟨⟨r', u⟩, hcall, hout⟩ := map_eq_some_iff.mp hact
    cases hout
    have htask := h.tasks i t ht
    have he := requestAct_graced hcall htask.graced
    refine ⟨he.inv hc ht h.shared htask, fun d hd => ?_, he.graced⟩
    rcases he.relies d hd with hrelies | hstat
    · exact he.stat_kept hc ht (htask.reliable d hrelies) (.inr ⟨t, mem_of_getElem? ht, hrelies⟩)
    · exact hstat
  interfere p i a t s' t' h hc ht hact j q _ hq := by
    obtain ⟨⟨r', u⟩, hcall, hout⟩ := map_eq_some_iff.mp hact
    cases hout
    have he := requestAct_graced hcall (h.tasks i t ht).graced
    have htask := h.tasks j q hq
    exact ⟨fun d hd => he.stat_kept hc ht (htask.reliable d hd)
      (.inr ⟨q, mem_of_getElem? hq, hd⟩), htask.graced⟩
  env p e s' h _ he := by
    have hold := h.shared
    cases e with
    | tick n =>
      cases he
      refine ⟨⟨hold.rows, hold.recorded, fun pr hpr hactive => hold.links pr hpr ?_⟩,
        fun j q hq => ⟨(h.tasks j q hq).reliable, (h.tasks j q hq).graced⟩⟩
      -- what is active later is active now
      have hlt : p.shared.registry.storage.now + n < pr.answeredAt + grace :=
        of_decide_eq_true hactive
      refine decide_eq_true (Int.lt_of_le_of_lt ?_ hlt)
      exact Int.le_add_of_nonneg_right (Int.natCast_nonneg n)
    | deleteManifest repo d =>
      cases he
      exact ⟨⟨hold.rows, hold.recorded, hold.links⟩,
        fun j q hq => ⟨(h.tasks j q hq).reliable, (h.tasks j q hq).graced⟩⟩
    | deleteRepository repo | proxies configuration | download call reply => cases he

/-- **The grace protects a push**: until the grace has passed, every blob whose upload or mount
was answered with 201 is linked and stored, in a run whose collections meet the condition. -/
theorem grace_kept (hash : Bytes → Digest) (grace : Nat)
    (h : (gracedRegistry hash grace).Run (GraceSafe grace) p) : GraceKept grace p.shared :=
  ((grace_outline hash grace).run h).shared.kept

/-! ## Two runs -/

def acmeTwo : Graced where
  registry :=
    { storage :=
        { db :=
            { organizations := [⟨"o1", "acme"⟩]
              repositories := [⟨"r1", "o1", "app", .«private»⟩, ⟨"r2", "o1", "web", .«private»⟩] }
          driver := []
          now := 0 }
      authDisabled := true
      issued := ["r1", "r2"] }

theorem acmeTwo_init : (gracedRegistry sha256OfEmpty 60).init ⟨acmeTwo, []⟩ :=
  ⟨⟨⟨rfl, rfl, rfl⟩, ⟨rfl, rfl, rfl, rfl, by decide⟩, rfl⟩, rfl⟩

def allOk (i n : Nat) : List (Move Task Reply RegistryEnv) :=
  List.replicate n (.act i (.answer .ok))

/-- An upload of the empty blob to `acme/app`, as the `i`th request, in `n` calls. -/
def uploadEmpty (i n : Nat) : List (Move Task Reply RegistryEnv) :=
  .spawn (.content emptyCommit) :: allOk i n

def collect (i n : Nat) : List (Move Task Reply RegistryEnv) :=
  .spawn (.content (.gc 60 .unlinkGarbage)) :: allOk i n

/-- The blob is uploaded to one repository and mounted into another one later: a collection
that drops the first link leaves the second. -/
theorem grace_kept_mount : ∃ p : Pool Graced Task, GraceKept 60 p.shared ∧
    p.shared.promises.map (·.active 60 p.shared.registry.storage.now) = [false, true] ∧
    p.shared.registry.db.repositoryBlobs.map (·.repositoryId) = ["r2"] := by
  obtain ⟨p, hp⟩ : ∃ p, (gracedRegistry sha256OfEmpty 60).replay (GraceSafe 60) ⟨acmeTwo, []⟩
      (uploadEmpty 0 6 ++ [.env (.tick 100),
        .spawn (.mount ⟨⟨"ci", []⟩, "acme", "web", sha256OfEmpty [], "acme/app"⟩ .getSource)] ++
        allOk 1 5 ++ [.env (.tick 20)] ++ collect 2 3) = some p := ⟨_, rfl⟩
  refine ⟨p, grace_kept sha256OfEmpty 60 (Machine.run_of_replay acmeTwo_init hp), ?_⟩
  cases hp
  decide +kernel

/-- A digest that was uploaded long ago is uploaded again: its row keeps its age, and the next
collection drops it at once. -/
theorem renewed_blob_collected : ¬ ∀ p : Pool Graced Task, (gracedRegistry sha256OfEmpty 60).Reachable p →
    GraceKept 60 p.shared := by
  intro hclaim
  obtain ⟨p, hp⟩ : ∃ p, (gracedRegistry sha256OfEmpty 60).replay (fun _ _ => True) ⟨acmeTwo, []⟩
      (uploadEmpty 0 6 ++ [.env (.tick 100)] ++ uploadEmpty 1 4 ++ collect 2 2) = some p :=
    ⟨_, rfl⟩
  have hkept := hclaim p (Machine.run_of_replay acmeTwo_init hp)
  cases hp
  obtain ⟨⟨l, hl, -⟩, -⟩ := hkept ⟨"r1", sha256OfEmpty [], 100, true⟩ (by decide +kernel)
    (by decide +kernel)
  cases hl

end Chicoree.Registryd
