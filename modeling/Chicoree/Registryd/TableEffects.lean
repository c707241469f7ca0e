import Chicoree.Registryd.ContentShown

/-! # What calls do to links and manifests

Links are dropped by the two calls that say so, and manifest rows are written by the two
that write them; every other call of every request adds links or leaves both alone. -/

namespace Chicoree.Registryd

open Transition List Option

/-! ## Links and references grow -/

/-- Links are added, and references untouched. -/
structure Grows (db db' : Db) : Prop where
  links : ∀ l ∈ db.repositoryBlobs, l ∈ db'.repositoryBlobs
  refs : db'.manifestRefs = db.manifestRefs

variable {repo : RepoId} {d : Digest} {org name : String} {a : Answer}

section grows

variable {db db' : Db}

theorem Grows.refl (db : Db) : Grows db db := ⟨fun _ hl => hl, rfl⟩

variable {now : Time}

theorem Grows.upsertBlob {size : Nat}
    (h : db.upsertBlob repo d size now = some db') : Grows db db' := by
  unfold Db.upsertBlob at h
  split at h
  · cases h
    exact ⟨fun l hl => Table.mem_insertNew_of_mem hl, rfl⟩
  · cases h

theorem Grows.mountBlob (h : db.mountBlob repo d now = some db') : Grows db db' := by
  unfold Db.mountBlob at h
  split at h
  · cases h
    exact ⟨fun l hl => Table.mem_insertNew_of_mem hl, rfl⟩
  · cases h

theorem Grows.resolveStep {pc : ResolvePc}
    {out : Resolved} (h : Registryd.resolveStep db org name d pc a = some (db', out)) :
    Grows db db' := by
  obtain ⟨repositories, rfl⟩ := resolveStep_rest h
  exact ⟨fun _ hl => hl, rfl⟩

end grows

/-- What a call that writes no manifest does. -/
structure Plain (s s' : Registry) : Prop where
  db : Grows s.db s'.db
  manifests : s'.manifests = s.manifests

section handlers

variable {hash : Bytes → Digest} {s s' : Registry}

theorem Plain.refl (s : Registry) : Plain s s := ⟨.refl s.db, rfl⟩

theorem Plain.withDb {db : Db} (h : Grows s.db db) : Plain s (s.withDb db) := ⟨h, rfl⟩

variable {t' : BlobTask}

theorem commitUpload_grows {s s' : Storage} {rq : CommitRequest} {pc : CommitPc}
    (h : commitUpload hash s rq pc a = some (s', t')) : Grows s.db s'.db := by
  cases commitUpload_call h with
  | more resolve | resolveAnswered resolve | resolved resolve => exact .resolveStep resolve
  | upsert row | upsertLost row => exact .upsertBlob row
  | _ => exact .refl s.db

theorem handleBlobDelete_links {s s' : Storage} {pc : DeletePc}
    (h : handleBlobDelete s org name d pc a = some (s', t')) :
    s'.db.manifestRefs = s.db.manifestRefs ∧ ∀ l ∈ s.db.repositoryBlobs, l ∈ s'.db.repositoryBlobs ∨
        a ≠ .failed ∧ ∃ r, pc = .unlink r ∧ l.repositoryId = r.id ∧ l.blobDigest = d := by
  have hunlink {r : Repository} {db : Db} {n : Nat} (ha : a ≠ .failed)
      (hdb : s.db.unlinkBlob r.id d = some (db, n)) :
      db.manifestRefs = s.db.manifestRefs ∧ ∀ l ∈ s.db.repositoryBlobs,
        l ∈ db.repositoryBlobs ∨ a ≠ .failed ∧
          ∃ r', DeletePc.unlink r = .unlink r' ∧ l.repositoryId = r'.id ∧ l.blobDigest = d := by
    unfold Db.unlinkBlob at hdb
    split at hdb
    · cases hdb
      refine ⟨rfl, fun l hl => ?_⟩
      by_cases hthis : l.repositoryId = r.id ∧ l.blobDigest = d
      · exact .inr ⟨ha, r, rfl, hthis⟩
      · exact .inl (mem_filter.mpr ⟨hl, decide_eq_true hthis⟩)
    · cases hdb
  cases handleBlobDelete_call h with
  | unlinkLast took row | unlink took row => exact hunlink took row
  | _ => exact ⟨rfl, fun l hl => .inl hl⟩

theorem handleGC_links {s s' : Storage} {grace : Nat} {pc : GcPc}
    (h : handleGC s grace pc a = some (s', t')) :
    s'.db.manifestRefs = s.db.manifestRefs ∧ ∀ l ∈ s.db.repositoryBlobs, l ∈ s'.db.repositoryBlobs ∨
        a ≠ .failed ∧ pc = .unlinkGarbage ∧
          l ∉ (s.db.unlinkGarbage (s.now - grace)).repositoryBlobs := by
  have hgarbage (ha : a ≠ .failed) (l : RepositoryBlob) (_ : l ∈ s.db.repositoryBlobs) :
      l ∈ (s.db.unlinkGarbage (s.now - grace)).repositoryBlobs ∨
        a ≠ .failed ∧ GcPc.unlinkGarbage = .unlinkGarbage ∧
          l ∉ (s.db.unlinkGarbage (s.now - grace)).repositoryBlobs := by
    by_cases hl : l ∈ (s.db.unlinkGarbage (s.now - grace)).repositoryBlobs
    · exact .inl hl
    · exact .inr ⟨ha, rfl, hl⟩
  cases handleGC_call h with
  | unlink | unlinkLost => exact ⟨rfl, hgarbage (by simp)⟩
  | _ => exact ⟨rfl, fun l hl => .inl hl⟩

theorem tryMount_plain {rq : MountRequest} {pc pc' : MountPc}
    (h : tryMount s rq pc a = some (s', pc')) : Plain s s' := by
  cases tryMount_call h with
  | more resolve | resolveAnswered resolve | resolved resolve =>
    exact .withDb (.resolveStep resolve)
  | mount row | mountLost row => exact .withDb (.mountBlob row)
  | _ => exact .refl s

/-! ## Calls that write manifests -/

/-- What one call of a request does to the links and the manifests. -/
inductive TableEffect (s : Registry) (t : Task) (a : Reply) (s' : Registry) : Prop
  | other : (∀ l ∈ s.db.repositoryBlobs,
        l ∈ s'.db.repositoryBlobs ∨ a ≠ .answer .failed ∧ t.unlinks s l = true) →
      s'.db.manifestRefs = s.db.manifestRefs → s'.manifests = s.manifests →
      (∀ repo m pushed, t.writes = some (repo, m, pushed) →
        a = .answer .failed ∨ s.db.repositoryExists repo = false) → TableEffect s t a s'
  | wrote {repo : RepoId} {m : Parsed} {pushed : Bool} : t.writes = some (repo, m, pushed) →
      a ≠ .answer .failed → s.upsertManifest repo m = some s' → TableEffect s t a s'

variable {t : Task}

theorem Plain.effect {a : Reply} (h : Plain s s') (ht : t.writes = none) : TableEffect s t a s' :=
  .other (fun l hl => .inl (h.db.links l hl)) h.db.refs h.manifests
    fun repo m pushed hw => by simp [ht] at hw

variable {m : Parsed}

theorem upsertManifest_none (h : s.upsertManifest repo m = none) :
    s.db.repositoryExists repo = false := by
  unfold Registry.upsertManifest at h
  split at h
  · cases h
  · exact Bool.eq_false_iff.mpr ‹_›

theorem TableEffect.unwritten {a : Reply} {pushed : Bool} (ht : t.writes = some (repo, m, pushed))
    (hwhy : a = .answer .failed ∨ s.db.repositoryExists repo = false) : TableEffect s t a s := by
  refine .other (fun l hl => .inl hl) rfl rfl fun repo' m' pushed' hw => ?_
  rw [ht] at hw
  cases hw
  exact hwhy

theorem handleManifestPut_tables {rq : ManifestPut} {pc pc' : ManifestPutPc}
    (h : handleManifestPut s rq pc a = some (s', pc')) :
    TableEffect s (.manifestPut rq pc) (.answer a) s' := by
  cases handleManifestPut_call h with
  | answered unwritten =>
    cases pc with
    | upsertManifest r =>
      exact .unwritten rfl ((unwritten r rfl).imp (congrArg Reply.answer) upsertManifest_none)
    | _ => exact Plain.effect (.refl s) rfl
  | more resolve | resolveAnswered resolve | resolved resolve =>
    exact Plain.effect (.withDb (.resolveStep resolve)) rfl
  | upsert row | upsertLost row => exact .wrote rfl (by simp) row
  | _ => exact Plain.effect (.refl s) rfl

theorem handleManifestGet_tables {rq : ManifestGet} {pc pc' : ManifestGetPc} {a : Reply}
    (h : handleManifestGet s rq pc a = some (s', pc')) :
    TableEffect s (.manifestGet rq pc) a s' := by
  cases handleManifestGet_call h with
  | read unwritten =>
    cases pc with
    | upsertManifest m r =>
      exact .unwritten rfl ((unwritten m r rfl).imp_right upsertManifest_none)
    | _ => exact Plain.effect (.refl s) rfl
  | resolve step => exact Plain.effect (.withDb (.resolveStep step)) rfl
  | upsert took row => exact .wrote rfl (by simpa using took) row

variable {dl : Download} {i : Nat}

theorem joinDownload_plain (h : joinDownload s dl = (s', i)) : Plain s s' := by
  unfold joinDownload at h
  split at h <;> cases h <;> exact ⟨.refl s.db, rfl⟩

theorem handleBlobGet_plain {rq : BlobGet} {pc pc' : BlobGetPc} {a : Reply}
    (h : handleBlobGet s rq pc a = some (s', pc')) : Plain s s' := by
  cases handleBlobGet_call h with
  | join joined => exact joinDownload_plain joined
  | upsert row | upsertLost row => exact .withDb (.upsertBlob row)
  | _ => exact .refl s

theorem blobAct_tables {storage : Storage} {t : BlobTask}
    (h : blobAct hash s.storage i t a = some (storage, t')) :
    TableEffect s (.content t) (.answer a) { s with storage := storage } := by
  cases t with
  | commit rq pc =>
    have hgrows : Grows s.db storage.db := commitUpload_grows h
    exact Plain.effect ⟨hgrows, rfl⟩ rfl
  | blobDelete org name d pc =>
    obtain ⟨hrefs, hlinks⟩ := handleBlobDelete_links h
    refine .other (fun l hl => (hlinks l hl).imp_right ?_) hrefs rfl nofun
    rintro ⟨ha, r, rfl, hthis⟩
    exact ⟨by simpa using ha, decide_eq_true hthis⟩
  | gc grace pc =>
    obtain ⟨hrefs, hlinks⟩ := handleGC_links h
    refine .other (fun l hl => (hlinks l hl).imp_right ?_) hrefs rfl nofun
    rintro ⟨ha, rfl, hthis⟩
    refine ⟨by simpa using ha, ?_⟩
    simp only [Task.unlinks, Bool.not_eq_true', contains_eq_mem, decide_eq_false_iff_not]
    exact hthis
  | done status => simp [blobAct] at h

theorem requestCall_tables {t' : Task} {a : Reply}
    (h : requestCall hash s i t a = some (s', t')) : TableEffect s t a s' := by
  unfold requestCall at h
  split at h
  · obtain ⟨⟨storage, t₁⟩, hout, h⟩ := map_eq_some_iff.mp h
    cases h
    exact blobAct_tables hout
  · obtain ⟨out, hout, h⟩ := map_eq_some_iff.mp h
    cases h
    exact Plain.effect (tryMount_plain hout) rfl
  · obtain ⟨out, hout, h⟩ := map_eq_some_iff.mp h
    cases h
    exact handleManifestPut_tables hout
  · obtain ⟨out, hout, h⟩ := map_eq_some_iff.mp h
    cases h
    exact handleManifestGet_tables hout
  · obtain ⟨out, hout, h⟩ := map_eq_some_iff.mp h
    cases h
    exact Plain.effect (handleBlobGet_plain hout) rfl
  · cases h

/-! ## The surroundings -/

/-- Rows and references leave by their keys together; a link leaves only with its
repository, and then so do the rows of the repository. -/
structure EnvTables (s s' : Registry) : Prop where
  rows : ∃ keep : RepoId → Digest → Bool,
    s'.manifests = s.manifests.filter (fun m => keep m.repositoryId m.digest) ∧ s'.db.manifestRefs =
        s.db.manifestRefs.filter (fun m => keep m.repositoryId m.manifestDigest) ∧
      ∀ l ∈ s.db.repositoryBlobs, l ∈ s'.db.repositoryBlobs ∨
        ((∀ d, keep l.repositoryId d = false) ∧ ∀ row ∈ s'.db.repositories, row.id ≠ l.repositoryId)

theorem EnvTables.grows (hdb : Grows s.db s'.db) (hmanifests : s'.manifests = s.manifests) :
    EnvTables s s' :=
  ⟨fun _ _ => true, by rw [hmanifests, filter_true], by rw [hdb.refs, filter_true],
    fun l hl => .inl (hdb.links l hl)⟩

theorem downloadStep_plain {pc pc' : DownloadPc} {a : DownloadReply}
    (h : downloadStep hash s dl pc a = some (s', pc')) : Plain s s' := by
  cases downloadStep_call h with
  | put | putLost | register | registerLost => exact ⟨⟨fun _ hl => hl, rfl⟩, rfl⟩
  | _ => exact .refl s

theorem registryEnv_tables {e : RegistryEnv} (h : registryEnv hash s e = some s') :
    EnvTables s s' := by
  cases e with
  | tick t | proxies configuration =>
    cases h
    exact .grows (.refl s.db) rfl
  | deleteRepository repo =>
    simp only [registryEnv, blobEnv, map_some, Option.some.injEq] at h
    subst h
    refine ⟨fun r _ => decide (r ≠ repo), rfl, rfl, fun l hl => ?_⟩
    by_cases hrepo : l.repositoryId = repo
    · refine .inr ⟨fun _ => decide_eq_false (not_not.mpr hrepo), fun row hrow hid => ?_⟩
      have hne := of_decide_eq_true (mem_filter.mp hrow).2
      exact hne (hid.trans hrepo)
    · exact .inl (mem_filter.mpr ⟨hl, decide_eq_true hrepo⟩)
  | deleteManifest repo d =>
    cases h
    exact ⟨fun r e => decide (¬(r = repo ∧ e = d)), rfl, rfl, fun l hl => .inl hl⟩
  | download i a =>
    simp only [registryEnv, downloadCall] at h
    split at h
    · cases h
    · obtain ⟨⟨s₁, pc'⟩, hcall, h⟩ := map_eq_some_iff.mp h
      have hplain := downloadStep_plain hcall
      cases h
      exact .grows hplain.db hplain.manifests

end handlers

end Chicoree.Registryd
