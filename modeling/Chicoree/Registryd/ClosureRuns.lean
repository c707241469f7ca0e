import Chicoree.Registryd.TableEffects

/-! # Manifests keep what they name

Every order of pushes, deletes, garbage collections and the other requests in which no
link is dropped that a manifest names or a running push has found. -/

namespace Chicoree.Registryd

open Transition List Option

variable {hash : Bytes → Digest}

/-! ## What is kept -/

structure Closed (db : Db) (repo : RepoId) (m : Parsed) : Prop where
  blobs : ∀ d ∈ m.blobs, db.Linked repo d
  refs : ∀ d ∈ m.references, ⟨repo, m.digest, d⟩ ∈ db.manifestRefs

structure IndexInv (s : Indexed) : Prop where
  issued : ∀ row ∈ s.registry.db.repositories, row.id ∈ s.registry.issued
  recorded : ∀ row ∈ s.registry.manifests, row ∉ s.cached → ∃ c ∈ s.contents, rowOf c.1 c.2 = row
  one : ∀ c ∈ s.contents, ∀ c' ∈ s.contents, rowOf c.1 c.2 = rowOf c'.1 c'.2 → c = c'
  closed : ∀ c ∈ s.contents, rowOf c.1 c.2 ∈ s.registry.manifests → Closed s.registry.db c.1 c.2

/-- The blob is linked, or the repository is gone. -/
def Db.Held (db : Db) (repo : RepoId) (d : Digest) : Prop :=
  db.Linked repo d ∨ ∀ row ∈ db.repositories, row.id ≠ repo

def ManifestPutPc.repository? : ManifestPutPc → Option Repository
  | .resolve pc => pc.repository?
  | .checkTagImmutable r | .blobs r _ | .children r _ | .upsertManifest r => some r
  | .upsertTagGuarded | .done _ => none

/-- What a running push knows. -/
structure PushOk (s : Registry) (rq : ManifestPut) (pc : ManifestPutPc) : Prop where
  issued : ∀ r, pc.repository? = some r → r.id ∈ s.issued
  todo : ∀ r todo, pc = .blobs r todo → ∃ done, rq.manifest.blobs = done ++ todo
  found : ∀ repo d, (Task.manifestPut rq pc).found repo d = true → s.db.Held repo d

def PushTaskOk (s : Registry) : Task → Prop
  | .manifestPut rq pc => PushOk s rq pc
  | _ => True

theorem PushTaskOk.spawn {s : Registry} {t : Task} (h : t.fresh = true) : PushTaskOk s t := by
  cases t with
  | manifestPut rq pc =>
    cases pc with
    | resolve pc =>
      cases pc with
      | getRepository =>
        refine ⟨fun r hr => ?_, fun r todo hpc => ?_, fun repo d hf => ?_⟩
        · cases hr
        · cases hpc
        · cases hf
      | _ => simp [Task.fresh] at h
    | _ => simp [Task.fresh] at h
  | _ => trivial

variable {repo : RepoId}

variable {rq : ManifestPut} {pc : ManifestPutPc} {d : Digest}

theorem found_repository (h : (Task.manifestPut rq pc).found repo d = true) :
    ∃ r, pc.repository? = some r ∧ r.id = repo := by
  cases pc with
  | blobs r todo | children r todo | upsertManifest r =>
    simp only [Task.found, Bool.and_eq_true, decide_eq_true_eq] at h
    exact ⟨r, rfl, h.1⟩
  | _ => cases h

theorem PushOk.ended {s : Registry} (h : pc.repository? = none) : PushOk s rq pc where
  issued := fun r hr => by simp [h] at hr
  todo := by
    rintro r todo rfl
    simp [ManifestPutPc.repository?] at h
  found := by
    intro repo d hf
    obtain ⟨r, hr, -⟩ := found_repository hf
    simp [h] at hr

/-- What a step of the registry does to identifiers and repositories. -/
structure Aged (s s' : Registry) : Prop where
  issued : ∀ id ∈ s.issued, id ∈ s'.issued
  rows : ∀ row ∈ s'.db.repositories, row ∈ s.db.repositories ∨ row.id ∉ s.issued

theorem PushOk.kept {s s' : Registry} (h : PushOk s rq pc) (haged : Aged s s')
    (hlinks : ∀ l ∈ s.db.repositoryBlobs,
      (Task.manifestPut rq pc).found l.repositoryId l.blobDigest = true →
        l ∈ s'.db.repositoryBlobs ∨ ∀ row ∈ s'.db.repositories, row.id ≠ l.repositoryId) :
    PushOk s' rq pc where
  issued := fun r hr => haged.issued r.id (h.issued r hr)
  todo := h.todo
  found := by
    intro repo d hfound
    rcases h.found repo d hfound with ⟨l, hl, rfl, rfl⟩ | hgone
    · rcases hlinks l hl hfound with hl | hgone
      · exact .inl ⟨l, hl, rfl, rfl⟩
      · exact .inr hgone
    · -- the identifier of a repository that is gone is not given out again
      obtain ⟨r, hr, rfl⟩ := found_repository hfound
      refine .inr fun row hrow hid => ?_
      rcases haged.rows row hrow with hrow | hnew
      · exact hgone row hrow hid
      · exact hnew (hid ▸ h.issued r hr)

theorem linkedBlobSize_linked {db : Db}
    (h : (db.linkedBlobSize repo d).isSome = true) : db.Linked repo d := by
  unfold Db.linkedBlobSize at h
  split at h
  · rename_i hlink
    obtain ⟨l, hl, hthis⟩ := any_eq_true.mp hlink
    exact ⟨l, hl, of_decide_eq_true hthis⟩
  · cases h

theorem handleManifestPut_ok {s s' fin : Registry} {pc' : ManifestPutPc}
    {a : Answer} (h : PushOk s rq pc)
    (hcall : handleManifestPut s rq pc a = some (s', pc')) (hfin : PushOk fin rq pc)
    (hissued : ∀ row ∈ s'.db.repositories, row.id ∈ fin.issued)
    (hdb : fin.db = s'.db) : PushOk fin rq pc' := by
  have hstart : ∀ {r : Repository}, r.id ∈ fin.issued →
      PushOk fin rq (.blobs r rq.manifest.blobs) := by
    intro r hr
    refine ⟨fun r' hr' => ?_, fun r' todo he => ?_, fun repo d hf => ?_⟩
    · cases hr'
      exact hr
    · cases he
      exact ⟨[], rfl⟩
    · simp [Task.found] at hf
  have hrepository {pc : ResolvePc} {db : Db} {out : Resolved}
      (hcall : resolveStep s.db rq.org rq.name rq.manifest.digest pc a = some (db, out))
      (hissued : ∀ row ∈ db.repositories, row.id ∈ fin.issued) (hfin : PushOk fin rq (.resolve pc))
      (r : Repository) (hr : out.repository? = some r) : r.id ∈ fin.issued := by
    rcases resolveStep_repository hcall hr with hmem | hold
    · exact hissued r hmem
    · exact hfin.issued r hold
  cases handleManifestPut_call hcall with
  | answered | resolveAnswered | upsertLost => exact .ended rfl
  | upsert => split <;> exact .ended rfl
  | more resolve =>
    exact ⟨hrepository resolve hissued hfin, fun _ _ he => (by cases he),
      fun _ _ hf => (by cases hf)⟩
  | @resolved _ _ _ r resolve =>
    have hr := hrepository resolve hissued hfin r rfl
    split
    · refine ⟨fun r' hr' => ?_, fun _ _ he => (by cases he), fun _ _ hf => (by cases hf)⟩
      cases hr'
      exact hr
    · exact hstart hr
  | @mutable r => exact hstart (hfin.issued r rfl)
  | @blob r x todo row =>
    obtain ⟨done, hdone⟩ := h.todo r (x :: todo) rfl
    refine ⟨fun r' hr' => ?_, fun r' todo' he => ?_, fun repo d hf => ?_⟩
    · cases hr'
      exact hfin.issued r rfl
    · cases he
      exact ⟨done ++ [x], by simp [hdone]⟩
    · -- what was found before, and the blob looked up
      have hbefore : rq.manifest.blobs.take
          (rq.manifest.blobs.length - (x :: todo).length) = done := by
        rw [hdone, length_append, Nat.add_sub_cancel, take_left]
      have hafter : rq.manifest.blobs.take (rq.manifest.blobs.length - todo.length) =
          done ++ [x] := by
        have hsplit : rq.manifest.blobs = (done ++ [x]) ++ todo := by simp [hdone]
        rw [hsplit, length_append, Nat.add_sub_cancel, take_left]
      simp only [Task.found, hafter, Bool.and_eq_true, decide_eq_true_eq,
        contains_eq_mem, mem_append, mem_singleton] at hf
      obtain ⟨rfl, hd | rfl⟩ := hf
      · refine hfin.found r.id d ?_
        simp only [Task.found, hbefore, decide_true, Bool.true_and, contains_eq_mem,
          decide_eq_true_eq]
        exact hd
      · exact .inl (hdb ▸ linkedBlobSize_linked row)
  | @allBlobs r =>
    refine ⟨fun r' hr' => ?_, fun _ _ he => (by cases he), fun repo d hf => ?_⟩
    · cases hr'
      exact hfin.issued r rfl
    · refine hfin.found repo d ?_
      simp only [Task.found, length_nil, Nat.sub_zero, take_length] at hf ⊢
      exact hf
  | @child r | @allChildren r =>
    refine ⟨fun r' hr' => ?_, fun _ _ he => (by cases he), hfin.found⟩
    cases hr'
    exact hfin.issued r rfl

/-! ## Runs -/

variable {p : Pool Indexed Task}

variable {l : RepositoryBlob}

theorem unneeded_of_dropped {i : Nat} {a : Reply} {t : Task}
    (hc : DropsUnneeded p (.act i a)) (ht : p.tasks[i]? = some t)
    (hl : l ∈ p.shared.registry.db.repositoryBlobs) (ha : a ≠ .answer .failed)
    (hdrop : t.unlinks p.shared.registry l = true) : unneeded p l = true := by
  simp only [DropsUnneeded, dropsUnneeded, ht, Bool.or_eq_true, decide_eq_true_eq] at hc
  have hall := hc.resolve_left ha
  simpa [hdrop] using all_eq_true.mp hall l hl

variable {j : Nat} {q : Task}

theorem unneeded_found (h : unneeded p l = true) (hq : p.tasks[j]? = some q) :
    q.found l.repositoryId l.blobDigest = false := by
  simp only [unneeded, Bool.and_eq_true] at h
  have hfound := all_eq_true.mp h.2 q (mem_of_getElem? hq)
  simpa using hfound

theorem unneeded_refs (h : unneeded p l = true)
    {m : ManifestRef} (hm : m ∈ p.shared.registry.db.manifestRefs) :
    ¬ (m.repositoryId = l.repositoryId ∧ m.refDigest = l.blobDigest) := by
  simp only [unneeded, Bool.and_eq_true, decide_eq_true_eq] at h
  have hnone := countP_eq_zero.mp h.1 m hm
  simpa using hnone

/-- One call, with the record and the history beside it. -/
structure IndexStep (hash : Bytes → Digest) (s : Indexed) (t : Task) (a : Reply)
    (s' : Indexed) (t' : Task) (called : Registry) (i : Nat) : Prop where
  call : requestCall hash s.registry i t a = some (called, t')
  fresh : ∀ id ∈ generated a, id ∉ s.registry.issued
  db : s'.registry.db = called.db
  manifests : s'.registry.manifests = called.manifests
  issued : s'.registry.issued = s.registry.issued ++ generated a
  record : ∃ registry, s' = s.after t a registry

theorem after_registry (s : Indexed) (t : Task) (a : Reply) (registry : Registry) :
    (s.after t a registry).registry = registry := by
  unfold Indexed.after
  split
  · split
    · unfold Indexed.written
      split <;> rfl
    · rfl
  · rfl

theorem indexStep {s s' : Indexed} {i : Nat} {t t' : Task} {a : Reply}
    (h : (indexedProgram hash).act s i t a = some (s', t')) :
    ∃ called, IndexStep hash s t a s' t' called i := by
  obtain ⟨⟨registry, t₁⟩, hact, h⟩ := map_eq_some_iff.mp h
  obtain ⟨called, hcall, hfresh, hregistry⟩ := requestAct_effect hact
  cases h
  have hregistry' := after_registry s t a registry
  exact ⟨called, hcall, hfresh, by rw [hregistry', hregistry], by rw [hregistry', hregistry],
    by rw [hregistry', hregistry], registry, rfl⟩

variable {s s' : Indexed} {t t' : Task} {a : Reply} {called : Registry} {i : Nat}

theorem IndexStep.aged (h : IndexStep hash s t a s' t' called i) : Aged s.registry s'.registry where
  issued := fun id hid => by
    rw [h.issued]
    exact mem_append_left _ hid
  rows := by
    intro row hrow
    rw [h.db] at hrow
    rcases (requestCall_effect h.call).db.rows row hrow with hrow | hnew
    · exact .inl hrow
    · exact .inr (h.fresh _ hnew)

theorem IndexStep.issued_rows (h : IndexStep hash s t a s' t' called i) (hs : IndexInv s) :
    ∀ row ∈ s'.registry.db.repositories, row.id ∈ s'.registry.issued := by
  intro row hrow
  rw [h.db] at hrow
  rw [h.issued]
  rcases (requestCall_effect h.call).db.rows row hrow with hrow | hnew
  · exact mem_append_left _ (hs.issued row hrow)
  · exact mem_append_right _ hnew

variable {registry : Registry}

theorem after_unwritten (h : ∀ repo m pushed, t.writes = some (repo, m, pushed) →
      a = .answer .failed ∨ s.registry.db.repositoryExists repo = false) :
    s.after t a registry = { s with registry := registry } := by
  unfold Indexed.after
  split
  · rename_i repo m pushed hw
    rcases h repo m pushed hw with ha | hnone
    · exact if_neg fun hboth => hboth.1 ha
    · exact if_neg fun hboth => by simp [hnone] at hboth
  · rfl

variable {m : Parsed}

theorem upsertManifest_tables {s s' : Registry}
    (h : s.upsertManifest repo m = some s') : s.db.repositoryExists repo = true ∧
      s'.db.repositoryBlobs = s.db.repositoryBlobs ∧
      (∀ d ∈ m.references, ⟨repo, m.digest, d⟩ ∈ s'.db.manifestRefs) ∧
      (∀ row ∈ s'.manifests, row ∈ s.manifests ∨ row = rowOf repo m) ∧
      ∀ x ∈ s.db.manifestRefs, ¬ (x.repositoryId = repo ∧ x.manifestDigest = m.digest) →
        x ∈ s'.db.manifestRefs := by
  unfold Registry.upsertManifest at h
  split at h
  · rename_i hexists
    cases h
    refine ⟨hexists, rfl, fun d hd => ?_, fun row hrow => Table.mem_of_mem_insertNew hrow,
      fun x hx hne => ?_⟩
    · exact mem_append_right _ (mem_map.mpr ⟨d, mem_eraseDups.mpr hd, rfl⟩)
    · exact mem_append_left _ (mem_filter.mpr ⟨hx, decide_eq_true hne⟩)
  · cases h

theorem IndexInv.other (hs : IndexInv p.shared)
    (hstep : IndexStep hash p.shared t a s' t' called i) (ht : p.tasks[i]? = some t)
    (hc : DropsUnneeded p (.act i a))
    (hlinks : ∀ l ∈ p.shared.registry.db.repositoryBlobs, l ∈ called.db.repositoryBlobs ∨
      a ≠ .answer .failed ∧ t.unlinks p.shared.registry l = true)
    (hrefs : called.db.manifestRefs = p.shared.registry.db.manifestRefs)
    (hmanifests : called.manifests = p.shared.registry.manifests)
    (hunwritten : ∀ repo m pushed, t.writes = some (repo, m, pushed) →
      a = .answer .failed ∨ p.shared.registry.db.repositoryExists repo = false) :
    IndexInv s' := by
  obtain ⟨registry, hrecord⟩ := hstep.record
  rw [after_unwritten hunwritten] at hrecord
  have hcontents : s'.contents = p.shared.contents := by rw [hrecord]
  have hcached : s'.cached = p.shared.cached := by rw [hrecord]
  constructor
  case issued => exact hstep.issued_rows hs
  case recorded =>
    intro row hrow hnot
    rw [hstep.manifests, hmanifests] at hrow
    rw [hcontents]
    exact hs.recorded row hrow (hcached ▸ hnot)
  case one =>
    rw [hcontents]
    exact hs.one
  case closed =>
    intro c hcm hrow
    rw [hstep.manifests, hmanifests] at hrow
    rw [hcontents] at hcm
    have hclosed := hs.closed c hcm hrow
    rw [hstep.db]
    refine ⟨fun d hd => ?_, fun d hd => hrefs ▸ hclosed.refs d hd⟩
    obtain ⟨l, hl, hrepo, hdigest⟩ := hclosed.blobs d hd
    rcases hlinks l hl with hl | ⟨ha, hdrop⟩
    · exact ⟨l, hl, hrepo, hdigest⟩
    · -- the link is needed by this manifest
      have href := hclosed.refs d (mem_append_left _ hd)
      exact absurd ⟨hrepo.symm, hdigest.symm⟩
        (unneeded_refs (unneeded_of_dropped hc ht hl ha hdrop) href)

variable {c : RepoId × Parsed}

theorem mem_others {contents : List (RepoId × Parsed)} :
    c ∈ contents.filter (fun c => decide (rowOf c.1 c.2 ≠ rowOf repo m)) ↔
      c ∈ contents ∧ rowOf c.1 c.2 ≠ rowOf repo m := by
  rw [mem_filter, decide_eq_true_eq]

variable {pushed : Bool}

theorem mem_written :
    c ∈ (s.written repo m pushed registry).contents ↔
      (c ∈ s.contents ∧ rowOf c.1 c.2 ≠ rowOf repo m) ∨ (pushed = true ∧ c = (repo, m)) := by
  unfold Indexed.written
  cases pushed with
  | true =>
    simp only [if_true, mem_append, mem_others, mem_singleton, true_and]
  | false =>
    simp only [Bool.false_eq_true, if_false, mem_others, false_and, or_false]

theorem mem_written_cached {row : ManifestRow} :
    row ∈ (s.written repo m pushed registry).cached ↔
      (row ∈ s.cached ∧ row ≠ rowOf repo m) ∨ (pushed = false ∧ row = rowOf repo m) := by
  unfold Indexed.written
  cases pushed with
  | true =>
    simp only [if_true, mem_filter, decide_eq_true_eq, Bool.true_eq_false, false_and, or_false]
  | false =>
    simp only [Bool.false_eq_true, if_false, mem_append, mem_filter,
      decide_eq_true_eq, mem_singleton, true_and]

theorem IndexInv.wrote (hs : IndexInv s) (hstep : IndexStep hash s t a s' t' called i)
    (hok : PushTaskOk s.registry t)
    (hw : t.writes = some (repo, m, pushed)) (ha : a ≠ .answer .failed)
    (hupsert : s.registry.upsertManifest repo m = some called) : IndexInv s' := by
  obtain ⟨hexists, hlinks, hrefs, hrows, hothers⟩ := upsertManifest_tables hupsert
  obtain ⟨registry, hrecord⟩ := hstep.record
  have hwritten : s' = s.written repo m pushed registry := by
    rw [hrecord]
    unfold Indexed.after
    rw [hw]
    exact if_pos ⟨ha, hexists⟩
  have hcontents : ∀ {c}, c ∈ s'.contents ↔
      (c ∈ s.contents ∧ rowOf c.1 c.2 ≠ rowOf repo m) ∨ (pushed = true ∧ c = (repo, m)) := by
    intro c
    rw [hwritten]
    exact mem_written
  constructor
  case issued => exact hstep.issued_rows hs
  case recorded =>
    intro row hrow hnot
    rw [hwritten, mem_written_cached, not_or] at hnot
    rw [hstep.manifests] at hrow
    by_cases hthis : row = rowOf repo m
    · have hpushed : pushed = true := by
        cases pushed with
        | true => rfl
        | false => exact absurd ⟨rfl, hthis⟩ hnot.2
      exact ⟨(repo, m), hcontents.mpr (.inr ⟨hpushed, rfl⟩), hthis.symm⟩
    · have hold := (hrows row hrow).resolve_right hthis
      obtain ⟨c, hc, hrow⟩ := hs.recorded row hold fun hcached => hnot.1 ⟨hcached, hthis⟩
      exact ⟨c, hcontents.mpr (.inl ⟨hc, hrow ▸ hthis⟩), hrow⟩
  case one =>
    intro c hc c' hc' hsame
    rcases hcontents.mp hc with ⟨hc, hne⟩ | ⟨-, rfl⟩
    · rcases hcontents.mp hc' with ⟨hc', -⟩ | ⟨-, rfl⟩
      · exact hs.one c hc c' hc' hsame
      · exact absurd hsame hne
    · rcases hcontents.mp hc' with ⟨-, hne⟩ | ⟨-, rfl⟩
      · exact absurd hsame.symm hne
      · rfl
  case closed =>
    intro c hc hrow
    rw [hstep.db]
    rw [hstep.manifests] at hrow
    have hlinked : ∀ {repo d}, s.registry.db.Linked repo d → called.db.Linked repo d := by
      rintro repo d ⟨l, hl, hthis⟩
      exact ⟨l, hlinks ▸ hl, hthis⟩
    rcases hcontents.mp hc with ⟨hc, hne⟩ | ⟨rfl, rfl⟩
    · have hclosed := hs.closed c hc ((hrows _ hrow).resolve_right hne)
      refine ⟨fun d hd => hlinked (hclosed.blobs d hd), fun d hd => ?_⟩
      refine hothers _ (hclosed.refs d hd) fun hsame => hne ?_
      have hrepo : c.1 = repo := hsame.1
      have hdigest : c.2.digest = m.digest := hsame.2
      rw [rowOf, hrepo, hdigest]
      rfl
    · refine ⟨fun d hd => hlinked ?_, hrefs⟩
      -- only a push writes it, which has found all it names
      cases t with
      | manifestPut rq pc =>
        cases pc with
        | upsertManifest r =>
          cases hw
          have hfound : (Task.manifestPut rq (.upsertManifest r)).found r.id d = true := by
            simp only [Task.found, decide_true, Bool.true_and, contains_eq_mem, decide_eq_true_eq]
            exact hd
          rcases hok.found r.id d hfound with hthere | hgone
          · exact hthere
          · obtain ⟨row, hrow, hid⟩ := Db.repositoryExists_iff.mp hexists
            exact absurd hid (hgone row hrow)
        | _ => cases hw
      | manifestGet rq pc => cases pc <;> cases hw
      | content t | mount rq pc | blobGet rq pc => cases hw

theorem IndexInv.env (hs : IndexInv s) {e : RegistryEnv}
    (h : registryEnv hash s.registry e = some registry) :
    IndexInv { s with registry := registry } := by
  obtain ⟨keep, hmanifests, hrefs, hlinks⟩ := registryEnv_tables h
  have heffect := registryEnv_effect h
  constructor
  case issued =>
    intro row hrow
    rw [heffect.issued]
    exact (heffect.db.rows row hrow).elim (hs.issued row) nofun
  case recorded =>
    intro row hrow hnot
    rw [hmanifests] at hrow
    exact hs.recorded row (mem_filter.mp hrow).1 hnot
  case one => exact hs.one
  case closed =>
    intro c hc hrow
    rw [hmanifests] at hrow
    obtain ⟨hold, hkeep⟩ := mem_filter.mp hrow
    have hclosed := hs.closed c hc hold
    refine ⟨fun d hd => ?_, fun d hd => ?_⟩
    · obtain ⟨l, hl, hrepo, hdigest⟩ := hclosed.blobs d hd
      rcases hlinks l hl with hl | ⟨hdropped, -⟩
      · exact ⟨l, hl, hrepo, hdigest⟩
      · rw [hrepo] at hdropped
        exact absurd hkeep (by simp [rowOf, hdropped])
    · rw [hrefs]
      exact mem_filter.mpr ⟨hclosed.refs d hd, hkeep⟩

/-- What running pushes have found is there after a step that meets the condition. -/
theorem PushTaskOk.kept
    (hstep : IndexStep hash p.shared t a s' t' called i) (ht : p.tasks[i]? = some t)
    (hc : DropsUnneeded p (.act i a)) (hq : p.tasks[j]? = some q)
    (hok : PushTaskOk p.shared.registry q) : PushTaskOk s'.registry q := by
  cases q with
  | manifestPut rq pc =>
    have hpush : PushOk p.shared.registry rq pc := hok
    refine hpush.kept hstep.aged fun l hl hfound => .inl ?_
    rw [hstep.db]
    cases requestCall_tables hstep.call with
    | other hlinks hrefs hmanifests hunwritten =>
      rcases hlinks l hl with hl | ⟨ha, hdrop⟩
      · exact hl
      · have hunneeded := unneeded_of_dropped hc ht hl ha hdrop
        rw [unneeded_found hunneeded hq] at hfound
        contradiction
    | wrote hw ha hupsert =>
      obtain ⟨-, hlinks, -⟩ := upsertManifest_tables hupsert
      exact hlinks ▸ hl
  | _ => trivial

theorem closureOutline (hash : Bytes → Digest) :
    (indexedProgram hash).Outline DropsUnneeded IndexInv
      (fun s _ t => PushTaskOk s.registry t) where
  init := by
    rintro s ⟨⟨-, -, -, hissued, -⟩, hmanifests, hcontents, -⟩
    constructor
    case issued =>
      intro row hrow
      rw [hissued]
      exact mem_map_of_mem hrow
    case recorded => simp [hmanifests]
    case one => simp [hcontents]
    case closed => simp [hcontents]
  spawn := fun p t _ _ hfresh => PushTaskOk.spawn hfresh
  act := by
    intro p i a t s' t' h hc ht hact
    obtain ⟨called, hstep⟩ := indexStep hact
    have hkept := PushTaskOk.kept hstep ht hc ht (h.tasks i t ht)
    have hinv : IndexInv s' := by
      cases requestCall_tables hstep.call with
      | other hlinks hrefs hmanifests hunwritten =>
        exact h.shared.other hstep ht hc hlinks hrefs hmanifests hunwritten
      | wrote hw ha hupsert => exact h.shared.wrote hstep (h.tasks i t ht) hw ha hupsert
    refine ⟨hinv, ?_⟩
    have hcall := hstep.call
    unfold requestCall at hcall
    split at hcall
    case h_3 =>
      obtain ⟨⟨s₁, pc'⟩, hput, he⟩ := map_eq_some_iff.mp hcall
      cases he
      refine handleManifestPut_ok (h.tasks i _ ht) hput hkept (fun row hrow => ?_) hstep.db
      exact hinv.issued row (hstep.db ▸ hrow)
    case h_6 => cases hcall
    all_goals
      obtain ⟨out, -, he⟩ := map_eq_some_iff.mp hcall
      cases he
      trivial
  interfere := by
    intro p i a t s' t' h hc ht hact j q _ hq
    obtain ⟨called, hstep⟩ := indexStep hact
    exact PushTaskOk.kept hstep ht hc hq (h.tasks j q hq)
  env := by
    intro p e s' h _ he
    obtain ⟨registry, henv, hs'⟩ := map_eq_some_iff.mp he
    subst hs'
    refine ⟨h.shared.env henv, fun j q hq => ?_⟩
    have hok := h.tasks j q hq
    have heffect := registryEnv_effect henv
    obtain ⟨keep, -, -, hlinks⟩ := registryEnv_tables henv
    cases q with
    | manifestPut rq pc =>
      have hpush : PushOk p.shared.registry rq pc := hok
      refine hpush.kept ⟨heffect.extends.issued, heffect.extends.rows⟩ fun l hl _ => ?_
      exact (hlinks l hl).imp_right And.right
    | _ => trivial

/-- **Manifests keep what they name.** In every run of pushes, blob deletes, garbage
collections and all other requests, in any order, in which no link is dropped that a
manifest names or a running push has found, every manifest that a push wrote has its
config and its layers linked in its repository and its children protected. -/
theorem manifests_closed (hash : Bytes → Digest) {p : Pool Indexed Task}
    (h : (indexedRegistry hash).Run DropsUnneeded p) : ManifestClosure p.shared := by
  have hinv := ((closureOutline hash).run h).shared
  refine ⟨hinv.recorded, hinv.one, fun c hc hrow => (hinv.closed c hc hrow).blobs, ?_⟩
  intro c hc hrow d hd hnone
  have href := (hinv.closed c hc hrow).refs d (mem_append_right _ hd)
  have hnot := countP_eq_zero.mp hnone _ href
  simp at hnot

/-! ## Replayed runs -/

def acmeAlone : Registry where
  storage := { db := { organizations := [⟨"o1", "acme"⟩]
                       repositories := [⟨"r1", "o1", "app", .«private»⟩] }
               driver := []
               now := 0 }
  issued := ["r1"]

def pushConfig : Task := .manifestPut ⟨"acme", "app", emptyConfigManifest, false⟩
  (.resolve .getRepository)

def deleteConfig : Task := .content (.blobDelete "acme" "app" emptyDigest .getRepository)

def pushThenDelete : List (Move Task Reply RegistryEnv) :=
  .spawn upload :: replies 0 6 ++ .spawn pushConfig :: replies 1 7 ++
    .spawn deleteConfig :: replies 2 2

theorem manifests_closed_push : ∃ p, (indexedRegistry sha256OfEmpty).Run DropsUnneeded p ∧
      p.shared.registry.manifests = [⟨"r1", sha256OfEmpty [0]⟩] ∧
      p.tasks[2]? = some (.content (.done 409)) ∧ ManifestClosure p.shared := by
  obtain ⟨p, hp⟩ : ∃ p, (indexedRegistry sha256OfEmpty).replay DropsUnneeded
      ⟨⟨acmeAlone, [], []⟩, []⟩ pushThenDelete = some p := ⟨_, rfl⟩
  have hinit : (indexedRegistry sha256OfEmpty).init ⟨⟨acmeAlone, [], []⟩, []⟩ :=
    ⟨⟨⟨rfl, rfl, rfl, rfl, by decide⟩, rfl, rfl, rfl⟩, rfl⟩
  have hrun : (indexedRegistry sha256OfEmpty).Run DropsUnneeded p := Machine.run_of_replay hinit hp
  refine ⟨p, hrun, ?_, ?_, manifests_closed sha256OfEmpty hrun⟩
  · cases hp
    rfl
  · cases hp
    rfl

/-- The push finds the config, a delete finds that no manifest names it and removes it,
and the push inserts its manifest. -/
def deleteBetween : List (Move Task Reply RegistryEnv) :=
  .spawn upload :: replies 0 6 ++ .spawn pushConfig :: replies 1 4 ++
    .spawn deleteConfig :: replies 2 4 ++ replies 1 3

theorem delete_between_check_and_insert : ∃ p, (indexedRegistry sha256OfEmpty).Reachable p ∧
      p.tasks[1]? = some (.manifestPut ⟨"acme", "app", emptyConfigManifest, false⟩ (.done 201)) ∧
      ¬ ManifestClosure p.shared := by
  obtain ⟨p, hp⟩ : ∃ p, (indexedRegistry sha256OfEmpty).replay (fun _ _ => True)
      ⟨⟨acmeAlone, [], []⟩, []⟩ deleteBetween = some p := ⟨_, rfl⟩
  have hinit : (indexedRegistry sha256OfEmpty).init ⟨⟨acmeAlone, [], []⟩, []⟩ :=
    ⟨⟨⟨rfl, rfl, rfl, rfl, by decide⟩, rfl, rfl, rfl⟩, rfl⟩
  have hrun : (indexedRegistry sha256OfEmpty).Reachable p := Machine.run_of_replay hinit hp
  have hcontents : p.shared.contents = [("r1", emptyConfigManifest)] := by
    cases hp
    rfl
  have hmanifests : p.shared.registry.manifests = [⟨"r1", emptyConfigManifest.digest⟩] := by
    cases hp
    rfl
  have hlinks : p.shared.registry.db.repositoryBlobs = [] := by
    cases hp
    rfl
  refine ⟨p, hrun, by cases hp; rfl, fun h => ?_⟩
  obtain ⟨l, hl, -⟩ := h.blobs ("r1", emptyConfigManifest) (by simp [hcontents])
    (by simp [hmanifests, rowOf]) emptyDigest (by decide)
  simp [hlinks] at hl

end Chicoree.Registryd
