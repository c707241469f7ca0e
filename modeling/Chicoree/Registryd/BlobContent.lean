import Chicoree.Registryd.BlobHandlers

/-! # Every blob row has its content

A commit relies on an object from the moment it found it (`Stat`) or published it (`Put`) until
it records the blob; a blob delete or a garbage collection removes an object some time after its
transaction removed the row. The rows keep their content in every run in which no object is
removed while a row names it or a commit relies on it. -/

namespace Chicoree.Registryd

open Transition BlobTask List

/-! ## The driver -/

variable {d : Digest} {c : Bytes}

namespace Driver

variable {dr : Driver}

theorem stat_eq_true : dr.stat d = true ↔ ∃ c, (d, c) ∈ dr := by
  simp [stat]

theorem stat_put_self (dr : Driver) (d : Digest) (c : Bytes) : (dr.put d c).stat d = true := by
  unfold put stat Table.upsert
  split
  · rename_i h
    obtain ⟨o, ho, hd⟩ := any_eq_true.mp h
    refine any_eq_true.mpr ⟨(d, c), mem_map.mpr ⟨o, ho, ?_⟩, by simp⟩
    simp only [decide_eq_true_eq] at hd
    simp [hd]
  · simp

theorem stat_put (e : Digest) (c : Bytes) (h : dr.stat d = true) : (dr.put e c).stat d = true := by
  by_cases hde : d = e
  · exact hde ▸ stat_put_self dr d c
  · unfold put stat Table.upsert at *
    obtain ⟨o, ho, hd⟩ := any_eq_true.mp h
    simp only [decide_eq_true_eq] at hd
    split
    · refine any_eq_true.mpr ⟨o, mem_map.mpr ⟨o, ho, ?_⟩, by simpa using hd⟩
      simp [hd, hde]
    · exact any_eq_true.mpr ⟨o, mem_append_left _ ho, by simpa using hd⟩

theorem stat_delete {e : Digest} (h : dr.stat d = true) (hne : d ≠ e) :
    (dr.delete e).stat d = true := by
  obtain ⟨c, hc⟩ := stat_eq_true.mp h
  exact stat_eq_true.mpr ⟨c, mem_filter.mpr ⟨hc, by simpa using hne⟩⟩

/-- Every object is stored under the digest of its content. -/
def Verified (hash : Bytes → Digest) (dr : Driver) : Prop :=
  ∀ o ∈ dr, hash o.2 = o.1

variable {hash : Bytes → Digest}

theorem Verified.put (h : dr.Verified hash) (hc : hash c = d) : (dr.put d c).Verified hash := by
  intro o ho
  unfold Driver.put Table.upsert at ho
  split at ho
  · obtain ⟨x, hx, rfl⟩ := mem_map.mp ho
    split
    · exact hc
    · exact h x hx
  · rcases mem_append.mp ho with ho | ho
    · exact h o ho
    · simp only [mem_singleton] at ho
      subst ho
      exact hc

theorem Verified.delete (h : dr.Verified hash) (d : Digest) : (dr.delete d).Verified hash :=
  fun o ho => h o (mem_filter.mp ho).1

end Driver

/-- The request is a commit of the digest that found or published its object and
has not recorded the blob yet. -/
def BlobTask.relies (d : Digest) : BlobTask → Bool
  | .commit rq (.resolve true _) => decide (rq.expected = d)
  | .commit rq (.upsertBlob _) => decide (rq.expected = d)
  | _ => false

/-- The request's next call removes the object of this digest. -/
def BlobTask.erases : BlobTask → Option Digest
  | .blobDelete _ _ d .erase => some d
  | .gc _ (.erase (d :: _)) => some d
  | _ => none

/-- **The condition on a step.** Where it removes the object of a digest, no row
of `blobs` names the digest and no running commit relies on the object. -/
def erasesUnused (p : Pool Storage BlobTask) : Move BlobTask Answer Surrounding → Bool
  | .act i a =>
    match p.tasks[i]?.bind erases with
    | none => true
    | some d =>
      decide (a = .failed) ||
        (p.shared.db.blobs.all (fun b => decide (b.digest ≠ d)) &&
          p.tasks.all fun t => !t.relies d)
  | _ => true

abbrev ErasesUnused (p : Pool Storage BlobTask)
    (m : Move BlobTask Answer Surrounding) : Prop :=
  erasesUnused p m = true

variable {p : Pool Storage BlobTask} {i : Nat}

theorem ErasesUnused.unused {t : BlobTask}
    {a : Answer} (h : ErasesUnused p (.act i a)) (ht : p.tasks[i]? = some t)
    (hd : t.erases = some d) (ha : a ≠ .failed) :
    (∀ b ∈ p.shared.db.blobs, b.digest ≠ d) ∧ ∀ q ∈ p.tasks, q.relies d = false := by
  simpa [ErasesUnused, erasesUnused, ht, hd, ha] using h

/-- What a call of a request may change: the objects stay verified; a new row, and
a reliance the request did not have, is on an object that is there; an object is
only removed by a request about to remove it. -/
structure CallEffect (hash : Bytes → Digest) (s : Storage) (t : BlobTask)
    (a : Answer) (s' : Storage) (t' : BlobTask) : Prop where
  verified : s.driver.Verified hash → s'.driver.Verified hash
  rows : ∀ b ∈ s'.db.blobs, b ∈ s.db.blobs ∨ t.relies b.digest = true
  relies : ∀ d, t'.relies d = true → t.relies d = true ∨ s'.driver.stat d = true
  objects : ∀ d, s.driver.stat d = true →
    s'.driver.stat d = true ∨ (t.erases = some d ∧ a ≠ .failed)

variable {hash : Bytes → Digest} {s s' : Storage} {t t' : BlobTask} {a : Answer}

theorem CallEffect.quiet (hdr : s'.driver = s.driver) (hrows : ∀ b ∈ s'.db.blobs, b ∈ s.db.blobs)
    (hrel : ∀ d, t'.relies d = true → t.relies d = true) :
    CallEffect hash s t a s' t' where
  verified h := hdr ▸ h
  rows b hb := .inl (hrows b hb)
  relies d h := .inl (hrel d h)
  objects d h := .inl (by rw [hdr]; exact h)

theorem CallEffect.erase (hs : s' = { s with driver := s.driver.delete d })
    (ht : t.erases = some d) (ha : a ≠ .failed)
    (hrel : ∀ e, t'.relies e = true → t.relies e = true) :
    CallEffect hash s t a s' t' := by
  subst hs
  refine ⟨fun h => h.delete d, fun b hb => .inl hb, fun e h => .inl (hrel e h), ?_⟩
  intro e he
  by_cases hed : e = d
  · exact .inr ⟨hed ▸ ht, ha⟩
  · exact .inl (Driver.stat_delete he hed)

theorem CallEffect.put (hc : hash c = d) (hs : s' = { s with driver := s.driver.put d c })
    (hrel : ∀ e, t'.relies e = true → e = d) : CallEffect hash s t a s' t' := by
  subst hs
  refine ⟨fun h => h.put hc, fun b hb => .inl hb, fun e h => .inr ?_,
    fun e he => .inl (Driver.stat_put d c he)⟩
  exact hrel e h ▸ Driver.stat_put_self s.driver d c

theorem commitUpload_effect {rq : CommitRequest} {pc : CommitPc}
    (h : commitUpload hash s rq pc a = some (s', t')) :
    CallEffect hash s (.commit rq pc) a s' t' := by
  have hresolve {db : Db} {found : Bool} {pc : ResolvePc} {out : Resolved} {t' : BlobTask}
      (h : resolveStep s.db rq.org rq.name rq.expected pc a = some (db, out))
      (hrel : ∀ d, t'.relies d = true → (commit rq (.resolve found pc)).relies d = true) :
      CallEffect hash s (.commit rq (.resolve found pc)) a { s with db := db } t' := by
    obtain ⟨repositories, rfl⟩ := resolveStep_rest h
    exact .quiet rfl (fun b hb => hb) hrel
  have hupsert {db : Db} {r : Repository} {t' : BlobTask} (hrel : ∀ d, t'.relies d = false)
      (h : s.db.upsertBlob r.id rq.expected rq.session.offset s.now = some db) :
      CallEffect hash s (.commit rq (.upsertBlob r)) a { s with db := db } t' := by
    refine ⟨id, fun b hb => ?_, fun d hd => by simp [hrel] at hd, fun d hd => .inl hd⟩
    rcases Db.mem_blobs_upsertBlob h hb with hb | hb
    · exact .inl hb
    · exact .inr (by simp [relies, hb])
  cases commitUpload_call h with
  | found stat =>
    -- the fast path: from here on the commit relies on the object it found
    refine ⟨id, fun b hb => .inl hb, fun d hd => .inr ?_, fun d hd => .inl hd⟩
    have hd : rq.expected = d := by simpa [relies] using hd
    exact hd ▸ stat
  | missing | answered => exact .quiet rfl (fun b hb => hb) (by simp [relies])
  | @more found _ _ _ _ resolve | @resolved found _ _ _ _ resolve =>
    exact hresolve resolve (by cases found <;> simp [relies])
  | resolveAnswered resolve => exact hresolve resolve (by simp [relies])
  | put digest =>
    refine .put digest rfl fun e he => ?_
    simpa [relies, eq_comm] using he
  | putLost digest => exact .put digest rfl (by simp [relies])
  | upsert row | upsertLost row => exact hupsert (by simp [relies]) row

theorem handleBlobDelete_effect {org name : String} {pc : DeletePc}
    (h : handleBlobDelete s org name d pc a = some (s', t')) :
    CallEffect hash s (.blobDelete org name d pc) a s' t' := by
  cases handleBlobDelete_call h with
  | answered | looked | free => exact .quiet rfl (fun b hb => hb) (by simp [relies])
  | unlinkLast _ row | unlink _ row =>
    exact .quiet rfl (fun b hb => Db.mem_blobs_unlinkBlob row hb) (by simp [relies])
  | erase took => exact .erase rfl rfl took (by simp [relies])

theorem handleGC_effect {grace : Nat} {pc : GcPc} (h : handleGC s grace pc a = some (s', t')) :
    CallEffect hash s (.gc grace pc) a s' t' := by
  cases handleGC_call h with
  | orphans | orphansLost =>
    exact .quiet rfl (fun b hb => Db.mem_blobs_deleteOrphans hb) (by simp [relies])
  | erase took => exact .erase rfl rfl took (by simp [relies])
  | ended | unlink | unlinkLost | kept => exact .quiet rfl (fun b hb => hb) (by simp [relies])

theorem blobAct_effect (i : Nat) (h : blobAct hash s i t a = some (s', t')) :
    CallEffect hash s t a s' t' := by
  cases t with
  | commit rq pc => exact commitUpload_effect h
  | blobDelete org name d pc => exact handleBlobDelete_effect h
  | gc grace pc => exact handleGC_effect h
  | done status => simp [blobAct] at h

theorem blobEnv_effect {e : Surrounding} (h : blobEnv s e = some s') :
    s'.driver = s.driver ∧ s'.db.blobs = s.db.blobs := by
  cases e with
  | mount repo d =>
    simp only [blobEnv] at h
    split at h
    · cases h
      exact ⟨rfl, rfl⟩
    · contradiction
  | _ =>
    cases h
    exact ⟨rfl, rfl⟩

/-! ## The invariant -/

/-- Rows have their objects, and objects their content. -/
structure ContentInv (hash : Bytes → Digest) (s : Storage) : Prop where
  rows : ∀ b ∈ s.db.blobs, s.driver.stat b.digest = true
  verified : s.driver.Verified hash

/-- The object a running commit relies on is there. -/
def Reliable (s : Storage) (_ : Nat) (t : BlobTask) : Prop :=
  ∀ d, t.relies d = true → s.driver.stat d = true

theorem stat_kept (hc : ErasesUnused p (.act i a)) (ht : p.tasks[i]? = some t)
    (he : CallEffect hash p.shared t a s' t') (hd : p.shared.driver.stat d = true)
    (huse : (∃ b ∈ p.shared.db.blobs, b.digest = d) ∨ ∃ q ∈ p.tasks, q.relies d = true) :
    s'.driver.stat d = true := by
  rcases he.objects d hd with h | ⟨hes, hne⟩
  · exact h
  · have hno := hc.unused ht hes hne
    rcases huse with ⟨b, hb, hbd⟩ | ⟨q, hq, hqd⟩
    · exact absurd hbd (hno.1 b hb)
    · rw [hno.2 q hq] at hqd
      contradiction

theorem contentOutline (hash : Bytes → Digest) :
    (blobProgram hash).Outline ErasesUnused (ContentInv hash) Reliable where
  init s h := by
    obtain ⟨hb, -, hd⟩ := h
    refine ⟨fun b hb' => ?_, fun o ho => ?_⟩
    · simp [hb] at hb'
    · simp [hd] at ho
  spawn p t _ _ hf d hd := by
    -- a request that just arrived relies on nothing
    cases t with
    | commit rq pc => cases pc <;> simp_all [blobProgram, fresh, relies]
    | _ => simp [relies] at hd
  act p i a t s' t' h hc ht ha := by
    have he := blobAct_effect i ha
    have hmem : t ∈ p.tasks := mem_of_getElem? ht
    refine ⟨⟨fun b hb => ?_, he.verified h.shared.verified⟩, fun d hd => ?_⟩
    · rcases he.rows b hb with hb | hrel
      · exact stat_kept hc ht he (h.shared.rows b hb) (.inl ⟨b, hb, rfl⟩)
      · exact stat_kept hc ht he (h.tasks i t ht _ hrel) (.inr ⟨t, hmem, hrel⟩)
    · rcases he.relies d hd with hrel | hs
      · exact stat_kept hc ht he (h.tasks i t ht d hrel) (.inr ⟨t, hmem, hrel⟩)
      · exact hs
  interfere p i a t s' t' h hc ht ha j q _ hq d hd :=
    stat_kept hc ht (blobAct_effect i ha) (h.tasks j q hq d hd) (.inr ⟨q, mem_of_getElem? hq, hd⟩)
  env p e s' h _ he := by
    obtain ⟨hdr, hb⟩ := blobEnv_effect he
    refine ⟨⟨fun b hb' => ?_, hdr ▸ h.shared.verified⟩, fun j q hq d hd => ?_⟩
    · rw [hdr]
      exact h.shared.rows b (hb ▸ hb')
    · rw [hdr]
      exact h.tasks j q hq d hd

/-- A registry whose rows all have their content. -/
def RowsHaveContent (hash : Bytes → Digest) (s : Storage) : Prop :=
  ∀ b ∈ s.db.blobs, ∃ c, (b.digest, c) ∈ s.driver ∧ hash c = b.digest

def Quiet (p : Pool Storage BlobTask) : Prop :=
  ∀ t ∈ p.tasks, t.isDone = true

/-- **Rows have content.** In every run in which objects are only removed while
unused, every blob row has its verified content in the driver, in every state and
so in the quiet ones. -/
theorem blob_rows_have_content (hash : Bytes → Digest) {p : Pool Storage BlobTask}
    (h : (blobProgram hash).machine.Run ErasesUnused p) :
    RowsHaveContent hash p.shared := by
  have hp := (contentOutline hash).run h
  intro b hb
  obtain ⟨c, hc⟩ := Driver.stat_eq_true.mp (hp.shared.rows b hb)
  exact ⟨c, hc, hp.shared.verified _ hc⟩

/-! ## Replayed runs -/

def sha256OfEmpty : Bytes → Digest
  | [] => "sha256:e3b0c44298fc1c149afbf4c8996fb92427ae41e4649b934ca495991b7852b855"
  | _ => "sha256:6e340b9cffb37a989ca544e6bb780a2c78901d3fb33738768511a30617afa01d"

def emptyCommit : BlobTask :=
  .commit ⟨"acme", "app", sha256OfEmpty [], ⟨[], 0⟩⟩ .stat

def emptyDelete : BlobTask :=
  .blobDelete "acme" "app" (sha256OfEmpty []) .getRepository

def acme : Storage where
  db := { organizations := [⟨"o1", "acme"⟩]
          repositories := [⟨"r1", "o1", "app", .«private»⟩] }
  driver := []
  now := 0

def calls (i n : Nat) : List (Move BlobTask Answer Surrounding) :=
  List.replicate n (.act i .ok)

def deleteBetweenCommits : List (Move BlobTask Answer Surrounding) :=
  .spawn emptyCommit :: calls 0 6 ++ .spawn emptyDelete :: calls 1 4 ++
    .spawn emptyCommit :: calls 2 6

theorem blob_rows_have_content_acme : ∃ p, (blobProgram sha256OfEmpty).machine.Run ErasesUnused p ∧
      p.shared.db.blobs.map (·.digest) = [sha256OfEmpty []] ∧
      RowsHaveContent sha256OfEmpty p.shared := by
  obtain ⟨p, hp⟩ : ∃ p, (blobProgram sha256OfEmpty).machine.replay ErasesUnused
      ⟨acme, []⟩ deleteBetweenCommits = some p := ⟨_, rfl⟩
  have hrun : (blobProgram sha256OfEmpty).machine.Run ErasesUnused p :=
    Machine.run_of_replay ⟨⟨rfl, rfl, rfl⟩, rfl⟩ hp
  refine ⟨p, hrun, ?_, blob_rows_have_content sha256OfEmpty hrun⟩
  cases hp
  rfl

/-- A commit finds the object of a content the repository holds already; before
it records the blob, a delete removes row and object. -/
def deleteInsideCommit : List (Move BlobTask Answer Surrounding) :=
  .spawn emptyCommit :: calls 0 6 ++ .spawn emptyCommit :: calls 1 1 ++
    .spawn emptyDelete :: calls 2 4 ++ calls 1 4

theorem commit_without_content : ∃ p, (blobProgram sha256OfEmpty).machine.Reachable p ∧ Quiet p ∧
      p.tasks = [.done 201, .done 201, .done 202] ∧
      p.shared.db.blobs.map (·.digest) = [sha256OfEmpty []] ∧ p.shared.driver = [] ∧
      ¬ RowsHaveContent sha256OfEmpty p.shared := by
  obtain ⟨p, hp⟩ : ∃ p, (blobProgram sha256OfEmpty).machine.replay (fun _ _ => True)
      ⟨acme, []⟩ deleteInsideCommit = some p := ⟨_, rfl⟩
  have hrun : (blobProgram sha256OfEmpty).machine.Reachable p :=
    Machine.run_of_replay ⟨⟨rfl, rfl, rfl⟩, rfl⟩ hp
  have htasks : p.tasks = [.done 201, .done 201, .done 202] := by
    cases hp
    rfl
  have hblobs : p.shared.db.blobs = [⟨sha256OfEmpty [], 0, 0⟩] := by
    cases hp
    rfl
  have hdriver : p.shared.driver = [] := by
    cases hp
    rfl
  refine ⟨p, hrun, by simp [Quiet, htasks, isDone], htasks, by simp [hblobs], hdriver, fun h => ?_⟩
  obtain ⟨c, hc, -⟩ := h ⟨sha256OfEmpty [], 0, 0⟩ (by simp [hblobs])
  simp [hdriver] at hc

end Chicoree.Registryd
