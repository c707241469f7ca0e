import Chicoree.PullBlocks.ReadSoFar
import Chicoree.PullBlocks.StaysBlocked

/-! # Pull blocks converge

From a change on some run has yet to look, or the writes some run has left repair every row
that is not right, or every row is right: a run that reads late enough carries the others. -/

namespace Chicoree.PullBlocks

open Option (all_some isNone_iff_eq_none map_eq_some_iff)
open Registryd (Digest)
open Transition List Table World

section convergence

variable {lower : String → String} {id : Id}

/-! ## Rows and writes -/

def BlockWrite.digest : BlockWrite → Digest
  | .upsert b => b.digest
  | .delete d => d

section writes

variable {c : Computed} {blocks : List Block} {write : BlockWrite} {d : Digest}

theorem find_apply_agrees (h : c.agrees write = true) :
    Table.find (·.digest) write.digest (write.apply blocks) =
      Table.find (·.digest) write.digest c.rows := by
  cases write with
  | upsert b =>
    have hfind : Table.find (·.digest) b.digest c.rows = some b := of_decide_eq_true h
    have hself : Table.find (·.digest) b.digest (Table.upsert (·.digest) b blocks) = some b :=
      find_upsert_self b blocks
    exact hself.trans hfind.symm
  | delete d =>
    have hnone : Table.find (·.digest) d c.rows = none := isNone_iff_eq_none.mp h
    refine Eq.trans ?_ hnone.symm
    refine find?_eq_none.mpr fun b hb hkey => ?_
    exact of_decide_eq_true (mem_filter.mp hb).2 (of_decide_eq_true hkey)

theorem find_apply_ne (h : d ≠ write.digest) :
    Table.find (·.digest) d (write.apply blocks) = Table.find (·.digest) d blocks := by
  cases write with
  | upsert b =>
    have hkey : d ≠ (·.digest) b := h
    exact find_upsert_ne hkey blocks
  | delete d' => exact find_filter_ne h blocks

theorem keyed_apply (h : Table.Keyed (·.digest) blocks) :
    Table.Keyed (·.digest) (write.apply blocks) :=
  keyed_foldl_apply h [write]

theorem find_rows_eq_none : Table.find (·.digest) d c.rows = none ↔ c.final.get d = none := by
  have hmap : Table.find (·.digest) d c.rows =
      (Table.find Prod.fst d c.final).map fun e => ⟨e.1, e.2, c.pushersExempt e.1⟩ := by
    unfold Computed.rows Table.find
    rw [find?_map]
    rfl
  unfold Reasons.get
  rw [hmap, Option.map_eq_none_iff, Option.map_eq_none_iff]

theorem Computed.Sound.writes_agree (h : c.Sound) (hwrite : write ∈ c.writes blocks) :
    c.agrees write = true := by
  rcases mem_append.mp hwrite with hup | hdel
  · obtain ⟨b, hb, rfl⟩ := mem_map.mp hup
    exact decide_eq_true (h.rows.find_self (mem_filter.mp hb).1)
  · obtain ⟨e, he, rfl⟩ := mem_map.mp hdel
    have hget : c.final.get e.digest = none := isNone_iff_eq_none.mp (mem_filter.mp he).2
    exact isNone_iff_eq_none.mpr (find_rows_eq_none.mpr hget)

theorem writes_cover (c : Computed) (blocks : List Block) (d : Digest) :
    Table.find (·.digest) d blocks = Table.find (·.digest) d c.rows ∨
      ∃ write ∈ c.writes blocks, write.digest = d := by
  cases hrow : Table.find (·.digest) d c.rows with
  | some b =>
    obtain ⟨hb, hkey⟩ := find_some hrow
    by_cases hsame : Table.find (·.digest) d blocks = some b
    · exact .inl hsame
    · refine .inr ⟨.upsert b, mem_append_left _ (mem_map_of_mem ?_), hkey⟩
      rw [mem_filter, decide_eq_true_eq, hkey]
      exact ⟨hb, hsame⟩
  | none =>
    cases hold : Table.find (·.digest) d blocks with
    | none => exact .inl rfl
    | some e =>
      obtain ⟨he, hkey⟩ := find_some hold
      refine .inr ⟨.delete e.digest, mem_append_right _ ?_, hkey⟩
      refine mem_map_of_mem (f := fun e : Block => BlockWrite.delete e.digest) ?_
      rw [mem_filter, hkey, isNone_iff_eq_none]
      exact ⟨he, find_rows_eq_none.mp hrow⟩

end writes

/-! ## Repairs -/

def World.current (lower : String → String) (id : Id) (w : World) : Option Computed :=
  (w.readingOf id).bind (compute lower)

/-- The writes left are right, and repair every row that is not. -/
def Repairing (lower : String → String) (id : Id) (w : World) (todo : List BlockWrite) : Prop :=
  ∀ c, w.current lower id = some c → ∀ r, w.repo id = some r →
    (∀ write ∈ todo, c.agrees write = true) ∧
    ∀ d, Table.find (·.digest) d r.blocks = Table.find (·.digest) d c.rows ∨
      ∃ write ∈ todo, write.digest = d

variable {w' : World}

section repairs

variable {w : World} {r : Repo} {todo : List BlockWrite} {write : BlockWrite}

theorem current_setBlocks (blocks : List Block) :
    (w.setBlocks id blocks).current lower id = w.current lower id := by
  unfold current
  rw [readingOf_setBlocks]

theorem Repairing.written (hr : w.repo id = some r)
    (hagrees : ∀ c, w.current lower id = some c → c.agrees write = true)
    (h : ∀ c, w.current lower id = some c → (∀ x ∈ todo, c.agrees x = true) ∧
      ∀ d, d ≠ write.digest → Table.find (·.digest) d r.blocks = Table.find (·.digest) d c.rows ∨
          ∃ x ∈ todo, x.digest = d) :
    Repairing lower id (w.setBlocks id (write.apply r.blocks)) todo := by
  intro c hc r' hr'
  rw [current_setBlocks] at hc
  rw [repo_setBlocks_self hr] at hr'
  cases hr'
  obtain ⟨htodo, hrest⟩ := h c hc
  refine ⟨htodo, fun d => ?_⟩
  by_cases hd : d = write.digest
  · rw [hd]
    exact .inl (find_apply_agrees (hagrees c hc))
  · rw [find_apply_ne hd]
    exact hrest d hd

theorem Repairing.own (hr : w.repo id = some r) (h : Repairing lower id w (write :: todo)) :
    Repairing lower id (w.setBlocks id (write.apply r.blocks)) todo := by
  refine Repairing.written hr (fun c hc => (h c hc r hr).1 write (mem_cons_self ..)) ?_
  intro c hc
  obtain ⟨hagree, hcover⟩ := h c hc r hr
  refine ⟨fun x hx => hagree x (mem_cons_of_mem _ hx), fun d hd => ?_⟩
  rcases hcover d with hsame | ⟨x, hx, hkey⟩
  · exact .inl hsame
  · rcases mem_cons.mp hx with rfl | hx
    · exact absurd hkey.symm hd
    · exact .inr ⟨x, hx, hkey⟩

theorem Repairing.other (hr : w.repo id = some r) (hfits : fitsNow lower id w write = true)
    (h : Repairing lower id w todo) :
    Repairing lower id (w.setBlocks id (write.apply r.blocks)) todo := by
  refine Repairing.written hr (fun c hc => ?_) fun c hc => ⟨(h c hc r hr).1, fun d _ =>
    (h c hc r hr).2 d⟩
  unfold fitsNow at hfits
  unfold current readingOf at hc
  rw [hr] at hfits hc
  have hcompute : compute lower (w.reading r) = some c := hc
  have hall : (compute lower (w.reading r)).all (fun c => c.agrees write) = true := hfits
  rw [hcompute] at hall
  exact hall

theorem repairing_writes (hw : w.Keyed) (hr : w.repo id = some r) {c : Computed}
    (hc : w.current lower id = some c) : Repairing lower id w (c.writes r.blocks) := by
  have hsound : c.Sound := by
    unfold current readingOf at hc
    rw [hr] at hc
    exact compute_sound (hw.manifests r (mem_of_repo hr).1) hc
  intro c' hc' r' hr'
  rw [hc] at hc'
  rw [hr] at hr'
  cases hc'
  cases hr'
  exact ⟨fun x hx => hsound.writes_agree hx, fun d => writes_cover c r.blocks d⟩

theorem Repairing.congr (hreading : w'.readingOf id = w.readingOf id)
    (hrepo : w'.repo id = w.repo id) (h : Repairing lower id w todo) :
    Repairing lower id w' todo := by
  unfold Repairing current
  rw [hreading, hrepo]
  exact h

theorem converged_of_repairing (hw : w.Keyed) (h : Repairing lower id w []) :
    Converged lower id w := by
  intro r r' hr hr' b
  unfold refresh at hr'
  rw [hr] at hr'
  simp only at hr'
  have hkeyed : Table.Keyed (·.digest) r.blocks := hw.blocks r (mem_of_repo hr).1
  cases hout : compute lower (w.reading r) with
  | none =>
    unfold refreshRepositoryBlocks at hr'
    rw [hout] at hr'
    simp only [Option.map_none] at hr'
    rw [hr] at hr'
    cases hr'
    exact Iff.rfl
  | some c =>
    have hcurrent : w.current lower id = some c := by
      unfold current readingOf
      rw [hr]
      exact hout
    have hsound : c.Sound := compute_sound (hw.manifests r (mem_of_repo hr).1) hout
    unfold refreshRepositoryBlocks at hr'
    rw [hout] at hr'
    simp only [Option.map_some] at hr'
    rw [repo_setBlocks_self hr] at hr'
    cases hr'
    rw [hsound.written hkeyed, hsound.rows.mem_iff, hkeyed.mem_iff]
    rcases (h c hcurrent r hr).2 b.digest with hsame | ⟨x, hx, -⟩
    · rw [hsame]
    · cases hx

end repairs

/-! ## Runs -/

/-- The tables are keyed and hold the repository. -/
def Shared.Good (id : Id) (s : Shared) : Prop := s.world.Keyed ∧ (s.world.repo id).isSome

/-- A run that read since the last change has read the tables as they are. -/
def Task.ReadSoFar (id : Id) (s : Shared) (t : Task) : Prop :=
  match t.pc with
  | .reading stage rd since => since ≤ s.version ∧ (since = s.version →
      ∃ full, s.world.readingOf id = some full ∧ full.visits stage = true ∧ rd = full.upTo stage)
  | _ => True

section runs

variable {s s' : Shared} {t t' : Task}

inductive Effect (lower : String → String) (id : Id) (s : Shared) (t : Task) :
    Shared → Task → Prop where
  | changed {statement : Statement} {todo : List Statement} :
      t.pc = .changing (statement :: todo) → statement.fits id s.world t.target = true →
      Effect lower id s t
        ⟨statement.apply id s.world t.target,
          if statement.touches id s.world t.target then s.version + 1 else s.version⟩
        { t with pc := .changing todo }
  | made : t.pc = .changing [] →
      Effect lower id s t s { t with pc := if t.target = .repository then .start else .list }
  | listed : t.pc = .list →
      Effect lower id s t s { t with pc := if t.target.concerns id s.world then .start else .done }
  | began {r : Repo} : t.pc = .start → s.world.repo id = some r →
      Effect lower id s t s { t with pc := .reading .org (.blank r.row) s.version }
  | read {stage : Stage} {rd : Reading} {since : Nat} {r : Repo} :
      t.pc = .reading stage rd since → s.world.repo id = some r →
      Effect lower id s t s { t with pc := readStep lower s r rd since stage }
  | wrote {write : BlockWrite} {todo : List BlockWrite} {r : Repo} :
      t.pc = .writing (write :: todo) → s.world.repo id = some r →
      Effect lower id s t { s with world := s.world.setBlocks id (write.apply r.blocks) }
        { t with pc := .writing todo }
  | finished : t.pc = .writing [] → Effect lower id s t s { t with pc := .done }

theorem runAct_effect (j : Nat) (h : runAct lower id s j t () = some (s', t')) :
    Effect lower id s t s' t' := by
  unfold runAct at h
  cases hpc : t.pc with
  | changing todo =>
    rw [hpc] at h
    cases todo with
    | nil =>
      cases h
      exact .made hpc
    | cons statement todo =>
      simp only at h
      split at h
      · rename_i hfits
        cases h
        exact .changed hpc hfits
      · cases h
  | list =>
    rw [hpc] at h
    cases h
    exact .listed hpc
  | start =>
    rw [hpc] at h
    obtain ⟨r, hr, heq⟩ := map_eq_some_iff.mp h
    cases heq
    exact .began hpc hr
  | reading stage rd since =>
    rw [hpc] at h
    obtain ⟨r, hr, heq⟩ := map_eq_some_iff.mp h
    cases heq
    exact .read hpc hr
  | writing todo =>
    rw [hpc] at h
    cases todo with
    | nil =>
      cases h
      exact .finished hpc
    | cons write todo =>
      obtain ⟨r, hr, heq⟩ := map_eq_some_iff.mp h
      cases heq
      exact .wrote hpc hr
  | done =>
    rw [hpc] at h
    cases h

theorem readSoFar_of (hversion : s.version < s'.version ∨
      s'.version = s.version ∧ s'.world.readingOf id = s.world.readingOf id)
    (h : t.ReadSoFar id s) : t.ReadSoFar id s' := by
  unfold Task.ReadSoFar at h ⊢
  cases hpc : t.pc with
  | reading stage rd since =>
    rw [hpc] at h
    simp only at h ⊢
    obtain ⟨hle, hread⟩ := h
    rcases hversion with hlt | ⟨heq, hreading⟩
    · exact ⟨by omega, fun hsince => by omega⟩
    · rw [heq, hreading]
      exact ⟨hle, hread⟩
  | changing todo | list | start | writing todo | done => trivial

theorem Effect.version (h : Effect lower id s t s' t') : s.version < s'.version ∨
    s'.version = s.version ∧ s'.world.readingOf id = s.world.readingOf id := by
  cases h with
  | changed hpc hfits =>
    rename_i statement todo
    cases htouches : statement.touches id s.world t.target with
    | true =>
      refine .inl ?_
      simp only [if_true]
      omega
    | false => exact .inr ⟨rfl, (readingOf_apply hfits htouches).1⟩
  | made hpc | listed hpc | began hpc hr | read hpc hr | finished hpc => exact .inr ⟨rfl, rfl⟩
  | wrote hpc hr => exact .inr ⟨rfl, readingOf_setBlocks _⟩

theorem Effect.good (h : Effect lower id s t s' t') (hs : s.Good id) : s'.Good id := by
  cases h with
  | changed hpc hfits =>
    obtain ⟨hkeyed, hrepo, -⟩ := apply_keeps hs.1 hs.2 hfits
    exact ⟨hkeyed, hrepo⟩
  | made hpc | listed hpc | began hpc hr | read hpc hr | finished hpc => exact hs
  | wrote hpc hr =>
    refine ⟨hs.1.setBlocks (keyed_apply (hs.1.blocks _ (mem_of_repo hr).1)), ?_⟩
    rw [repo_setBlocks_self hr]
    rfl

theorem Effect.readSoFar (h : Effect lower id s t s' t') (ht : t.ReadSoFar id s) :
    t'.ReadSoFar id s' := by
  cases h with
  | began hpc hr =>
    rename_i r
    refine ⟨Nat.le_refl _, fun _ => ⟨s.world.reading r, ?_, rfl, rfl⟩⟩
    unfold readingOf
    rw [hr]
    rfl
  | read hpc hr =>
    rename_i stage rd since r
    unfold Task.ReadSoFar at ht
    rw [hpc] at ht
    obtain ⟨hle, hread⟩ := ht
    by_cases hexisting : stage = .existing
    · subst hexisting
      unfold readStep
      cases compute lower rd with
      | none | some c => trivial
    · obtain ⟨next, rd', hnext⟩ :=
        readStep_reading lower hexisting s r rd since
      simp only [hnext]
      refine ⟨hle, fun hsince => ?_⟩
      obtain ⟨full, hfull, hvisits, rfl⟩ := hread hsince
      have hreading : s.world.reading r = full := by
        unfold readingOf at hfull
        rw [hr] at hfull
        exact Option.some.inj hfull
      obtain ⟨next', hvisits', hnext'⟩ := readStep_upTo lower hreading hvisits hexisting since
      rw [hnext'] at hnext
      cases hnext
      exact ⟨full, hfull, hvisits', rfl⟩
  | changed hpc hfits | wrote hpc hr | finished hpc => trivial
  | made hpc =>
    unfold Task.ReadSoFar
    by_cases htarget : t.target = .repository
    · simp only [htarget, if_true]
    · simp only [htarget, if_false]
  | listed hpc =>
    unfold Task.ReadSoFar
    cases hconcerns : t.target.concerns id s.world with
    | true => simp only [if_true]
    | false => simp only [Bool.false_eq_true, if_false]

end runs

theorem outline (lower : String → String) (id : Id)
    (C : Pool Shared Task → Move Task Unit Empty → Prop) :
    (refreshProgram lower id).Outline C (Shared.Good id) fun s _ t => t.ReadSoFar id s where
  init := by
    rintro s ⟨hkeyed, hrepo, -⟩
    exact ⟨hkeyed, hrepo⟩
  spawn := by
    intro p t _ _ hfresh
    have hfresh : Task.fresh t = true := hfresh
    unfold Task.fresh at hfresh
    unfold Task.ReadSoFar
    cases hpc : t.pc with
    | changing todo | list | start | writing todo | done => trivial
    | reading stage rd since =>
      rw [hpc] at hfresh
      cases hfresh
  act := by
    intro p i a t s' t' h _ ht hact
    have heffect := runAct_effect i hact
    exact ⟨heffect.good h.shared, heffect.readSoFar (h.tasks i t ht)⟩
  interfere := by
    intro p i a t s' t' h _ _ hact j q _ hq
    exact readSoFar_of (runAct_effect i hact).version (h.tasks j q hq)
  env := by
    intro p e
    cases e

/-! ## Who repairs the rows -/

/-- After the first change some run will see the existing rows, or repairs them, or they are
right. -/
inductive Repaired (lower : String → String) (id : Id) (s : Shared) (ts : List Task) : Prop where
  | unchanged : s.version = 0 → Repaired lower id s ts
  | looks {t : Task} : t ∈ ts → t.looksAgain id s = true → Repaired lower id s ts
  | repairs {t : Task} {todo : List BlockWrite} : t ∈ ts → t.pc = .writing todo →
      Repairing lower id s.world todo → Repaired lower id s ts
  | right : Repairing lower id s.world [] → Repaired lower id s ts

section who

variable {s s' : Shared} {ts : List Task} {i : Nat} {t t' q : Task}

theorem mem_acted (ht : ts[i]? = some t) (hq : q ∈ ts) : q = t ∨ q ∈ ts.set i t' := by
  obtain ⟨j, hj⟩ := mem_iff_getElem?.mp hq
  by_cases hji : j = i
  · subst hji
    rw [ht] at hj
    exact .inl (Option.some.inj hj).symm
  · refine .inr (mem_iff_getElem?.mpr ⟨j, ?_⟩)
    rw [getElem?_set_ne (Ne.symm hji)]
    exact hj

theorem acted_mem (ht : ts[i]? = some t) (t' : Task) : t' ∈ ts.set i t' :=
  mem_set (List.getElem?_eq_some_iff.mp ht).1 t'

variable {w : World}

theorem concerns_congr (hrepo : w'.repo id = w.repo id) (target : Target) :
    target.concerns id w' = target.concerns id w := by
  cases target with
  | repository | elsewhere q => rfl
  | organization o =>
    unfold Target.concerns
    rw [hrepo]

theorem concerns_setBlocks {r : Repo} (hr : w.repo id = some r)
    (blocks : List Block) (target : Target) :
    target.concerns id (w.setBlocks id blocks) = target.concerns id w := by
  cases target with
  | repository | elsewhere q => rfl
  | organization o =>
    unfold Target.concerns
    rw [repo_setBlocks_self hr, hr]
    rfl

theorem awaits_congr (h : ∀ target, Target.concerns id s'.world target =
    Target.concerns id s.world target) : q.awaits id s' = q.awaits id s := by
  unfold Task.awaits
  rw [h]

theorem looksAgain_congr (hversion : s'.version = s.version)
    (h : ∀ target, Target.concerns id s'.world target = Target.concerns id s.world target) :
    q.looksAgain id s' = q.looksAgain id s := by
  unfold Task.looksAgain
  rw [hversion, awaits_congr h]

variable {target : Target} {statement : Statement}

theorem concerns_of_touches
    (h : statement.touches id w target = false) : target.concerns id w = false := by
  cases target with
  | repository => cases statement <;> cases h
  | organization o => cases statement <;> exact h
  | elsewhere q => rfl

theorem touches_of_concerns
    (hfits : statement.fits id w target = true) (hnot : target.concerns id w = false)
    (h : statement.touches id w target = true) :
    (statement.apply id w target).repo id = w.repo id := by
  cases target with
  | repository => cases hnot
  | organization o =>
    have hconcerns : (Target.organization o).concerns id w = true := by
      cases statement <;> exact h
    rw [hconcerns] at hnot
    cases hnot
  | elsewhere q =>
    cases statement with
    | storeScan d findings report | scanStatus d status => rfl
    | upsertSignature row | deleteSignature m s | insertException rule | deleteException e
    | orgPolicy settings | repoPolicy level unrated signature | transfer o => cases hfits

variable {a : Unit} {todo : List BlockWrite}

theorem WritesInTime.write (h : WritesInTime lower id ⟨s, ts⟩ (.act i a))
    (ht : ts[i]? = some t) {write : BlockWrite}
    (hpc : t.pc = .writing (write :: todo)) :
    fitsNow lower id s.world write = true ∨ ∃ q ∈ ts, q.looksAgain id s = true := by
  unfold WritesInTime writesInTime at h
  simp only [ht, all_some, hpc, Bool.or_eq_true, any_eq_true] at h
  exact h

theorem WritesInTime.change (h : WritesInTime lower id ⟨s, ts⟩ (.act i a))
    (ht : ts[i]? = some t) {todo : List Statement}
    (hpc : t.pc = .changing (statement :: todo)) :
    t.target.concerns id s.world = true ∨ statement.touches id s.world t.target = false ∨
      ∃ q ∈ ts, q.awaits id s = true := by
  unfold WritesInTime writesInTime at h
  simp only [ht, all_some, hpc, Bool.or_eq_true, any_eq_true, Bool.not_eq_true', or_assoc] at h
  exact h

theorem looksAgain_of_awaits (h : q.awaits id s = true) : q.looksAgain id s = true := by
  unfold Task.looksAgain
  split
  · rename_i hpc
    unfold Task.awaits at h
    rw [hpc] at h
    cases h
  · exact h

theorem looksAgain_changing {statements : List Statement} (hpc : t.pc = .changing statements) :
    t.looksAgain id s = t.target.concerns id s.world := by
  unfold Task.looksAgain Task.awaits
  rw [hpc]

theorem looksAgain_writing (hpc : t.pc = .writing todo) : t.looksAgain id s = false := by
  unfold Task.looksAgain Task.awaits
  rw [hpc]

theorem Repaired.others (h : Repaired lower id s ts) (ht : ts[i]? = some t)
    (hversion : s'.version = s.version)
    (hconcerns : ∀ target, Target.concerns id s'.world target = Target.concerns id s.world target)
    (hrepairing : ∀ todo, Repairing lower id s.world todo → Repairing lower id s'.world todo)
    (hlooks : t.looksAgain id s = true → Repaired lower id s' (ts.set i t'))
    (hwrites : ∀ todo, t.pc = .writing todo → Repairing lower id s.world todo →
      Repaired lower id s' (ts.set i t')) :
    Repaired lower id s' (ts.set i t') := by
  cases h with
  | unchanged hzero => exact .unchanged (hversion.trans hzero)
  | looks hq hlook =>
    rcases mem_acted ht hq with rfl | hq
    · exact hlooks hlook
    · exact .looks hq ((looksAgain_congr hversion hconcerns).trans hlook)
  | repairs hq hpc hrepair =>
    rcases mem_acted ht hq with rfl | hq
    · exact hwrites _ hpc hrepair
    · exact .repairs hq hpc (hrepairing _ hrepair)
  | right hright => exact .right (hrepairing _ hright)

theorem Effect.repaired (h : Effect lower id s t s' t') (ht : ts[i]? = some t)
    (hgood : s.Good id) (hread : t.ReadSoFar id s)
    (hC : WritesInTime lower id ⟨s, ts⟩ (.act i a)) (hI : Repaired lower id s ts) :
    Repaired lower id s' (ts.set i t') := by
  have hmem : t' ∈ ts.set i t' := acted_mem ht t'
  cases h with
  | changed hpc hfits =>
    rename_i statement todo
    cases htouches : statement.touches id s.world t.target with
    | true =>
      simp only [if_true] at hmem ⊢
      by_cases hconcerns : t.target.concerns id s.world = true
      · -- the change that touches the repository is followed by its refresh
        refine .looks hmem (Eq.trans (looksAgain_changing rfl) ?_)
        cases htarget : t.target with
        | repository => rfl
        | organization o =>
          rw [htarget] at hfits hconcerns
          have hkeeps := (apply_keeps hgood.1 hgood.2 hfits).2.2 o rfl
          exact hkeeps.trans hconcerns
        | elsewhere q =>
          rw [htarget] at hconcerns
          cases hconcerns
      · have hnot : t.target.concerns id s.world = false := Bool.eq_false_iff.mpr hconcerns
        have hrepo := touches_of_concerns hfits hnot htouches
        rcases hC.change ht hpc with hyes | hno | ⟨q, hq, hawaits⟩
        · exact absurd hyes hconcerns
        · rw [htouches] at hno
          cases hno
        · rcases mem_acted ht hq with rfl | hq
          · unfold Task.awaits at hawaits
            rw [hpc] at hawaits
            exact absurd hawaits hconcerns
          · refine .looks hq (looksAgain_of_awaits ?_)
            rw [awaits_congr (s := s) (concerns_congr hrepo)]
            exact hawaits
    | false =>
      simp only [Bool.false_eq_true, if_false]
      obtain ⟨hreading, hrepo⟩ := readingOf_apply hfits htouches
      refine hI.others ht rfl (concerns_congr hrepo)
        (fun todo hrepair => hrepair.congr hreading hrepo) (fun hlook => ?_) fun todo hw => ?_
      · rw [looksAgain_changing hpc, concerns_of_touches htouches] at hlook
        cases hlook
      · rw [hpc] at hw
        cases hw
  | made hpc =>
    refine hI.others ht rfl (fun _ => rfl) (fun _ hrepair => hrepair) (fun hlook => ?_)
      fun todo hw => ?_
    · refine .looks hmem ?_
      rw [looksAgain_changing hpc] at hlook
      unfold Task.looksAgain Task.awaits
      by_cases htarget : t.target = .repository
      · simp only [htarget, if_true]
      · simp only [htarget, if_false]
        exact hlook
    · rw [hpc] at hw
      cases hw
  | listed hpc =>
    refine hI.others ht rfl (fun _ => rfl) (fun _ hrepair => hrepair) (fun hlook => ?_)
      fun todo hw => ?_
    · refine .looks hmem ?_
      unfold Task.looksAgain Task.awaits at hlook ⊢
      rw [hpc] at hlook
      simp only [hlook, if_true]
    · rw [hpc] at hw
      cases hw
  | began hpc hr =>
    refine .looks hmem ?_
    exact decide_eq_true rfl
  | read hpc hr =>
    rename_i stage rd since r
    unfold Task.ReadSoFar at hread
    rw [hpc] at hread
    obtain ⟨-, hread⟩ := hread
    refine hI.others ht rfl (fun _ => rfl) (fun _ hrepair => hrepair) (fun hlook => ?_)
      fun todo hw => ?_
    · unfold Task.looksAgain at hlook
      rw [hpc] at hlook
      have hsince : since = s.version := of_decide_eq_true hlook
      obtain ⟨full, hfull, hvisits, rfl⟩ := hread hsince
      by_cases hexisting : stage = .existing
      · -- the run that is up to date has seen every row that is not right
        subst hexisting
        have hcurrent : s.world.current lower id = compute lower (full.upTo .existing) := by
          unfold current
          rw [hfull, compute_upTo]
          rfl
        cases hc : compute lower (full.upTo .existing) with
        | none =>
          rw [hc] at hcurrent
          refine .right fun c hsome => ?_
          rw [hcurrent] at hsome
          cases hsome
        | some c =>
          rw [hc] at hcurrent
          refine .repairs hmem ?_ (repairing_writes hgood.1 hr hcurrent)
          unfold readStep
          rw [hc]
      · obtain ⟨next, rd', hnext⟩ :=
          readStep_reading lower hexisting s r (full.upTo stage) since
        refine .looks hmem ?_
        unfold Task.looksAgain
        simp only [hnext]
        exact decide_eq_true hsince
    · rw [hpc] at hw
      cases hw
  | wrote hpc hr =>
    rename_i write todo r
    have hkeeps := concerns_setBlocks hr (write.apply r.blocks)
    rcases hC.write ht hpc with hfits | ⟨q, hq, hlook⟩
    · refine hI.others ht rfl hkeeps (fun _ hrepair => hrepair.other hr hfits) (fun hlook => ?_)
        fun own hw hrepair => ?_
      · rw [looksAgain_writing hpc] at hlook
        cases hlook
      · rw [hpc] at hw
        cases hw
        exact .repairs hmem rfl (hrepair.own hr)
    · rcases mem_acted ht hq with rfl | hq
      · rw [looksAgain_writing hpc] at hlook
        cases hlook
      · refine .looks hq (Eq.trans ?_ hlook)
        exact looksAgain_congr rfl hkeeps
  | finished hpc =>
    refine hI.others ht rfl (fun _ => rfl) (fun _ hrepair => hrepair) (fun hlook => ?_)
      fun own hw hrepair => ?_
    · rw [looksAgain_writing hpc] at hlook
      cases hlook
    · rw [hpc] at hw
      cases hw
      exact .right hrepair

theorem run_repaired {p : Pool Shared Task}
    (h : (refreshMachine lower id).Run (WritesInTime lower id) p) :
    Repaired lower id p.shared p.tasks := by
  refine h.invariant (I := fun p => Repaired lower id p.shared p.tasks) ?_ ?_
  · rintro ⟨s, ts⟩ ⟨⟨-, -, hzero⟩, -⟩
    exact .unchanged hzero
  · intro p m p' hrun hI hC hs
    have hstep : (refreshProgram lower id).step p m = some p' := hs
    have hholds := (outline lower id _).run hrun
    rcases Program.step_cases hstep with ⟨t, rfl, -, rfl⟩ |
        ⟨i, a, t, s', t', rfl, ht, hact, rfl⟩ | ⟨e, s', rfl, -, rfl⟩
    · cases hI with
      | unchanged hzero => exact .unchanged hzero
      | looks hq hlook => exact .looks (mem_append_left _ hq) hlook
      | repairs hq hpc hrepair => exact .repairs (mem_append_left _ hq) hpc hrepair
      | right hright => exact .right hright
    · exact (runAct_effect i hact).repaired ht hholds.shared (hholds.tasks i t ht) hC hI
    · cases e

end who

/-- **Pull blocks converge** in every run that meets the condition: once every change that was
made has been refreshed, the rows are those one more refresh leaves. -/
theorem blocks_converge (lower : String → String) (id : Id) (p : Pool Shared Task)
    (h : (refreshMachine lower id).Run (WritesInTime lower id) p)
    (hdone : ∀ t ∈ p.tasks, t.isDone = true) (hchanged : 0 < p.shared.version) :
    Converged lower id p.shared.world := by
  have hpc (t : Task) (ht : t ∈ p.tasks) : t.pc = .done := by
    have hd := hdone t ht
    unfold Task.isDone at hd
    split at hd
    · assumption
    · cases hd
  have hgood := ((outline lower id _).run h).shared
  cases run_repaired h with
  | unchanged hzero => omega
  | looks ht hlook =>
    unfold Task.looksAgain Task.awaits at hlook
    rw [hpc _ ht] at hlook
    cases hlook
  | repairs ht hw hrepair =>
    rw [hpc _ ht] at hw
    cases hw
  | right hright => exact converged_of_repairing hgood.1 hright

end convergence

/-- A scan of the image is stored, and the run acts `n` times. -/
def scanRun (n : Nat) : List (Move Task Unit Empty) :=
  .spawn ⟨.repository, .changing [.storeScan (sampleDigest 'c') [openssl] none]⟩ ::
    List.replicate n (.act 0 ())

/-- After `n` acts of that run the policy is switched off, and refreshed in `k` acts. -/
def policyInside (n k : Nat) : List (Move Task Unit Empty) :=
  scanRun n ++ .spawn ⟨.repository, .changing [.repoPolicy (some .off) none none]⟩ ::
    List.replicate k (.act 1 ()) ++ List.replicate (10 - n) (.act 0 ())

/-- The block is written before the policy is switched off. -/
theorem blocks_converge_inside : ∃ p, (refreshMachine id "app").Run (WritesInTime id "app") p ∧
    (∀ t ∈ p.tasks, t.isDone = true) ∧ 0 < p.shared.version ∧
      Converged id "app" p.shared.world := by
  have hfacts : (((refreshMachine id "app").replay (WritesInTime id "app") ⟨⟨oneImage, 0⟩, []⟩
      (policyInside 9 8)).map fun p => p.tasks.all Task.isDone && decide (0 < p.shared.version)) =
        some true := by
    decide +kernel
  obtain ⟨p, hp, hboth⟩ := map_eq_some_iff.mp hfacts
  obtain ⟨hdone, hversion⟩ := Bool.and_eq_true_iff.mp hboth
  have hrun := Machine.run_of_replay (M := refreshMachine id "app")
    ⟨⟨oneImage_keyed, rfl, rfl⟩, rfl⟩ hp
  have hdone := all_eq_true.mp hdone
  have hversion := of_decide_eq_true hversion
  exact ⟨p, hrun, hdone, hversion, blocks_converge id "app" p hrun hdone hversion⟩

/-- Before the run of the scan writes the block it has computed, the policy is switched off. -/
theorem lateBlock_not_converged : ¬ ∀ p, (refreshMachine id "app").Reachable p →
    (∀ t ∈ p.tasks, t.isDone = true) → 0 < p.shared.version →
      Converged id "app" p.shared.world := by
  intro hall
  have hfacts : (((refreshMachine id "app").replay (fun _ _ => True) ⟨⟨oneImage, 0⟩, []⟩
      (policyInside 8 7)).map fun p => (p.tasks.all Task.isDone && decide (0 < p.shared.version),
        (p.shared.world.repo "app").map fun r => r.blocks.map (·.digest),
        ((p.shared.world.refresh id "app").repo "app").map fun r => r.blocks.map (·.digest))) =
      some (true, some [sampleDigest 'c'], some []) := by
    decide +kernel
  obtain ⟨p, hp, htriple⟩ := map_eq_some_iff.mp hfacts
  obtain ⟨hboth, hrows⟩ := Prod.mk.inj htriple
  obtain ⟨hbefore, hafter⟩ := Prod.mk.inj hrows
  obtain ⟨hdone, hversion⟩ := Bool.and_eq_true_iff.mp hboth
  obtain ⟨r, hr, hdigests⟩ := map_eq_some_iff.mp hbefore
  obtain ⟨r', hr', hnone⟩ := map_eq_some_iff.mp hafter
  have hrun := Machine.run_of_replay (M := refreshMachine id "app")
    ⟨⟨oneImage_keyed, rfl, rfl⟩, rfl⟩ hp
  have hconverged := hall p hrun (all_eq_true.mp hdone) (of_decide_eq_true hversion)
  have hmem : sampleDigest 'c' ∈ r.blocks.map (·.digest) := hdigests ▸ mem_singleton_self _
  obtain ⟨b, hb, -⟩ := mem_map.mp hmem
  have hb' := mem_map_of_mem (f := (·.digest)) ((hconverged r r' hr hr' b).mpr hb)
  rw [hnone] at hb'
  cases hb'

end Chicoree.PullBlocks
