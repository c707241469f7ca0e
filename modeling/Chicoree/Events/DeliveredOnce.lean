import Chicoree.Events.Outbox

/-! # Each event is processed once

A claim is the right to act on an event. While no claim is taken over from a claimant that is
still at work, and every success is marked, the body of `processRegistryEvent` runs for one
task at a time and succeeds once. -/

namespace Chicoree.Events

open Transition Bool List Option Table

variable {s s' : Outbox} {t t' : Task} {a : Reply} {i j id : Nat} {p : Pool Outbox Task}

/-! ## The promise and the condition -/

/-- The body of `processRegistryEvent` never runs twice at the same time for the event and
succeeds at most once, and a delivered event has been processed. -/
structure EventOnce (id : Nat) (p : Pool Outbox Task) : Prop where
  alone : ∀ (i j : Nat) (t u : Task), p.tasks[i]? = some t → p.tasks[j]? = some u →
    t.processes id = true → u.processes id = true → i = j
  once : p.shared.processed.count id ≤ 1
  delivered : ∀ r ∈ p.shared.rows, r.id = id → r.deliveredAt.isSome = true → id ∈ p.shared.processed

def atRest (id : Nat) (ts : List Task) : Bool := ts.all fun t => t.work.all fun w => w.1 != id

/-- The claim of the event would not go through as a takeover. -/
def notStale (s : Outbox) (id : Nat) : Bool :=
  (s.row id).all fun r => r.claimedAt.isNone || !r.claimable s.now

def timely (id : Nat) (p : Pool Outbox Task) : Move Task Reply Int → Bool
  | .act i a =>
    match p.tasks[i]? with
    | none => true
    | some t =>
      (decide (t.claims ≠ some id) || decide (a ≠ .ok) || notStale p.shared id ||
          atRest id p.tasks) &&
        (decide (t.work ≠ some (id, .completing)) || decide (a = .ok))
  | _ => true

/-- **The condition on a step**: a claim that is taken over as stale finds nobody at work on
the event, and the statement that marks a success goes through. -/
abbrev Timely (id : Nat) (p : Pool Outbox Task) (m : Move Task Reply Int) : Prop :=
  timely id p m = true

theorem Timely.claim (hc : Timely id p (.act i .ok)) (ht : p.tasks[i]? = some t)
    (hclaim : t.claims = some id) :
    notStale p.shared id = true ∨ atRest id p.tasks = true := by
  unfold Timely timely at hc
  simp only [ht, hclaim, ne_eq, not_true_eq_false, decide_false, Bool.false_or,
    and_eq_true, or_eq_true] at hc
  exact hc.1

theorem Timely.complete (hc : Timely id p (.act i a)) (ht : p.tasks[i]? = some t)
    (hwork : t.work = some (id, .completing)) : a = .ok := by
  unfold Timely timely at hc
  simp only [ht, hwork, ne_eq, not_true_eq_false, decide_false, Bool.false_or, and_eq_true] at hc
  exact of_decide_eq_true hc.2

/-! ## In every run -/

/-- Ids come from the sequence, and only processed events are delivered. -/
structure Sound (s : Outbox) : Prop where
  keyed : Table.Keyed (·.id) s.rows
  rows : ∀ r ∈ s.rows, r.id < s.nextId
  processed : ∀ k ∈ s.processed, k < s.nextId
  delivered : ∀ r ∈ s.rows, r.deliveredAt.isSome = true → r.id ∈ s.processed

structure Known (s : Outbox) (_ : Nat) (t : Task) : Prop where
  old : ∀ k pc, t.work = some (k, pc) → k < s.nextId
  succeeded : ∀ k, t.work = some (k, .completing) → k ∈ s.processed

theorem Known.idle (h : t.work = none) : Known s i t where
  old := by simp [h]
  succeeded := by simp [h]

theorem Known.mono (h : Known s i t) (hid : s.nextId ≤ s'.nextId)
    (hprocessed : ∀ k ∈ s.processed, k ∈ s'.processed) : Known s' i t where
  old k pc hk := Nat.lt_of_lt_of_le (h.old k pc hk) hid
  succeeded k hk := hprocessed k (h.succeeded k hk)

theorem Sound.same (h : Sound s) (hsame : SameRows s s') : Sound s' where
  keyed := hsame.rows ▸ h.keyed
  rows := by rw [hsame.rows, hsame.nextId]; exact h.rows
  processed := by rw [hsame.processed, hsame.nextId]; exact h.processed
  delivered := by rw [hsame.rows, hsame.processed]; exact h.delivered

variable {k : Nat} {f : OutboxRow → OutboxRow}

theorem Sound.update (h : Sound s) (hf : ∀ r, (f r).id = r.id)
    (hdelivered : ∀ r, (f r).deliveredAt = r.deliveredAt ∨ k ∈ s.processed) :
    Sound (s.update k f) where
  keyed := by
    show ((Table.update (·.id) k f s.rows).map (·.id)).Nodup
    rw [keys_update hf]
    exact h.keyed
  rows r hr := by
    rcases mem_update hr with ⟨hr, -⟩ | ⟨r₀, hr₀, -, rfl⟩
    · exact h.rows r hr
    · rw [hf]
      exact h.rows r₀ hr₀
  processed := h.processed
  delivered r hr hd := by
    rcases mem_update hr with ⟨hr, -⟩ | ⟨r₀, hr₀, hk, rfl⟩
    · exact h.delivered r hr hd
    · rw [hf]
      rcases hdelivered r₀ with hsame | hmem
      · exact h.delivered r₀ hr₀ (hsame ▸ hd)
      · exact hk ▸ hmem

theorem Sound.enqueue {content : EventContent} (h : Sound s) : Sound (enqueueEvent s content) where
  keyed := by
    refine h.keyed.append fun x hx => ?_
    have hlt := h.rows x hx
    exact fun hthis : x.id = s.nextId => by omega
  rows r hr := by
    show r.id < s.nextId + 1
    rcases mem_append.mp hr with hr | hr
    · have hlt := h.rows r hr
      omega
    · rw [mem_singleton.mp hr]
      exact Nat.lt_succ_self _
  processed k hk := by
    have hlt := h.processed k hk
    show k < s.nextId + 1
    omega
  delivered r hr hd := by
    rcases mem_append.mp hr with hr | hr
    · exact h.delivered r hr hd
    · rw [mem_singleton.mp hr] at hd
      cases hd

theorem Sound.sweep (h : Sound s) : Sound (sweepDelivered s) where
  keyed := h.keyed.filter _
  rows r hr := h.rows r (mem_filter.mp hr).1
  processed := h.processed
  delivered r hr := h.delivered r (mem_filter.mp hr).1

theorem Sound.succeed (h : Sound s) (hk : k < s.nextId) :
    Sound { s with processed := s.processed ++ [k] } where
  keyed := h.keyed
  rows := h.rows
  processed q hq := by
    rcases mem_append.mp hq with hq | hq
    · exact h.processed q hq
    · rw [mem_singleton.mp hq]
      exact hk
  delivered r hr hd := mem_append_left _ (h.delivered r hr hd)

theorem taskAct_mono (h : taskAct s i t a = some (s', t')) :
    s.nextId ≤ s'.nextId ∧ ∀ k ∈ s.processed, k ∈ s'.processed := by
  cases taskAct_step h with
  | idle before after same =>
    rw [same.nextId, same.processed]
    exact ⟨Nat.le_refl _, fun k hk => hk⟩
  | enqueued content before after state =>
    subst state
    exact ⟨Nat.le_succ _, fun k hk => hk⟩
  | succeeded k before after state =>
    subst state
    exact ⟨Nat.le_refl _, fun q hq => mem_append_left _ hq⟩
  | swept before after state | claims k r claim ok before row free after state
  | broken k message before after state | completed k before after state
  | unmarked k message before error after state | failed k message before after state
  | given k message before after state =>
    subst state
    exact ⟨Nat.le_refl _, fun k hk => hk⟩

theorem taskAct_sound (hs : Sound s) (hk : Known s i t)
    (h : taskAct s i t a = some (s', t')) : Sound s' ∧ Known s' i t' := by
  cases taskAct_step h with
  | idle before after same => exact ⟨hs.same same, .idle after⟩
  | enqueued content before after state => exact ⟨state ▸ hs.enqueue, .idle after⟩
  | swept before after state => exact ⟨state ▸ hs.sweep, .idle after⟩
  | claims k r claim ok before row free after state =>
    subst state
    have hmem := (find_some row).1
    have hid := row_id row
    refine ⟨hs.update (fun _ => rfl) fun _ => .inl rfl, ⟨fun q pc hq => ?_, fun q hq => ?_⟩⟩
    · rw [after] at hq
      cases hq
      exact hid ▸ hs.rows r hmem
    · rw [after] at hq
      cases hq
  | succeeded k before after state =>
    subst state
    have hlt := hk.old k _ before
    refine ⟨hs.succeed hlt, ⟨fun q pc hq => ?_, fun q hq => ?_⟩⟩
    · rw [after] at hq
      cases hq
      exact hlt
    · rw [after] at hq
      cases hq
      exact mem_append_right _ (mem_singleton_self k)
  | broken k message before after state | unmarked k message before error after state =>
    subst state
    refine ⟨hs, ⟨fun q pc hq => ?_, fun q hq => ?_⟩⟩
    · rw [after] at hq
      cases hq
      exact hk.old k _ before
    · rw [after] at hq
      cases hq
  | completed k before after state =>
    subst state
    exact ⟨hs.update (fun _ => rfl) fun _ => .inr (hk.succeeded k before), .idle after⟩
  | failed k message before after state =>
    subst state
    exact ⟨hs.update (fun _ => rfl) fun _ => .inl rfl, .idle after⟩
  | given k message before after state =>
    subst state
    exact ⟨hs, .idle after⟩

theorem fresh_work (h : t.fresh = true) : t.work = none := by
  cases t with
  | emit content pc => rfl
  | route pc =>
    cases of_decide_eq_true h
    rfl
  | drain pc => cases pc <;> first | rfl | cases h

theorem sound_outline {C : Pool Outbox Task → Move Task Reply Int → Prop} :
    outboxProgram.Outline C Sound Known where
  init s hs := by
    obtain ⟨hrows, -, -, hprocessed⟩ := hs
    refine ⟨?_, ?_, ?_, ?_⟩
    · rw [hrows]; exact nodup_nil
    · rw [hrows]; simp
    · rw [hprocessed]; simp
    · rw [hrows]; simp
  spawn p t _ _ hfresh := .idle (fresh_work hfresh)
  act p i a t s' t' hp _ ht hact := taskAct_sound hp.shared (hp.tasks i t ht) hact
  interfere p i a t s' t' hp _ _ hact j q _ hq :=
    (hp.tasks j q hq).mono (taskAct_mono hact).1 (taskAct_mono hact).2
  env p e s' hp _ he := by
    cases he
    exact ⟨hp.shared.same ⟨rfl, rfl, rfl⟩, fun j q hq =>
      (hp.tasks j q hq).mono (Nat.le_refl _) fun k hk => hk⟩

/-! ## While claims are timely -/

/-- An event that is processed and not marked yet. -/
def Unmarked (id : Nat) (s : Outbox) (_ : Unit) : Prop :=
  id ∈ s.processed ∧ ∃ r, s.row id = some r ∧ r.deliveredAt = none

def Marks (id : Nat) (_ : Outbox) (t : Task) (_ : Unit) : Prop := t.work = some (id, .completing)

theorem Unmarked.of_update (hf : ∀ r, (f r).id = r.id)
    (hsame : ∀ r, (f r).deliveredAt = r.deliveredAt) (h : Unmarked id (s.update k f) ()) :
    Unmarked id s () := by
  obtain ⟨hmem, r, hr, hnone⟩ := h
  by_cases hk : id = k
  · subst hk
    have hself : (s.update id f).row id = (s.row id).map f := find_update_self hf
    rw [hself, map_eq_some_iff] at hr
    obtain ⟨r₀, hr₀, rfl⟩ := hr
    exact ⟨hmem, r₀, hr₀, hsame r₀ ▸ hnone⟩
  · have hother : (s.update k f).row id = s.row id := find_update_ne hf hk
    exact ⟨hmem, r, hother ▸ hr, hnone⟩

/-- Where the steps come from: the first new step with an unmarked event is its success. -/
theorem Unmarked.of_step (hs : Sound s) (h : taskAct s i t a = some (s', t'))
    (hd : Unmarked id s' ()) :
    t'.work = some (id, .completing) ∨
      (Unmarked id s () ∧ (t.work = some (id, .completing) → a = .fails)) := by
  have hnone : t.work = none → t.work = some (id, .completing) → a = .fails := by
    intro hidle hwork
    rw [hidle] at hwork
    cases hwork
  cases taskAct_step h with
  | idle before after same =>
    obtain ⟨hmem, r, hr, hundelivered⟩ := hd
    rw [same.processed] at hmem
    unfold Outbox.row at hr
    rw [same.rows] at hr
    exact .inr ⟨⟨hmem, r, hr, hundelivered⟩, hnone before⟩
  | enqueued content before after state =>
    subst state
    obtain ⟨hmem, r, hr, hundelivered⟩ := hd
    refine .inr ⟨⟨hmem, ?_⟩, hnone before⟩
    have hlt := hs.processed id hmem
    -- the new row is that of no processed event
    cases hold : s.row id with
    | some r₀ =>
      have hfind : (enqueueEvent s content).row id = some r₀ := find_append_of_some hold
      cases hr.symm.trans hfind
      exact ⟨_, rfl, hundelivered⟩
    | none =>
      obtain ⟨hin, hid⟩ := find_some hr
      rcases mem_append.mp hin with hin | hin
      · exact absurd hid (find_none hold hin)
      · rw [mem_singleton.mp hin] at hid
        exact absurd hlt (Nat.not_lt.mpr (Nat.le_of_eq hid))
  | swept before after state =>
    subst state
    obtain ⟨hmem, r, hr, hundelivered⟩ := hd
    refine .inr ⟨⟨hmem, r, ?_, hundelivered⟩, hnone before⟩
    have hfind := find_filter (k := id) hs.keyed fun r =>
      !r.deliveredAt.any fun t => decide (t < s.now - keepDelivered)
    have hr' := hfind.symm.trans hr
    rw [filter_eq_some_iff] at hr'
    exact hr'.1
  | claims k r claim ok before row free after state =>
    subst state
    refine .inr ⟨hd.of_update ?_ ?_, hnone before⟩ <;> exact fun _ => rfl
  | succeeded k before after state =>
    subst state
    by_cases hk : k = id
    · exact .inl (hk ▸ after)
    · obtain ⟨hmem, hrow⟩ := hd
      refine .inr ⟨⟨?_, hrow⟩, ?_⟩
      · rcases mem_append.mp hmem with hmem | hmem
        · exact hmem
        · exact absurd (mem_singleton.mp hmem).symm hk
      · intro hwork
        rw [before] at hwork
        cases hwork
  | broken k message before after state | given k message before after state =>
    subst state
    refine .inr ⟨hd, fun hwork => ?_⟩
    rw [before] at hwork
    cases hwork
  | completed k before after state =>
    subst state
    by_cases hk : k = id
    · subst hk
      obtain ⟨-, r, hr, hundelivered⟩ := hd
      rw [row_complete_self, map_eq_some_iff] at hr
      obtain ⟨r₀, -, rfl⟩ := hr
      cases hundelivered
    · obtain ⟨hmem, r, hr, hundelivered⟩ := hd
      rw [row_complete_ne (Ne.symm hk)] at hr
      refine .inr ⟨⟨hmem, r, hr, hundelivered⟩, fun hwork => ?_⟩
      rw [before] at hwork
      cases hwork
      exact absurd rfl hk
  | unmarked k message before error after state =>
    subst state
    exact .inr ⟨hd, fun _ => error⟩
  | failed k message before after state =>
    subst state
    have hold : Unmarked id s () := by
      refine hd.of_update ?_ ?_ <;> exact fun _ => rfl
    refine .inr ⟨hold, fun hwork => ?_⟩
    rw [before] at hwork
    cases hwork

theorem settles_marks : outboxProgram.Settles (Timely id) (Unmarked id) (Marks id) where
  init s hs d hd := by
    obtain ⟨-, -, -, hprocessed⟩ := hs
    have hmem := hd.1
    rw [hprocessed] at hmem
    cases hmem
  act p i a t s' t' hrun hcarried hc ht hact d hd := by
    have hsound := (sound_outline.run hrun).shared
    rcases Unmarked.of_step hsound hact hd with hmarks | ⟨hold, herror⟩
    · exact .inl hmarks
    · rcases hcarried.cases ht (d := ()) hold with hself | hother
      · cases hc.complete ht hself
        cases herror hself
      · exact .inr hother
  env p e s' _ hcarried _ he d hd := by
    cases he
    exact hcarried () hd

/-- The claim of a task that is at work on the event is the one in the row; and nobody has
processed the event before it succeeds. -/
def Claimed (id : Nat) (s : Outbox) (i : Nat) (t : Task) : Prop :=
  ∀ pc, t.work = some (id, pc) →
    (∃ r, s.row id = some r ∧ r.claimedAt.isSome = true ∧ r.deliveredAt = none ∧
      r.holder = some i) ∧
    (pc ≠ .completing → id ∉ s.processed)

theorem Claimed.idle (h : t.work = none) : Claimed id s i t := by
  intro pc hpc
  rw [h] at hpc
  cases hpc

theorem Claimed.same {pc pc' : HandlePc} (h : Claimed id s i t) (h' : Claimed id s j t')
    (hw : t.work = some (id, pc)) (hw' : t'.work = some (id, pc')) : i = j := by
  obtain ⟨⟨r, hr, -, -, hi⟩, -⟩ := h pc hw
  obtain ⟨⟨r', hr', -, -, hj⟩, -⟩ := h' pc' hw'
  cases hr.symm.trans hr'
  exact Option.some.inj (hi.symm.trans hj)

theorem Claimed.mono (h : Claimed id s i t)
    (hrow : ∀ r, s.row id = some r → r.deliveredAt = none → s'.row id = some r)
    (hprocessed : id ∈ s'.processed → id ∈ s.processed) : Claimed id s' i t := by
  intro pc hpc
  obtain ⟨⟨r, hr, hclaimed, hundelivered, hholder⟩, hnew⟩ := h pc hpc
  exact ⟨⟨r, hrow r hr hundelivered, hclaimed, hundelivered, hholder⟩,
    fun hne hmem => hnew hne (hprocessed hmem)⟩

theorem atRest_of_claim (hc : Timely id p (.act i .ok)) (ht : p.tasks[i]? = some t)
    (hclaim : t.claims = some id) {r : OutboxRow} (hr : p.shared.row id = some r)
    (hfree : r.claimable p.shared.now = true)
    (hclaimed : ∀ j q, p.tasks[j]? = some q → Claimed id p.shared j q) :
    ∀ (j : Nat) (q : Task) (pc : HandlePc), p.tasks[j]? = some q → q.work ≠ some (id, pc) := by
  intro j q pc hq hwork
  rcases hc.claim ht hclaim with hstale | hrest
  · unfold notStale at hstale
    rw [hr] at hstale
    obtain ⟨⟨r', hr', hsome, -, -⟩, -⟩ := hclaimed j q hq pc hwork
    cases hr.symm.trans hr'
    simp [isNone_eq_false_iff.mpr hsome, hfree] at hstale
  · have hall := all_eq_true.mp hrest q (mem_of_getElem? hq)
    simp [hwork] at hall

theorem Claimed.step (hclaimed : Claimed id s j t) (hs : Sound s)
    (hother : ∀ pc pc', t.work = some (id, pc) → t'.work ≠ some (id, pc'))
    (hrest : ∀ pc r, t.work = some (id, pc) → t'.claims = some id → a = .ok →
      s.row id = some r → r.claimable s.now = true → False)
    {u : Task} (h : taskAct s i t' a = some (s', u)) : Claimed id s' j t := by
  -- a task at work on no other event has nothing to lose
  by_cases hwork : ∃ pc, t.work = some (id, pc)
  · obtain ⟨pc, hpc⟩ := hwork
    have hne : ∀ k pc', t'.work = some (k, pc') → k ≠ id := by
      intro k pc' hk hthis
      exact hother pc pc' hpc (hthis ▸ hk)
    cases taskAct_step h with
    | idle before after same =>
      refine hclaimed.mono (fun r hr _ => ?_) fun hmem => same.processed ▸ hmem
      unfold Outbox.row
      rw [same.rows]
      exact hr
    | enqueued content before after state =>
      subst state
      exact hclaimed.mono (fun r hr _ => find_append_of_some hr) fun hmem => hmem
    | swept before after state =>
      subst state
      refine hclaimed.mono (fun r hr hundelivered => ?_) fun hmem => hmem
      unfold sweepDelivered Outbox.row
      rw [find_filter hs.keyed]
      show ((s.row id).filter _) = some r
      rw [hr]
      simp [Option.filter, hundelivered]
    | claims k r claim ok before row free after state =>
      subst state
      have hk : id ≠ k := by
        rintro rfl
        exact hrest pc r hpc claim ok row free
      exact hclaimed.mono (fun r hr _ => (row_claimed_ne hk).trans hr) fun hmem => hmem
    | succeeded k before after state =>
      subst state
      refine hclaimed.mono (fun r hr _ => hr) fun hmem => ?_
      rcases mem_append.mp hmem with hmem | hmem
      · exact hmem
      · exact absurd (mem_singleton.mp hmem).symm (hne k _ before)
    | broken k message before after state | unmarked k message before error after state
    | given k message before after state =>
      subst state
      exact hclaimed
    | completed k before after state =>
      subst state
      have hk := (hne k _ before).symm
      exact hclaimed.mono (fun r hr _ => (row_complete_ne hk).trans hr) fun hmem => hmem
    | failed k message before after state =>
      subst state
      have hk := (hne k _ before).symm
      exact hclaimed.mono (fun r hr _ => (row_fail_ne hk).trans hr) fun hmem => hmem
  · exact fun pc hpc => absurd ⟨pc, hpc⟩ hwork

theorem Claimed.act (hclaimed : Claimed id s i t) (honce : s.processed.count id ≤ 1)
    (hnew : t.claims = some id → a = .ok → t.work = none → ∀ r, s.row id = some r →
      r.claimable s.now = true → id ∉ s.processed)
    (hmark : t.work = some (id, .completing) → a = .ok)
    (h : taskAct s i t a = some (s', t')) :
    s'.processed.count id ≤ 1 ∧ Claimed id s' i t' := by
  cases taskAct_step h with
  | idle before after same => exact ⟨same.processed ▸ honce, .idle after⟩
  | enqueued content before after state | swept before after state
  | completed k before after state | failed k message before after state
  | given k message before after state =>
    subst state
    exact ⟨honce, .idle after⟩
  | claims k r claim ok before row free after state =>
    subst state
    refine ⟨honce, fun pc hpc => ?_⟩
    rw [after] at hpc
    cases hpc
    have hundelivered : r.deliveredAt = none := by
      simp only [OutboxRow.claimable, and_eq_true, isNone_iff_eq_none] at free
      exact free.1
    have hrow : (claimed s i id).row id =
        some { r with claimedAt := some s.now, holder := some i } := by
      rw [row_claimed_self, row]
      rfl
    exact ⟨⟨_, hrow, rfl, hundelivered, rfl⟩, fun _ => hnew claim ok before r row free⟩
  | succeeded k before after state =>
    subst state
    by_cases hk : k = id
    · subst hk
      obtain ⟨hrow, hunprocessed⟩ := hclaimed _ before
      have hzero : s.processed.count k = 0 := count_eq_zero.mpr (hunprocessed nofun)
      refine ⟨?_, fun pc hpc => ?_⟩
      · rw [count_append, hzero, count_singleton_self]
      · rw [after] at hpc
        cases hpc
        exact ⟨hrow, fun hne => absurd rfl hne⟩
    · refine ⟨?_, fun pc hpc => ?_⟩
      · rw [count_append, count_singleton, if_neg (by simpa using hk)]
        exact honce
      · rw [after] at hpc
        cases hpc
        exact absurd rfl hk
  | broken k message before after state =>
    subst state
    refine ⟨honce, fun pc hpc => ?_⟩
    rw [after] at hpc
    cases hpc
    obtain ⟨hrow, hunprocessed⟩ := hclaimed _ before
    exact ⟨hrow, fun _ => hunprocessed nofun⟩
  | unmarked k message before error after state =>
    subst state
    refine ⟨honce, fun pc hpc => ?_⟩
    rw [after] at hpc
    cases hpc
    cases error.symm.trans (hmark before)

/-- The condition on a step, where every unmarked success is in hand and ids are sound. -/
def TimelyHere (id : Nat) (p : Pool Outbox Task) (m : Move Task Reply Int) : Prop :=
  Timely id p m ∧ Program.Carried (Unmarked id) (Marks id) p ∧ Sound p.shared

theorem claimed_outline : outboxProgram.Outline (TimelyHere id)
    (fun s => s.processed.count id ≤ 1) (Claimed id) where
  init s hs := by
    obtain ⟨-, -, -, hprocessed⟩ := hs
    rw [hprocessed]
    exact Nat.zero_le 1
  spawn p t _ _ hfresh := .idle (fresh_work hfresh)
  act p i a t s' t' hp hc ht hact := by
    obtain ⟨htimely, hcarried, -⟩ := hc
    refine (hp.tasks i t ht).act hp.shared ?_ (htimely.complete ht) hact
    intro hclaim hok _ r hr hfree hmem
    subst hok
    -- an earlier success would still be in hand
    have hundelivered : r.deliveredAt = none := by
      simp only [OutboxRow.claimable, and_eq_true, isNone_iff_eq_none] at hfree
      exact hfree.1
    obtain ⟨q, hq, hmarks⟩ := hcarried () ⟨hmem, r, hr, hundelivered⟩
    obtain ⟨j, hj⟩ := mem_iff_getElem?.mp hq
    exact atRest_of_claim htimely ht hclaim hr hfree hp.tasks j q _ hj hmarks
  interfere p i a t s' t' hp hc ht hact j q hj hq := by
    obtain ⟨htimely, -, hsound⟩ := hc
    refine (hp.tasks j q hq).step hsound (fun pc pc' hpc hpc' => ?_) ?_ hact
    · exact hj ((hp.tasks j q hq).same (hp.tasks i t ht) hpc hpc')
    · intro pc r hpc hclaim hok hr hfree
      subst hok
      exact atRest_of_claim htimely ht hclaim hr hfree hp.tasks j q pc hq hpc
  env p e s' hp _ he := by
    cases he
    exact ⟨hp.shared, fun j q hq => hp.tasks j q hq⟩

/-- **Every event is processed once** in a run whose claims are timely. -/
theorem processed_once (h : deliveries.Run (Timely id) p) : EventOnce id p := by
  have hstrong : deliveries.Run (TimelyHere id) p :=
    h.strengthen (Q := fun q => Program.Carried (Unmarked id) (Marks id) q ∧ Sound q.shared)
      fun q hq => ⟨settles_marks.run hq, (sound_outline.run hq).shared⟩
  have hclaimed := claimed_outline.run hstrong
  refine ⟨fun i j t u ht hu hwt hwu => ?_, hclaimed.shared, fun r hr hid hd => ?_⟩
  · exact (hclaimed.tasks i t ht).same (hclaimed.tasks j u hu) (of_decide_eq_true hwt)
      (of_decide_eq_true hwu)
  · exact hid ▸ (sound_outline.run h).shared.delivered r hr hd

/-! ## Two runs -/

def pushed : EventContent :=
  ⟨"push", "acme/app", some "sha256:ab", some "latest", [], none, some "ci"⟩

def emptyOutbox : Outbox := ⟨[], 1, 0, [], []⟩

theorem emptyOutbox_init : deliveries.init ⟨emptyOutbox, []⟩ := ⟨⟨rfl, rfl, rfl, rfl⟩, rfl⟩

/-- registryd records and posts the push; the answer of the first attempt is lost. -/
def postedTwice : List (Move Task Reply Int) :=
  [.spawn (.emit pushed .enqueue), .act 0 .ok, .act 0 .fails, .act 0 .ok]

/-- Both posts are received, one route claims the event and processes it while the other
finds it claimed; a drain later finds it delivered. -/
theorem processed_once_retried : ∃ p, EventOnce 1 p ∧ p.shared.processed = [1] := by
  obtain ⟨p, hp⟩ : ∃ p, deliveries.replay (Timely 1) ⟨emptyOutbox, []⟩
      (postedTwice ++ [.spawn (.route .listening), .act 1 (.receive 0), .act 1 .ok,
        .spawn (.route .listening), .act 2 (.receive 0), .act 2 .ok, .act 1 .ok, .act 1 .ok,
        .env (seconds 900), .spawn (.drain (.select 50)), .act 3 .ok, .act 3 .ok]) = some p :=
    ⟨_, rfl⟩
  refine ⟨p, processed_once (Machine.run_of_replay emptyOutbox_init hp), ?_⟩
  cases hp
  decide +kernel

/-- The body takes eleven minutes in the route; the drain takes the claim over, and the body
runs a second time beside the first. -/
theorem stale_claim_processed_twice : ¬ ∀ (id : Nat) (p : Pool Outbox Task),
    deliveries.Reachable p → EventOnce id p := by
  intro hclaim
  obtain ⟨p, hp⟩ : ∃ p, deliveries.replay (fun _ _ => True) ⟨emptyOutbox, []⟩
      (postedTwice ++ [.spawn (.route .listening), .act 1 (.receive 0), .act 1 .ok,
        .env (seconds 660), .spawn (.drain (.select 50)), .act 2 .ok, .act 2 .ok]) = some p :=
    ⟨_, rfl⟩
  have honce := hclaim 1 p (Machine.run_of_replay emptyOutbox_init hp)
  cases hp
  have hsame := honce.alone 1 2 _ _ rfl rfl (by decide +kernel) (by decide +kernel)
  cases hsame

end Chicoree.Events
