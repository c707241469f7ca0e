import Chicoree.Scans.ScanChanges

/-! # Leases are exclusive

A lease is the row of the task: who has it, and until when. While no lease is taken, released
or revoked under an executor that is about to write by the id, and no tick leases what a worker
has leased before it, every task has one holder, only the holder writes, and no re-queue is lost. -/

namespace Chicoree.Scans

open Transition Bool List Machine Table

variable {s s' : ScanQueue} {t t' : Party} {a : Reply} {i j id : Nat} {name : String}
  {r : ScanTask} {now : Int} {p p' : Pool ScanQueue Party}

/-! ## The promise and the condition -/

/-- Nobody but the holder has the task, an executor that changes tasks or scans has the lease
of its task, and a digest that was enqueued and not handed out since is queued. -/
structure LeasesExclusive (p : Pool ScanQueue Party) : Prop where
  alone : ∀ r ∈ p.shared.tasks, (r.holders p.shared.now).length ≤ 1
  reports : ∀ (i : Nat) (a : Reply) (t t' : Party) (s' : ScanQueue) (id : Nat) (name : String),
    p.tasks[i]? = some t → partyAct p.shared i t a = some (s', t') →
    t.executes = some (id, name) → ¬ SameScans p.shared s' →
    ∃ r, p.shared.task id = some r ∧ r.leasedTo name = true
  waiting : ∀ d ∈ p.shared.waiting, ∃ r ∈ p.shared.tasks, r.digest = d ∧ r.status = .queued

/-- The tasks whose lease a step takes, releases, revokes or begins to rely on. -/
def Party.disturbs (s : ScanQueue) : Party → Reply → List Nat
  | .enqueue _ digest _ .insert, .ok _ =>
    (s.tasks.filter fun r => decide (r.digest = digest)).map (·.id)
  | .claim _ .claiming, .next locked => (nextTask s locked).toList.map (·.id)
  | .report name id _ .check, .ok _ => (leasedTask s id name).toList.map fun _ => id
  | .dispatch .release, .ok _ =>
    (s.tasks.filter fun r => decide (r.status = .leased) && r.expired s.now).map (·.id)
  | .dispatch (.lease u _), .ok _ => [u.id]
  | _, _ => []

/-- A tick leases a task that has been leased since the tick selected it, or is gone. -/
def Party.steals (s : ScanQueue) : Party → Reply → Bool
  | .dispatch (.lease u _), .ok _ =>
    match s.task u.id with
    | none => true
    | some r => decide (r.status = .leased) && !r.expired s.now
  | _, _ => false

def unwritten (id : Nat) (ts : List Party) : Bool :=
  ts.all fun q => q.work.all fun w => decide (w.1 ≠ id)

def undisturbed (p : Pool ScanQueue Party) : Move Party Reply Int → Bool
  | .act i a =>
    match p.tasks[i]? with
    | none => true
    | some t => (t.disturbs p.shared a).all (unwritten · p.tasks) && !t.steals p.shared a
  | _ => true

/-- **The condition on a step**: a task is re-queued, leased, released or found leased to a
reporter only while nobody is between such a step of theirs and their last write; and a tick
leases no task that is leased to a worker already, and none that is gone. -/
abbrev Undisturbed (p : Pool ScanQueue Party) (m : Move Party Reply Int) : Prop :=
  undisturbed p m = true

theorem Undisturbed.unwritten (hc : Undisturbed p (.act i a)) (ht : p.tasks[i]? = some t)
    (hid : id ∈ t.disturbs p.shared a) : unwritten id p.tasks = true := by
  unfold Undisturbed undisturbed at hc
  simp only [ht, and_eq_true] at hc
  exact all_eq_true.mp hc.1 id hid

theorem Undisturbed.not_steals (hc : Undisturbed p (.act i a)) (ht : p.tasks[i]? = some t) :
    t.steals p.shared a = false := by
  unfold Undisturbed undisturbed at hc
  simp only [ht, and_eq_true] at hc
  simpa using hc.2

theorem work_of_unwritten (h : Scans.unwritten id p.tasks = true) (hq : p.tasks[j]? = some t) :
    ∀ n, t.work ≠ some (id, n) := by
  intro n hwork
  have hall := all_eq_true.mp h t (mem_of_getElem? hq)
  simp [hwork] at hall

/-! ## One executor writes at a time -/

/-- No two parties are about to write by one id. -/
def Solo (p : Pool ScanQueue Party) : Prop :=
  ∀ (i j : Nat) (t u : Party) (id : Nat) (n n' : String), p.tasks[i]? = some t →
    p.tasks[j]? = some u → t.work = some (id, n) → u.work = some (id, n') → i = j

theorem PartyStep.begins (h : PartyStep s t a s' t') (hafter : t'.work = some (id, name)) :
    t.work = some (id, name) ∨ id ∈ t.disturbs s a := by
  cases h with
  | aside before after same quiet | enqueued path digest repositoryId web party ok after state
  | released web party ok after state | swept party after state | leaves k n before after same
  | finished k n lastError web finishes ok before after state
  | failed k n message web before after state
  | retried k n message outcome u web party ok after state =>
    rw [after] at hafter
    cases hafter
  | claimed n locked r party reply row after state
  | checked n k outcome web r party reply row after state =>
    subst party reply
    rw [after] at hafter
    cases hafter
    refine .inr ?_
    unfold Party.disturbs
    simp [row]
  | taken u rest web party reply after state =>
    subst party reply
    rw [after] at hafter
    cases hafter
    exact .inr (mem_singleton_self _)
  | works k n before after same =>
    rw [after] at hafter
    exact .inl (hafter ▸ before)

theorem fresh_work (h : t.fresh = true) : t.work = none := by
  cases t with
  | enqueue path digest repositoryId pc => rfl
  | claim name pc => cases pc <;> first | rfl | cases h
  | report name id outcome pc =>
    simp only [Party.fresh, and_eq_true, decide_eq_true_eq] at h
    cases h.1
    rfl
  | dispatch pc =>
    cases of_decide_eq_true h
    rfl

theorem solo_run (h : scanRuns.Run Undisturbed p) : Solo p := by
  refine h.invariant ?_ fun p m p' _ hp hc hs => ?_
  · rintro ⟨s, ts⟩ ⟨-, hts⟩ i j t u id n n' ht
    subst hts
    cases ht
  · have hstep : scanProgram.step p m = some p' := hs
    rcases Program.step_cases hstep with ⟨t, rfl, hfresh, rfl⟩ |
        ⟨i, a, t, s', t', rfl, ht, hact, rfl⟩ | ⟨e, s', rfl, -, rfl⟩
    · intro j k q q' id n n' hq hq' hw hw'
      rcases getElem?_started hq with hq | ⟨rfl, rfl⟩
      · rcases getElem?_started hq' with hq' | ⟨rfl, rfl⟩
        · exact hp j k q q' id n n' hq hq' hw hw'
        · rw [fresh_work hfresh] at hw'
          cases hw'
      · rw [fresh_work hfresh] at hw
        cases hw
    · have hstep := partyAct_step (i := i) hact
      -- another party at work on the task of the one that acts
      have hother : ∀ (j : Nat) (q : Party) (id : Nat) (n n' : String), j ≠ i →
          p.tasks[j]? = some q → q.work = some (id, n) → t'.work = some (id, n') → False := by
        intro j q id n n' hj hq hw hw'
        rcases hstep.begins hw' with hbefore | hdisturbs
        · exact hj (hp j i q t id n n' hq ht hw hbefore)
        · exact work_of_unwritten (hc.unwritten ht hdisturbs) hq n hw
      intro j k q q' id n n' hq hq' hw hw'
      rcases getElem?_acted hq with ⟨rfl, rfl⟩ | ⟨hj, hqj⟩
      · rcases getElem?_acted hq' with ⟨rfl, rfl⟩ | ⟨hk, hqk⟩
        · rfl
        · exact (hother k q' id n' n hk hqk hw' hw).elim
      · rcases getElem?_acted hq' with ⟨rfl, rfl⟩ | ⟨-, hqk⟩
        · exact (hother j q id n n' hj hqj hw hw').elim
        · exact hp j k q q' id n n' hqj hqk hw hw'
    · exact hp

/-- Whoever holds the task is in its row, and is alone. -/
structure RowOk (now : Int) (r : ScanTask) : Prop where
  held : ∀ g ∈ r.held, now ≤ g.deadline →
    r.status = .leased ∧ r.leasedBy = some g.name ∧ r.leaseUntil = some g.deadline
  alone : (r.holders now).length ≤ 1

theorem RowOk.none_held (h : ∀ g ∈ r.held, ¬ now ≤ g.deadline) : RowOk now r where
  held g hg hnow := absurd hnow (h g hg)
  alone := by
    have hempty : r.holders now = [] := filter_eq_nil_iff.mpr fun g hg => by simpa using h g hg
    rw [hempty]
    exact Nat.zero_le 1

theorem RowOk.free (h : RowOk now r)
    (hfree : r.status ≠ .leased ∨ r.expired now = true) : ∀ g ∈ r.held, ¬ now ≤ g.deadline := by
  intro g hg hnow
  obtain ⟨hleased, -, huntil⟩ := h.held g hg hnow
  rcases hfree with hne | hexpired
  · exact hne hleased
  · unfold ScanTask.expired at hexpired
    rw [huntil] at hexpired
    have hlt : g.deadline < now := of_decide_eq_true hexpired
    omega

variable {deadline updatedAt : Int}

theorem RowOk.lease
    (hfree : ∀ g ∈ r.held, ¬ now ≤ g.deadline) : RowOk now (r.lease name deadline updatedAt) where
  held g hg hnow := by
    rcases mem_append.mp hg with hg | hg
    · exact absurd hnow (hfree g hg)
    · cases mem_singleton.mp hg
      exact ⟨rfl, rfl, rfl⟩
  alone := by
    have hempty : r.held.filter (fun g => decide (now ≤ g.deadline)) = [] :=
      filter_eq_nil_iff.mpr fun g hg => by simpa using hfree g hg
    show ((r.held ++ [(⟨name, deadline⟩ : Grant)]).filter
      fun g => decide (now ≤ g.deadline)).length ≤ 1
    rw [filter_append, hempty, nil_append]
    exact length_filter_le _ _

theorem RowOk.ended {r' : ScanTask} (h : RowOk now r) (hleased : r.leasedTo name = true)
    (hheld : r'.held = r.held.filter fun g => decide (g.name ≠ name)) : RowOk now r' := by
  refine RowOk.none_held fun g hg hnow => ?_
  rw [hheld, mem_filter] at hg
  obtain ⟨-, hby, -⟩ := h.held g hg.1 hnow
  simp only [ScanTask.leasedTo, and_eq_true, decide_eq_true_eq] at hleased
  rw [hby] at hleased
  exact of_decide_eq_true hg.2 (Option.some.inj hleased.2)

theorem RowOk.later {later : Int} (h : RowOk now r) (hle : now ≤ later) : RowOk later r where
  held g hg hnow := h.held g hg (Int.le_trans hle hnow)
  alone := by
    refine Nat.le_trans ?_ h.alone
    unfold ScanTask.holders
    rw [← countP_eq_length_filter, ← countP_eq_length_filter]
    refine countP_mono_left fun g _ hg => ?_
    have hlive : later ≤ g.deadline := of_decide_eq_true hg
    exact decide_eq_true (Int.le_trans hle hlive)

/-! ## All of the tasks -/

structure Orderly (s : ScanQueue) : Prop extends Indexed s where
  rows : ∀ r ∈ s.tasks, RowOk s.now r
  waiting : ∀ d ∈ s.waiting, ∃ r ∈ s.tasks, r.digest = d ∧ r.status = .queued

/-- The task that a party is about to write is leased to it. -/
def Holding (s : ScanQueue) (_ : Nat) (t : Party) : Prop :=
  ∀ id name, t.work = some (id, name) → ∃ r, s.task id = some r ∧ r.leasedTo name = true

theorem Orderly.same (h : Orderly s) (hsame : SameTasks s s') : Orderly s' where
  toIndexed := h.toIndexed.same hsame
  rows := by rw [hsame.tasks, hsame.now]; exact h.rows
  waiting := by rw [hsame.tasks, hsame.waiting]; exact h.waiting

theorem Orderly.of_map {g : ScanTask → ScanTask} (hindexed : Indexed s')
    (htasks : s'.tasks = s.tasks.map g) (hnow : s'.now = s.now)
    (hdigest : ∀ r, (g r).digest = r.digest) (hrows : ∀ r ∈ s.tasks, RowOk s.now (g r))
    (hwaiting : ∀ d ∈ s'.waiting, ∃ r ∈ s.tasks, r.digest = d ∧ (g r).status = .queued) :
    Orderly s' where
  toIndexed := hindexed
  rows r hr := by
    rw [htasks] at hr
    obtain ⟨r₀, hr₀, rfl⟩ := mem_map.mp hr
    rw [hnow]
    exact hrows r₀ hr₀
  waiting d hd := by
    obtain ⟨r, hr, hrd, hqueued⟩ := hwaiting d hd
    refine ⟨g r, ?_, (hdigest r).trans hrd, hqueued⟩
    rw [htasks]
    exact mem_map_of_mem hr

variable {f : ScanTask → ScanTask}

theorem Orderly.update (h : Orderly s)
    (htasks : s'.tasks = (s.update id f).tasks) (hnext : s'.nextId = s.nextId)
    (hnow : s'.now = s.now) (hid : ∀ r, (f r).id = r.id) (hdigest : ∀ r, (f r).digest = r.digest)
    (hrow : ∀ r, s.task id = some r → RowOk s.now (f r))
    (hwaiting : ∀ d ∈ s'.waiting, d ∈ s.waiting ∧
      ∀ r, s.task id = some r → r.digest = d → r.status ≠ .queued) : Orderly s' := by
  have hfind : ∀ r ∈ s.tasks, r.id = id → s.task id = some r := by
    rintro r hr rfl
    exact h.ids.find_self hr
  refine .of_map (h.toIndexed.update htasks hnext hid hdigest) htasks hnow ?_ ?_ ?_
  · intro r
    split
    · exact hdigest r
    · rfl
  · intro r hr
    split
    · rename_i hk
      exact hrow r (hfind r hr hk)
    · exact h.rows r hr
  · intro d hd
    obtain ⟨hmem, hother⟩ := hwaiting d hd
    obtain ⟨r, hr, hrd, hqueued⟩ := h.waiting d hmem
    refine ⟨r, hr, hrd, ?_⟩
    rw [if_neg fun hk => hother r (hfind r hr hk) hrd hqueued]
    exact hqueued

/-- The executor that holds the task is through with it: a waiting task is not leased. -/
theorem Orderly.ended (h : Orderly s) (hid : ∀ r, (f r).id = r.id)
    (hdigest : ∀ r, (f r).digest = r.digest) (hr : s.task id = some r)
    (hleased : r.leasedTo name = true)
    (hheld : ∀ r, (f r).held = r.held.filter fun g => decide (g.name ≠ name)) :
    Orderly (s.update id f) := by
  refine h.update rfl rfl rfl hid hdigest (fun r' hr' => ?_) fun d hd => ⟨hd, ?_⟩
  · cases hr.symm.trans hr'
    exact (h.rows r (find_some hr).1).ended hleased (hheld r)
  · intro r' hr' hrd hqueued
    cases hr.symm.trans hr'
    simp [ScanTask.leasedTo, hqueued] at hleased

theorem Orderly.lease (h : Orderly s)
    (hfree : ∀ r, s.task id = some r → r.status ≠ .leased ∨ r.expired s.now = true) :
    Orderly (s.lease id name deadline updatedAt) := by
  refine h.update rfl rfl rfl (fun _ => rfl) (fun _ => rfl) (fun r hr => ?_) fun d hd => ?_
  · exact .lease ((h.rows r (find_some hr).1).free (hfree r hr))
  · unfold ScanQueue.lease at hd
    cases hr : s.task id with
    | none =>
      rw [hr] at hd
      exact ⟨hd, nofun⟩
    | some r =>
      rw [hr] at hd
      obtain ⟨hd, hne⟩ := mem_filter.mp hd
      refine ⟨hd, fun r' hr' hrd => ?_⟩
      cases hr'
      exact absurd hrd.symm (of_decide_eq_true hne)

theorem Orderly.release (h : Orderly s) : Orderly (releaseExpired s) := by
  refine .of_map h.toIndexed.release rfl rfl (fun r => ?_) (fun r hr => ?_) fun d hd => ?_
  · split <;> rfl
  · split
    · rename_i hexpired
      exact .none_held ((h.rows r hr).free (.inr hexpired.2))
    · exact h.rows r hr
  · obtain ⟨r, hr, hrd, hqueued⟩ := h.waiting d hd
    refine ⟨r, hr, hrd, ?_⟩
    split
    · rfl
    · exact hqueued

theorem Orderly.sweep (h : Orderly s) : Orderly (sweepTasks s) where
  toIndexed := h.toIndexed.sweep
  rows r hr := h.rows r (mem_filter.mp hr).1
  waiting d hd := by
    obtain ⟨r, hr, hrd, hqueued⟩ := h.waiting d hd
    exact ⟨r, mem_filter.mpr ⟨hr, by simp [hqueued]⟩, hrd, hqueued⟩

variable {path digest repositoryId : String} {web : Int}

theorem Orderly.enqueue (h : Orderly s) : Orderly (enqueueTask s path digest repositoryId web) where
  toIndexed := h.toIndexed.enqueue
  rows r hr := by
    rw [enqueueTask_now]
    rcases mem_enqueue hr with ⟨hr, -⟩ | ⟨-, -, hheld, -, -⟩
    · exact h.rows r hr
    · exact .none_held (by simp [hheld])
  waiting d hd := by
    rw [enqueueTask_waiting] at hd
    by_cases hdigest : d = digest
    · exact hdigest ▸ exists_enqueued
    · rcases mem_append.mp hd with hd | hd
      · obtain ⟨r, hr, hrd, hqueued⟩ := h.waiting d hd
        exact ⟨r, mem_enqueue_of_ne hr (hrd ▸ hdigest), hrd, hqueued⟩
      · exact absurd (mem_singleton.mp hd) hdigest

theorem task_enqueue (hr : s.task id = some r) (hne : r.digest ≠ digest) :
    (enqueueTask s path digest repositoryId web).task id = some r := by
  unfold enqueueTask
  split
  · exact find_append_of_some hr
  · show Table.find _ id (s.tasks.map _) = some r
    rw [find_map fun x => ?_]
    · have hfind : Table.find (·.id) id s.tasks = some r := hr
      rw [hfind]
      simp [hne]
    · split <;> rfl

theorem task_release (hr : s.task id = some r) (hlive : r.expired s.now = false) :
    (releaseExpired s).task id = some r := by
  show Table.find _ id (s.tasks.map _) = some r
  rw [find_map fun x => ?_]
  · have hfind : Table.find (·.id) id s.tasks = some r := hr
    rw [hfind]
    simp [hlive]
  · split <;> rfl

theorem task_sweep (h : Orderly s) (hr : s.task id = some r) (hleased : r.status = .leased) :
    (sweepTasks s).task id = some r := by
  show Table.find _ id (s.tasks.filter _) = some r
  rw [find_filter h.ids]
  have hfind : Table.find (·.id) id s.tasks = some r := hr
  rw [hfind]
  simp [Option.filter, hleased]

theorem task_update_ne {k : Nat} (hid : ∀ r, (f r).id = r.id)
    (hk : id ≠ k) (hr : s.task id = some r) : (s.update k f).task id = some r :=
  (find_update_ne hid hk).trans hr

theorem PartyStep.keeps (h : PartyStep s t a s' t') (horderly : Orderly s)
    (hr : s.task id = some r) (hleased : r.status = .leased) (hquiet : id ∉ t.disturbs s a)
    (hother : ∀ n, t.work ≠ some (id, n)) : s'.task id = some r := by
  have hsame (same : SameTasks s s') : s'.task id = some r := by
    unfold ScanQueue.task
    rw [same.tasks]
    exact hr
  obtain ⟨hmem, hid⟩ := find_some hr
  cases h with
  | aside before after same quiet | works k n before after same | leaves k n before after same =>
    exact hsame same
  | enqueued path digest repositoryId web party ok after state =>
    subst party ok state
    refine task_enqueue hr fun hdigest => hquiet ?_
    exact mem_map.mpr ⟨r, mem_filter.mpr ⟨hmem, decide_eq_true hdigest⟩, hid⟩
  | released web party ok after state =>
    subst party ok state
    refine task_release hr ?_
    cases hexpired : r.expired s.now with
    | false => rfl
    | true =>
      refine absurd (mem_map.mpr ⟨r, mem_filter.mpr ⟨hmem, ?_⟩, hid⟩) hquiet
      simp [hleased, hexpired]
  | swept party after state =>
    subst state
    exact task_sweep horderly hr hleased
  | claimed n locked x party reply row after state =>
    subst party reply state
    refine task_update_ne (fun _ => rfl) (fun hthis => hquiet ?_) hr
    unfold Party.disturbs
    simp [row, hthis]
  | taken u rest web party reply after state =>
    subst party reply state
    refine task_update_ne (fun _ => rfl) (fun hthis => hquiet ?_) hr
    exact mem_singleton.mpr hthis
  | checked n k outcome web x party reply row after state =>
    subst state
    exact hr
  | finished k n lastError web finishes ok before after state | failed k n message web before after state =>
    subst state
    refine task_update_ne (fun _ => rfl) (fun hthis => hother n ?_) hr
    exact hthis ▸ before
  | retried k n message outcome u web party ok after state =>
    subst party state
    refine task_update_ne (fun _ => rfl) (fun hthis => hother n ?_) hr
    exact hthis ▸ rfl

/-! ## What a step leaves -/

theorem nextTask_some {locked : List Nat} (horderly : Orderly s)
    (h : nextTask s locked = some r) : s.task r.id = some r ∧ r.due s.now = true := by
  have hmem := mem_of_find?_eq_some h
  have hdue := find?_some h
  rw [and_eq_true] at hdue
  exact ⟨horderly.ids.find_self hmem, hdue.1⟩

theorem due_free (h : r.due now = true) : r.status ≠ .leased ∨ r.expired now = true := by
  simp only [ScanTask.due, and_eq_true, or_eq_true, decide_eq_true_eq] at h
  rcases h.2 with hqueued | ⟨-, hexpired⟩
  · exact .inl (by simp [hqueued])
  · exact .inr hexpired

theorem Holding.nothing (h : t.work = none) : Holding s i t := by
  intro id name hwork
  rw [h] at hwork
  cases hwork

theorem Holding.of_row (h : t.work = some (id, name)) (hr : s.task id = some r)
    (hleased : r.leasedTo name = true) : Holding s i t := by
  intro k n hwork
  rw [h] at hwork
  cases hwork
  exact ⟨r, hr, hleased⟩

theorem task_lease (hr : s.task id = some r) :
    (s.lease id name deadline updatedAt).task id = some (r.lease name deadline updatedAt) := by
  have hself : (s.update id (ScanTask.lease name deadline updatedAt)).task id =
      (s.task id).map (ScanTask.lease name deadline updatedAt) :=
    find_update_self fun _ => rfl
  rw [hr] at hself
  exact hself

theorem leasedTask_some (h : leasedTask s id name = some r) :
    s.task id = some r ∧ r.leasedTo name = true := Option.filter_eq_some_iff.mp h

theorem PartyStep.orderly (h : PartyStep s t a s' t') (horderly : Orderly s)
    (hholding : Holding s i t) (hsteals : t.steals s a = false) :
    Orderly s' ∧ Holding s' i t' := by
  cases h with
  | aside before after same quiet | leaves k n before after same =>
    exact ⟨horderly.same same, .nothing after⟩
  | enqueued path digest repositoryId web party ok after state =>
    exact ⟨state ▸ horderly.enqueue, .nothing after⟩
  | released web party ok after state => exact ⟨state ▸ horderly.release, .nothing after⟩
  | swept party after state => exact ⟨state ▸ horderly.sweep, .nothing after⟩
  | claimed n locked x party reply row after state =>
    subst state
    obtain ⟨hx, hdue⟩ := nextTask_some horderly row
    refine ⟨horderly.lease fun y hy => ?_, .of_row after (task_lease hx) ?_⟩
    · cases hx.symm.trans hy
      exact due_free hdue
    · simp [ScanTask.leasedTo, ScanTask.lease]
  | taken u rest web party reply after state =>
    subst party reply state
    cases hx : s.task u.id with
    | none => simp [Party.steals, hx] at hsteals
    | some x =>
      refine ⟨horderly.lease fun y hy => ?_, .of_row after (task_lease hx) ?_⟩
      · cases hx.symm.trans hy
        simp only [Party.steals, hx, and_eq_false_iff, decide_eq_false_iff_not,
          not_eq_false'] at hsteals
        exact hsteals
      · simp [ScanTask.leasedTo, ScanTask.lease]
  | checked n k outcome web x party reply row after state =>
    subst state
    obtain ⟨hx, hleased⟩ := leasedTask_some row
    exact ⟨horderly, .of_row after hx hleased⟩
  | works k n before after same =>
    obtain ⟨x, hx, hleased⟩ := hholding k n before
    refine ⟨horderly.same same, .of_row after ?_ hleased⟩
    unfold ScanQueue.task
    rw [same.tasks]
    exact hx
  | finished k n lastError web finishes ok before after state | failed k n message web before after state =>
    subst state
    obtain ⟨x, hx, hleased⟩ := hholding k n before
    refine ⟨horderly.ended ?_ ?_ hx hleased ?_, .nothing after⟩ <;> exact fun _ => rfl
  | retried k n message outcome u web party ok after state =>
    subst party state
    obtain ⟨x, hx, hleased⟩ := hholding k n rfl
    refine ⟨horderly.ended ?_ ?_ hx hleased ?_, .nothing after⟩ <;> exact fun _ => rfl

/-- The condition on a step, where one executor writes at a time. -/
def UndisturbedHere (p : Pool ScanQueue Party) (m : Move Party Reply Int) : Prop :=
  Undisturbed p m ∧ Solo p

theorem leases_outline : scanProgram.Outline UndisturbedHere Orderly Holding where
  init s hs := by
    obtain ⟨htasks, hwaiting⟩ := hs
    refine ⟨indexed_empty htasks, ?_, ?_⟩
    · simp [htasks]
    · simp [hwaiting]
  spawn p t _ _ hfresh := .nothing (fresh_work hfresh)
  act p i a t s' t' hp hc ht hact :=
    (partyAct_step (i := i) hact).orderly hp.shared (hp.tasks i t ht) (hc.1.not_steals ht)
  interfere p i a t s' t' hp hc ht hact j q hj hq := by
    intro id name hwork
    obtain ⟨r, hr, hleased⟩ := hp.tasks j q hq id name hwork
    have hstatus : r.status = .leased := by
      simp only [ScanTask.leasedTo, and_eq_true, decide_eq_true_eq] at hleased
      exact hleased.1
    refine ⟨r, (partyAct_step (i := i) hact).keeps hp.shared hr hstatus ?_ ?_, hleased⟩
    · intro hdisturbs
      exact work_of_unwritten (hc.1.unwritten ht hdisturbs) hq name hwork
    · intro n hn
      exact hj (hc.2 j i q t id name n hq ht hwork hn)
  env p e s' hp _ he := by
    have he : (if p.shared.now ≤ e then some { p.shared with now := e } else none) = some s' := he
    split at he
    · rename_i hle
      cases he
      have hold := hp.shared
      exact ⟨⟨⟨hold.ids, hold.digests, hold.old⟩, fun r hr => (hold.rows r hr).later hle,
        hold.waiting⟩, hp.tasks⟩
    · cases he

theorem PartyStep.reports (h : PartyStep s t a s' t') (hexecutes : t.executes = some (id, name))
    (hchanged : ¬ SameScans s s') : t.work = some (id, name) := by
  -- what executes and is not at work is a report before its check, or after its last write
  have hsome : t.executes.isSome = true := by rw [hexecutes]; rfl
  have hwork : ∀ w, t.work = some w → t.executes = some w := by
    intro w hw
    unfold Party.executes
    split
    · rename_i n k outcome pc
      cases pc <;> first | exact hw | cases hw
    · exact hw
  cases h with
  | aside before after same quiet => exact absurd (quiet hsome) hchanged
  | enqueued path digest repositoryId web party ok after state
  | released web party ok after state | swept party after state
  | claimed n locked x party reply row after state
  | taken u rest web party reply after state =>
    subst party
    cases hexecutes
  | checked n k outcome web x party reply row after state =>
    subst state
    exact absurd SameScans.refl hchanged
  | works k n before after same | leaves k n before after same
  | finished k n lastError web finishes ok before after state | failed k n message web before after state =>
    rw [before, ← hexecutes, hwork _ before]
  | retried k n message outcome u web party ok after state =>
    subst party
    exact hexecutes

/-- **Leases are exclusive** in a run whose leases are undisturbed. -/
theorem leases_exclusive (h : scanRuns.Run Undisturbed p) : LeasesExclusive p := by
  have hstrong : scanRuns.Run UndisturbedHere p := h.strengthen fun q hq => solo_run hq
  have hholds := leases_outline.run hstrong
  refine ⟨fun r hr => (hholds.shared.rows r hr).alone, ?_, hholds.shared.waiting⟩
  intro i a t t' s' id name ht hact hexecutes hchanged
  exact hholds.tasks i t ht id name
    ((partyAct_step (i := i) hact).reports hexecutes hchanged)

/-! ## Three runs -/

def emptyQueue : ScanQueue := ⟨[], [], [], [], 1, 0, []⟩

theorem emptyQueue_init : scanRuns.init ⟨emptyQueue, []⟩ := ⟨⟨rfl, rfl⟩, rfl⟩

/-- A push enqueues its image, as the `i`th party. -/
def enqueueImage (i : Nat) : List (Move Party Reply Int) :=
  [.spawn (.enqueue "acme/app" "sha256:ab" "r1" .scanState), .act i (.ok 0), .act i (.ok 0)]

/-- A worker asks for work, as the `i`th party. -/
def claimImage (i : Nat) (name : String) : List (Move Party Reply Int) :=
  [.spawn (.claim name (.heartbeat 0)), .act i (.ok 0), .act i (.next [])]

def handImage (i : Nat) : List (Move Party Reply Int) :=
  [.act i (.target (some "r1")), .act i (.ok 0), .act i (.ok 0)]

/-- A worker dies with its lease, a second one is handed the task and reports; a push in
between enqueues the image again before that. -/
theorem leases_exclusive_two_workers : ∃ p, LeasesExclusive p ∧
    p.shared.tasks.map (·.status) = [.done] := by
  obtain ⟨p, hp⟩ : ∃ p, scanRuns.replay Undisturbed ⟨emptyQueue, []⟩
      (enqueueImage 0 ++ claimImage 1 "worker-1" ++ handImage 1 ++ enqueueImage 2 ++
        [.env (seconds 1300)] ++ claimImage 3 "worker-2" ++ handImage 3 ++
        [.spawn (.report "worker-2" 1 (.result ⟨["CVE-1"], "report", none⟩) .check),
          .act 4 (.ok 0), .act 4 (.ok 0), .act 4 (.ok 0), .act 4 (.ok 0), .act 4 (.ok 0)]) =
      some p := ⟨_, rfl⟩
  refine ⟨p, leases_exclusive (run_of_replay emptyQueue_init hp), ?_⟩
  cases hp
  decide +kernel

/-- A tick selects the task while no worker is online, a worker leases it, and the tick leases
it as well; and a push that enqueues an image again while its report is stored finds the task
done. -/
theorem inline_steals_lease : (¬ ∀ p, scanRuns.Reachable p → LeasesExclusive p) ∧
    ∃ p, scanRuns.Reachable p ∧ p.shared.waiting = ["sha256:ab"] ∧
      p.shared.tasks.map (·.status) = [.done] := by
  constructor
  · intro hclaim
    obtain ⟨p, hp⟩ : ∃ p, scanRuns.replay (fun _ _ => True) ⟨emptyQueue, []⟩
        (enqueueImage 0 ++ [.spawn (.dispatch .release), .act 1 (.ok 0), .act 1 (.active true),
          .act 1 (.ok 0), .act 1 (.ok 0)] ++ claimImage 2 "worker-1" ++ handImage 2 ++
          [.act 1 (.ok 0)]) = some p := ⟨_, rfl⟩
    have halone := (hclaim p (run_of_replay emptyQueue_init hp)).alone
    cases hp
    revert halone
    decide +kernel
  · obtain ⟨p, hp⟩ : ∃ p, scanRuns.replay (fun _ _ => True) ⟨emptyQueue, []⟩
        (enqueueImage 0 ++ claimImage 1 "worker-1" ++ handImage 1 ++
          [.spawn (.report "worker-1" 1 (.result ⟨[], "report", none⟩) .check), .act 2 (.ok 0),
            .act 2 (.ok 0), .act 2 (.ok 0)] ++ enqueueImage 3 ++ [.act 2 (.ok 0)]) = some p :=
      ⟨_, rfl⟩
    refine ⟨p, run_of_replay emptyQueue_init hp, ?_⟩
    cases hp
    decide +kernel

end Chicoree.Scans
