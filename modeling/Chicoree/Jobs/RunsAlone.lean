import Mathlib.Algebra.Order.Ring.Nat
import Mathlib.Algebra.Order.BigOperators.Group.List
import Chicoree.Lib.Buckets
import Chicoree.Jobs.Scheduler

/-! # Runs of one job

A decision to run a job is followed by the insert of its row: at once where `runJob` is called
by the admin panel or the API, which look for no other run, and after the look for a running one
where a tick has decided. A replica has one tick at a time and only the replica with the lock
goes on to its schedules, so that ticks see to each other themselves. -/

namespace Chicoree.Jobs

open Transition List Shared
open Registryd (Time)

variable {D : Deployment} {s s' : Shared} {a : Reply} {job : String}

/-! ## The promise and the condition -/

/-- At most one run of a job is in state running. -/
def RunsAlone (p : Pool Shared Party) : Prop := ∀ job, (p.shared.running job).length ≤ 1

def RunPc.pending : RunPc → Option String
  | .insert call => some call.name
  | _ => none

def TickPc.pending : TickPc → Option String
  | .claim _ _ schedule _ => some schedule.job
  | .run _ _ _ pc => pc.pending
  | _ => none

def Party.pending : Party → Option String
  | .call _ => none
  | .tick t => t.pc.pending

/-- The job that a step decides to run: a call inserts its row, a tick has found no running
one. -/
def Party.decides (D : Deployment) (s : Shared) : Party → Reply → Option String
  | .call (.insert c), a =>
    if (D.jobs c.name).isSome ∧ a ≠ .failed then some c.name else none
  | .tick t, a =>
    match t.pc with
    | .loop now (schedule :: _) =>
      if a = .failed then none
      else
        match turn D s now schedule with
        | .free _ => some schedule.job
        | _ => none
    | _ => none
  | .call _, _ => none

/-- No run of the job is running, and no tick has decided to run it. -/
def idle (p : Pool Shared Party) (job : String) : Bool :=
  (p.shared.running job).isEmpty && p.tasks.all fun q => decide (q.pending ≠ some job)

def TickPc.inside : TickPc → Bool
  | .start | .acquire | .finish | .done => false
  | _ => true

def Party.covered (s : Shared) : Party → Bool
  | .call _ => true
  | .tick t => !t.pc.inside || decide (s.lock = some t.replica)

def oneAtATime (D : Deployment) (p : Pool Shared Party) :
    Move Party Reply Surroundings → Bool
  | .act i a =>
    match p.tasks[i]? with
    | none => true
    | some (.call pc) => ((Party.call pc).decides D p.shared a).all (idle p)
    | some (.tick t) =>
      p.tasks.all (Party.covered p.shared) || ((Party.tick t).decides D p.shared a).all (idle p)
  | _ => true

/-- **The condition on a step**: a call starts a job while no run of it is running and no tick
has decided to run it. For a tick this is asked only where some tick has lost the lock. -/
abbrev OneAtATime (D : Deployment) (p : Pool Shared Party)
    (m : Move Party Reply Surroundings) : Prop :=
  oneAtATime D p m = true

/-! ## Weights -/

def weigh (job : String) (pending : Option String) : Nat := if pending = some job then 1 else 0

def load (job : String) (p : Pool Shared Party) : Nat :=
  (p.shared.running job).length + (p.tasks.map fun t => weigh job t.pending).sum

def added (job : String) (decides : Option String) : Nat :=
  if decides = some job then 1 else 0

@[simp] theorem weigh_none : weigh job none = 0 := rfl

theorem running_of_sub {f : JobRun → JobRun} (h : s'.jobRuns = s.jobRuns.map f)
    (hf : ∀ r, isRunning job (f r) = true → isRunning job r = true) :
    (s'.running job).length ≤ (s.running job).length := by
  unfold running
  rw [h, ← countP_eq_length_filter, ← countP_eq_length_filter, countP_map]
  exact countP_mono_left fun r _ hr => hf r hr

theorem running_finishRun {id : Nat} {status : RunStatus} (h : status ≠ .running) :
    ((s.finishRun id status).running job).length ≤ (s.running job).length := by
  refine running_of_sub rfl fun r hr => ?_
  by_cases hid : r.id = id
  · simp [isRunning, hid, h] at hr
  · simpa [hid] using hr

theorem running_failStuckRuns : (s.failStuckRuns.running job).length ≤ (s.running job).length := by
  refine running_of_sub rfl fun r hr => ?_
  by_cases hstuck : r.status = .running ∧ r.startedAt < s.now - stuckAfter
  · simp [isRunning, hstuck] at hr
  · simpa [hstuck] using hr

theorem running_insertRun {name : String} {params : List (String × String)} {by_ : String} :
    ((s.insertRun name params by_).running job).length =
      (s.running job).length + weigh job (some name) := by
  unfold running insertRun weigh
  rw [filter_append, length_append]
  by_cases h : name = job
  · simp [isRunning, h]
  · simp [isRunning, h]

inductive RunStep (D : Deployment) (s : Shared) (call : RunPc) (a : Reply) (s' : Shared)
    (call' : RunPc) : Prop where
  | stays : s' = s → call'.pending = none → RunStep D s call a s' call'
  | inserts (c : RunCall) (params : List (String × String)) : call = .insert c →
      (D.jobs c.name).isSome = true ∧ a ≠ .failed → s' = s.insertRun c.name params c.triggeredBy →
      call'.pending = none → RunStep D s call a s' call'
  | finishes (id : Nat) (status : RunStatus) : call.pending = none → status ≠ .running →
      s' = s.finishRun id status → call'.pending = none → RunStep D s call a s' call'

variable {call call' : RunPc}

theorem runAct_step (h : runAct D s call a = some (s', call')) : RunStep D s call a s' call' := by
  cases call with
  | insert c =>
    simp only [runAct] at h
    split at h
    · cases h
      exact .stays rfl rfl
    · rename_i _ hjob
      split at h
      · cases h
        exact .stays rfl rfl
      · rename_i ha
        cases h
        exact .inserts c _ rfl ⟨by rw [hjob]; rfl, ha⟩ rfl rfl
  | running id =>
    cases h
    exact .stays rfl rfl
  | finish id succeeded =>
    simp only [runAct] at h
    split at h <;> cases h
    · cases succeeded <;> exact .stays rfl rfl
    · cases succeeded <;> exact .finishes id _ rfl RunStatus.noConfusion rfl rfl
  | done status => cases h

theorem RunStep.load (h : RunStep D s call a s' call') :
    (s'.running job).length + weigh job call'.pending ≤
      (s.running job).length + weigh job call.pending := by
  cases h with
  | stays hs hnone =>
    rw [hs, hnone, weigh_none]
    omega
  | inserts c params hcall _ hs hnone =>
    rw [hs, hnone, hcall, running_insertRun]
    exact Nat.le_refl _
  | finishes id status _ hstatus hs hnone =>
    have hle : ((s.finishRun id status).running job).length ≤ (s.running job).length :=
      running_finishRun hstatus
    rw [hs, hnone, weigh_none]
    omega

theorem RunStep.ticking (h : RunStep D s call a s' call') : s'.ticking = s.ticking := by
  cases h with
  | stays hs | inserts _ _ _ _ hs | finishes _ _ _ _ hs =>
    subst hs
    rfl

def TickPc.underWay : TickPc → Bool
  | .start | .done => false
  | _ => true

/-- A tick that was under way goes on without a change to the marks. -/
structure GoesOn (s : Shared) (t : Tick) (s' : Shared) (pc : TickPc) : Prop where
  way : pc.underWay = true → t.pc.underWay = true
  ticking : s'.ticking = s.ticking

inductive TickStep (D : Deployment) (s : Shared) (t : Tick) (a : Reply) (s' : Shared)
    (pc : TickPc) : Prop where
  | starts : t.replica ∉ s.ticking →
      s' = { s with ticking := s.ticking ++ [t.replica] } → pc = .acquire →
      TickStep D s t a s' pc
  /-- The runs stay, and so does a decision, or it is dropped. -/
  | aside : s'.jobRuns = s.jobRuns → GoesOn s t s' pc →
      (pc.pending = none ∨ pc.pending = t.pc.pending) → TickStep D s t a s' pc
  | decided (job : String) : s'.jobRuns = s.jobRuns → GoesOn s t s' pc →
      (Party.tick t).decides D s a = some job → pc.pending = some job → TickStep D s t a s' pc
  | closed : s' = s.failStuckRuns → GoesOn s t s' pc → pc.pending = none → TickStep D s t a s' pc
  | run (call call' : RunPc) : t.pc.pending = call.pending → pc.pending = call'.pending →
      RunStep D s call a s' call' → GoesOn s t s' pc → TickStep D s t a s' pc
  | ends : t.pc = .finish →
      s' = { s with ticking := s.ticking.filter fun r => decide (r ≠ t.replica) } → pc = .done →
      TickStep D s t a s' pc

variable {replica : Nat}

theorem acquireLock_keeps : (acquireLock s replica).1.jobRuns = s.jobRuns ∧
    (acquireLock s replica).1.ticking = s.ticking := by
  unfold acquireLock
  split
  · split <;> exact ⟨rfl, rfl⟩
  · split <;> exact ⟨rfl, rfl⟩

variable {now : Time} {schedule : JobSchedule}

theorem tickAct_run {enabled : Bool}
    {rest : List JobSchedule} (hgoes : ∀ status, call ≠ .done status) :
    tickAct D s ⟨replica, enabled, .run now schedule rest call⟩ a =
      (runAct D s call a).map fun x => (x.1, .run now schedule rest x.2) := by
  cases call with
  | done status => exact absurd rfl (hgoes status)
  | insert | running | finish => rfl

variable {t : Tick} {pc : TickPc}

theorem tickAct_step (h : tickAct D s t a = some (s', pc)) : TickStep D s t a s' pc := by
  obtain ⟨replica, enabled, tpc⟩ := t
  cases tpc with
  | start =>
    simp only [tickAct] at h
    split at h
    · cases h
      exact .aside rfl ⟨fun hdone => hdone, rfl⟩ (.inl rfl)
    · rename_i hnew
      cases h
      exact .starts hnew rfl rfl
  | acquire =>
    simp only [tickAct] at h
    split at h
    · cases h
      exact .aside rfl ⟨fun _ => rfl, rfl⟩ (.inl rfl)
    · obtain ⟨hruns, hticking⟩ : (acquireLock s replica).1.jobRuns = s.jobRuns ∧
        (acquireLock s replica).1.ticking = s.ticking := acquireLock_keeps
      split at h
      · rename_i s₁ hlock
        cases h
        rw [hlock] at hruns hticking
        refine .aside hruns ⟨fun _ => rfl, hticking⟩ (.inl ?_)
        cases enabled <;> rfl
      · rename_i s₁ _ _ hlock
        cases h
        rw [hlock] at hruns hticking
        exact .aside hruns ⟨fun _ => rfl, hticking⟩ (.inl rfl)
  | stuck =>
    simp only [tickAct] at h
    split at h <;> cases h
    · exact .aside rfl ⟨fun _ => rfl, rfl⟩ (.inl rfl)
    · exact .closed rfl ⟨fun _ => rfl, rfl⟩ rfl
  | due =>
    cases a with
    | ok => cases h
    | failed | clock =>
      cases h
      exact .aside rfl ⟨fun _ => rfl, rfl⟩ (.inl rfl)
  | loop now rest =>
    cases rest with
    | nil =>
      cases h
      exact .aside rfl ⟨fun _ => rfl, rfl⟩ (.inl rfl)
    | cons schedule rest =>
      simp only [tickAct] at h
      by_cases ha : a = .failed
      · rw [if_pos ha] at h
        cases h
        exact .aside rfl ⟨fun _ => rfl, rfl⟩ (.inl rfl)
      · rw [if_neg ha] at h
        cases hturn : turn D s now schedule with
        | disable | firstSlot | unknownJob | busy =>
          rw [hturn] at h
          cases h
          exact .aside rfl ⟨fun _ => rfl, rfl⟩ (.inl rfl)
        | free next =>
          rw [hturn] at h
          cases h
          refine .decided schedule.job rfl ⟨fun _ => rfl, rfl⟩ ?_ rfl
          simp only [Party.decides, ha, if_false, hturn]
  | skip now schedule rest | status now schedule rest text | caught now schedule rest =>
    simp only [tickAct] at h
    split at h <;> cases h <;> exact .aside rfl ⟨fun _ => rfl, rfl⟩ (.inl rfl)
  | claim now next schedule rest =>
    simp only [tickAct] at h
    split at h <;> cases h
    · exact .aside rfl ⟨fun _ => rfl, rfl⟩ (.inl rfl)
    · exact .aside rfl ⟨fun _ => rfl, rfl⟩ (.inr rfl)
  | run now schedule rest call =>
    cases call with
    | done status =>
      cases status <;> cases h <;> exact .aside rfl ⟨fun _ => rfl, rfl⟩ (.inl rfl)
    | insert | running | finish =>
      rw [tickAct_run fun status => RunPc.noConfusion] at h
      obtain ⟨⟨s₁, call'⟩, hrun, heq⟩ := Option.map_eq_some_iff.mp h
      obtain ⟨rfl, rfl⟩ := Prod.mk.inj heq
      have hstep := runAct_step hrun
      exact .run _ call' rfl rfl hstep ⟨fun _ => rfl, hstep.ticking⟩
  | finish =>
    cases h
    exact .ends rfl rfl rfl
  | done => cases h

theorem TickStep.load (h : TickStep D s t a s' pc) :
    (s'.running job).length + weigh job pc.pending ≤
      (s.running job).length + weigh job t.pc.pending +
        added job ((Party.tick t).decides D s a) := by
  have hkept (hruns : s'.jobRuns = s.jobRuns) : s'.running job = s.running job := by
    unfold running
    rw [hruns]
  cases h with
  | starts _ hs hpc | ends _ hs hpc =>
    rw [hkept (by rw [hs]), hpc]
    show _ + 0 ≤ _
    omega
  | aside hruns _ hpending =>
    rw [hkept hruns]
    obtain hnone | hkept := hpending
    · rw [hnone, weigh_none]
      omega
    · rw [hkept]
      omega
  | decided job' hruns _ hdecides hpending =>
    rw [hkept hruns, hdecides, hpending]
    unfold weigh added
    omega
  | closed hs _ hpending =>
    have hle : (s.failStuckRuns.running job).length ≤ (s.running job).length :=
      running_failStuckRuns
    rw [hs, hpending, weigh_none]
    omega
  | run call call' hbefore hafter hrun =>
    have hle : (s'.running job).length + weigh job call'.pending ≤
        (s.running job).length + weigh job call.pending := hrun.load
    rw [hbefore, hafter]
    omega

variable {i : Nat}

theorem partyAct_load {t t' : Party} (h : partyAct D s i t a = some (s', t')) :
    (s'.running job).length + weigh job t'.pending ≤
      (s.running job).length + weigh job t.pending + added job (t.decides D s a) := by
  cases t with
  | tick t =>
    obtain ⟨⟨s₁, pc⟩, hact, heq⟩ := Option.map_eq_some_iff.mp h
    obtain ⟨rfl, rfl⟩ := Prod.mk.inj heq
    exact (tickAct_step hact).load
  | call pc =>
    obtain ⟨⟨s₁, pc'⟩, hact, heq⟩ := Option.map_eq_some_iff.mp h
    obtain ⟨rfl, rfl⟩ := Prod.mk.inj heq
    show (s₁.running job).length + 0 ≤ (s.running job).length + 0 + _
    have hstep := runAct_step hact
    cases pc with
    | insert c =>
      -- the row is inserted with the decision
      by_cases hstarts : (D.jobs c.name).isSome ∧ a ≠ .failed
      · have hle : (s₁.running job).length + weigh job pc'.pending ≤
            (s.running job).length + weigh job (RunPc.insert c).pending := hstep.load
        have hdecides : (Party.call (.insert c)).decides D s a = some c.name := if_pos hstarts
        have hsame : weigh job (RunPc.insert c).pending = added job (some c.name) := rfl
        rw [hdecides]
        omega
      · cases hstep with
        | stays hs =>
          rw [hs]
          omega
        | inserts c' _ hcall hstarts' =>
          cases hcall
          exact absurd hstarts' hstarts
        | finishes _ _ hnone => cases hnone
    | running id | finish id succeeded =>
      have hle : (s₁.running job).length + weigh job pc'.pending ≤
          (s.running job).length + 0 := hstep.load
      omega
    | done status => cases hact

/-! ## Ticks side by side -/

def Party.underWay (replica : Nat) : Party → Nat
  | .call _ => 0
  | .tick t => if t.replica = replica ∧ t.pc.underWay = true then 1 else 0

def mark (replica : Nat) (s : Shared) : Nat := if replica ∈ s.ticking then 1 else 0

inductive MarkStep (s : Shared) (t : Tick) (s' : Shared) (pc : TickPc) : Prop where
  | starts : t.replica ∉ s.ticking → s'.ticking = s.ticking ++ [t.replica] →
      MarkStep s t s' pc
  | keeps : (pc.underWay = true → t.pc.underWay = true) → s'.ticking = s.ticking →
      MarkStep s t s' pc
  | ends : t.pc.underWay = true → pc.underWay = false →
      s'.ticking = s.ticking.filter (fun r => decide (r ≠ t.replica)) → MarkStep s t s' pc

theorem TickStep.marks (h : TickStep D s t a s' pc) : MarkStep s t s' pc := by
  cases h with
  | starts hnew hs => exact .starts hnew (by rw [hs])
  | aside _ hgoes | decided _ _ hgoes | closed _ hgoes | run _ _ _ _ _ hgoes =>
    exact .keeps hgoes.way hgoes.ticking
  | ends hfinish hs hdone => exact .ends (by rw [hfinish]; rfl) (by rw [hdone]; rfl) (by rw [hs])

theorem mark_le_one : mark replica s ≤ 1 := by
  unfold mark
  split <;> omega

theorem MarkStep.mark_le {others : Nat} (h : MarkStep s t s' pc)
    (hbefore : others + Party.underWay replica (.tick t) ≤ mark replica s) :
    others + Party.underWay replica (.tick { t with pc := pc }) ≤ mark replica s' := by
  by_cases hr : t.replica = replica
  · subst hr
    cases h with
    | starts hnew hticking =>
      have hbare : mark t.replica s = 0 := if_neg hnew
      have hmark : mark t.replica s' = 1 := by
        refine if_pos ?_
        rw [hticking]
        exact mem_append_right _ (mem_singleton_self _)
      have hone : Party.underWay t.replica (.tick { t with pc := pc }) ≤ 1 := by
        unfold Party.underWay
        dsimp only
        split <;> omega
      omega
    | keeps hway hticking =>
      have hmark : mark t.replica s' = mark t.replica s := by
        unfold mark
        rw [hticking]
      rw [hmark]
      by_cases hpc : pc.underWay = true
      · have hwas : Party.underWay t.replica (.tick t) = 1 := if_pos ⟨rfl, hway hpc⟩
        have his : Party.underWay t.replica (.tick { t with pc := pc }) = 1 := if_pos ⟨rfl, hpc⟩
        omega
      · have his : Party.underWay t.replica (.tick { t with pc := pc }) = 0 :=
          if_neg fun hboth => hpc hboth.2
        omega
    | ends hway hpc hticking =>
      have hwas : Party.underWay t.replica (.tick t) = 1 := if_pos ⟨rfl, hway⟩
      have his : Party.underWay t.replica (.tick { t with pc := pc }) = 0 := by
        refine if_neg fun hboth => ?_
        rw [hpc] at hboth
        exact Bool.noConfusion hboth.2
      have hone : mark t.replica s ≤ 1 := mark_le_one
      omega
  · have his : Party.underWay replica (.tick { t with pc := pc }) = 0 :=
      if_neg fun hboth => hr hboth.1
    have hsame : mark replica s' = mark replica s := by
      unfold mark
      cases h with
      | starts _ hticking | ends _ _ hticking =>
        rw [hticking]
        simp [Ne.symm hr]
      | keeps _ hticking => rw [hticking]
    omega

/-- The ticks of each replica that are under way are counted by its mark. -/
def Marked (p : Pool Shared Party) : Prop :=
  ∀ replica, (p.tasks.map (Party.underWay replica)).sum ≤ mark replica p.shared

theorem surroundings_keeps {e : Surroundings} (h : surroundings s e = some s') :
    s'.jobRuns = s.jobRuns ∧ s'.ticking = s.ticking := by
  cases e with
  | wait d | noticed replica | save schedule =>
    cases h
    exact ⟨rfl, rfl⟩
  | lost replica =>
    simp only [surroundings] at h
    split at h
    · cases h
      exact ⟨rfl, rfl⟩
    · cases h

variable {p : Pool Shared Party}

theorem marked_run {C : Pool Shared Party →
      Move Party Reply Surroundings → Prop} (h : (jobRunsMachine D).Run C p) : Marked p := by
  refine h.invariant (I := Marked) ?_ fun p m p' _ hp _ hs => ?_
  · rintro ⟨s, ts⟩ ⟨-, hts⟩ replica
    subst hts
    exact Nat.zero_le _
  · have hstep : (jobProgram D).step p m = some p' := hs
    intro replica
    have hbefore := hp replica
    obtain ⟨t, rfl, hfresh, rfl⟩ | ⟨i, a, t, s', t', rfl, ht, hact, rfl⟩ | ⟨e, s', rfl, he, rfl⟩ :=
      Program.step_cases hstep
    · have hnew : t.underWay replica = 0 := by
        cases t with
        | call pc => rfl
        | tick t =>
          obtain ⟨r, enabled, pc⟩ := t
          obtain rfl : pc = .start := of_decide_eq_true hfresh
          exact if_neg fun hboth => Bool.noConfusion hboth.2
      rw [map_append, sum_append, map_singleton, sum_singleton, hnew]
      exact hbefore
    · obtain ⟨others, hsum, hafter⟩ := Buckets.sum_others (f := Party.underWay replica) ht
      rw [hsum] at hbefore
      rw [hafter]
      cases t with
      | tick t =>
        obtain ⟨⟨s₁, pc⟩, htick, heq⟩ := Option.map_eq_some_iff.mp hact
        obtain ⟨rfl, rfl⟩ := Prod.mk.inj heq
        exact (tickAct_step htick).marks.mark_le hbefore
      | call pc =>
        obtain ⟨⟨s₁, pc'⟩, hrun, heq⟩ := Option.map_eq_some_iff.mp hact
        obtain ⟨rfl, rfl⟩ := Prod.mk.inj heq
        unfold mark at hbefore ⊢
        rw [(runAct_step hrun).ticking]
        exact hbefore
    · unfold mark at hbefore ⊢
      rw [(surroundings_keeps he).2]
      exact hbefore

theorem TickPc.underWay_of_inside (h : pc.inside = true) : pc.underWay = true := by
  cases pc <;> first | rfl | cases h

theorem TickPc.inside_of_pending (h : pc.pending = some job) : pc.inside = true := by
  cases pc <;> first | rfl | cases h

theorem Marked.alone (hp : Marked p) {j : Nat} {u : Tick}
    (ht : p.tasks[i]? = some (.tick t)) (hu : p.tasks[j]? = some (.tick u)) (hij : j ≠ i)
    (htway : t.pc.underWay = true) (huway : u.pc.underWay = true) : u.replica ≠ t.replica := by
  intro hsame
  have hle := hp t.replica
  obtain ⟨others, hsum, hafter⟩ := Buckets.sum_others (f := Party.underWay t.replica) ht
  have hthis : Party.underWay t.replica (.tick t) = 1 := if_pos ⟨rfl, htway⟩
  have hother : Party.underWay t.replica (.tick u) = 1 := if_pos ⟨hsame, huway⟩
  -- the other one is among those that stay when this one has ended
  have hmem : Party.underWay t.replica (.tick u) ∈
      (p.tasks.set i (.call (.done none))).map (Party.underWay t.replica) := by
    refine mem_map_of_mem (mem_of_getElem? (i := j) ?_)
    rw [getElem?_set_ne (Ne.symm hij)]
    exact hu
  have hsmall := le_sum_of_mem hmem
  have hnone : Party.underWay t.replica (.call (.done none)) = 0 := rfl
  have hmark : mark t.replica p.shared ≤ 1 := mark_le_one
  rw [hafter, hnone, hother] at hsmall
  rw [hsum, hthis] at hle
  omega

theorem turn_free {next : Time}
    (h : turn D s now schedule = .free next) : s.running schedule.job = [] := by
  unfold turn at h
  split at h
  · cases h
  · split at h
    · cases h
    · split at h
      · cases h
      · split at h
        · rename_i hnone
          exact isEmpty_iff.mp hnone
        · cases h

theorem decides_tick (h : (Party.tick t).decides D s a = some job) :
    s.running job = [] ∧ t.pc.inside = true ∧ t.pc.pending = none := by
  obtain ⟨replica, enabled, pc⟩ := t
  unfold Party.decides at h
  cases pc with
  | loop now rest =>
    cases rest with
    | nil => cases h
    | cons schedule rest =>
      simp only at h
      split at h
      · cases h
      · cases hturn : turn D s now schedule with
        | disable | firstSlot | unknownJob | busy =>
          rw [hturn] at h
          cases h
        | free next =>
          rw [hturn] at h
          cases h
          exact ⟨turn_free hturn, rfl, rfl⟩
  | start | acquire | stuck | due | skip | claim | run | status | caught | finish | done => cases h

theorem idle_of_covered (hp : Marked p)
    (ht : p.tasks[i]? = some (.tick t)) (hcovered : p.tasks.all (Party.covered p.shared) = true)
    (hdecides : (Party.tick t).decides D p.shared a = some job) : idle p job = true := by
  obtain ⟨hnone, hinside, hpending⟩ := decides_tick hdecides
  have hhas (u : Tick) (hu : Party.tick u ∈ p.tasks) (huin : u.pc.inside = true) :
      p.shared.lock = some u.replica := by
    have h := all_eq_true.mp hcovered _ hu
    simpa [Party.covered, huin] using h
  unfold idle
  rw [Bool.and_eq_true, List.isEmpty_iff, all_eq_true]
  refine ⟨hnone, fun q hq => decide_eq_true ?_⟩
  intro hq'
  obtain ⟨j, hj⟩ := getElem?_of_mem hq
  cases q with
  | call pc => cases hq'
  | tick u =>
    have huin : u.pc.inside = true := TickPc.inside_of_pending hq'
    have hsame : u.replica = t.replica :=
      Option.some.inj ((hhas u hq huin).symm.trans (hhas t (mem_of_getElem? ht) hinside))
    by_cases hij : j = i
    · subst hij
      obtain rfl : t = u := Party.tick.inj (Option.some.inj (ht.symm.trans hj))
      rw [Party.pending, hpending] at hq'
      cases hq'
    · exact hp.alone ht hj hij (TickPc.underWay_of_inside hinside)
        (TickPc.underWay_of_inside huin) hsame

theorem idle_of_decides (hp : Marked p) {t : Party}
    (ht : p.tasks[i]? = some t) (hc : OneAtATime D p (.act i a))
    (hdecides : t.decides D p.shared a = some job) : idle p job = true := by
  simp only [OneAtATime, oneAtATime, ht] at hc
  cases t with
  | call pc =>
    simp only [hdecides, Option.all_some] at hc
    exact hc
  | tick t =>
    simp only [hdecides, Option.all_some, Bool.or_eq_true] at hc
    obtain hcovered | hidle := hc
    · exact idle_of_covered hp ht hcovered hdecides
    · exact hidle

theorem load_run (h : (jobRunsMachine D).Run (OneAtATime D) p) : ∀ job, load job p ≤ 1 := by
  refine h.invariant (I := fun p => ∀ job, load job p ≤ 1) ?_ fun p m p' hrun hp hc hs => ?_
  · rintro ⟨s, ts⟩ ⟨⟨hruns, -⟩, hts⟩ job
    subst hts
    have hnone : s.running job = [] := by
      unfold running
      rw [hruns]
      rfl
    show (s.running job).length + 0 ≤ 1
    rw [hnone]
    exact Nat.zero_le 1
  · have hstep : (jobProgram D).step p m = some p' := hs
    obtain ⟨t, rfl, hfresh, rfl⟩ | ⟨i, a, t, s', t', rfl, ht, hact, rfl⟩ | ⟨e, s', rfl, he, rfl⟩ :=
      Program.step_cases hstep
    · intro job
      have hnew : t.pending = none := by
        cases t with
        | call pc => rfl
        | tick t =>
          obtain ⟨replica, enabled, pc⟩ := t
          obtain rfl : pc = .start := of_decide_eq_true hfresh
          rfl
      have hbefore := hp job
      show (p.shared.running job).length +
        ((p.tasks ++ [t]).map fun t => weigh job t.pending).sum ≤ 1
      rw [map_append, sum_append, map_singleton, sum_singleton, hnew, weigh_none]
      exact hbefore
    · intro job
      have hbefore := hp job
      have hle : (s'.running job).length + weigh job t'.pending ≤
          (p.shared.running job).length + weigh job t.pending +
            added job (t.decides D p.shared a) := partyAct_load (i := i) hact
      obtain ⟨others, hsum, hafter⟩ :=
        Buckets.sum_others (f := fun t : Party => weigh job t.pending) ht
      unfold load at hbefore
      rw [hsum] at hbefore
      show (s'.running job).length +
        ((p.tasks.set i t').map fun t => weigh job t.pending).sum ≤ 1
      rw [hafter]
      by_cases hdecides : t.decides D p.shared a = some job
      · -- nothing of the job was there before
        have hidle : idle p job = true := idle_of_decides (marked_run hrun) ht hc hdecides
        unfold idle at hidle
        rw [Bool.and_eq_true, List.isEmpty_iff] at hidle
        have hnone : (p.tasks.map fun t => weigh job t.pending).sum = 0 := by
          refine sum_eq_zero ?_
          intro n hn
          obtain ⟨q, hq, rfl⟩ := mem_map.mp hn
          exact if_neg (of_decide_eq_true (all_eq_true.mp hidle.2 q hq))
        have hone : added job (some job) = 1 := if_pos rfl
        rw [hdecides, hone, hidle.1, length_nil] at hle
        omega
      · have hzero : added job (t.decides D p.shared a) = 0 := if_neg hdecides
        rw [hzero] at hle
        omega
    · intro job
      have hbefore := hp job
      unfold load running at hbefore ⊢
      rw [(surroundings_keeps he).1]
      exact hbefore

theorem runs_alone {D : Deployment} {p : Pool Shared Party}
    (h : (jobRunsMachine D).Run (OneAtATime D) p) : RunsAlone p := by
  intro job
  have hload := load_run h job
  unfold load at hload
  omega

/-! ## Two runs -/

section Two

def hourly : Deployment where
  jobs name := if name = "gc" then some [("grace", "1h")] else none
  nextRun _ _ now := some (now + 3600000)

def gcCall (by_ : String) : Party := .call (.insert ⟨"gc", [], by_⟩)

def oneAfterTheOther : List (Move Party Reply Surroundings) :=
  [.env (.save { job := "gc", cron := "0 * * * *", enabled := true, nextRunAt := some 0 }),
    .spawn (.tick { replica := 0 }), .act 0 .ok, .act 0 .ok, .act 0 .ok, .act 0 (.clock 5),
    .act 0 .ok, .act 0 .ok, .act 0 .ok, .act 0 .ok, .act 0 .ok, .spawn (gcCall "user:1"),
    .act 1 .ok]

theorem runs_alone_in_turn : ∃ p, (jobRunsMachine hourly).Run (OneAtATime hourly) p ∧
    p.shared.jobRuns.length = 2 ∧ (p.shared.running "gc").length = 1 ∧ RunsAlone p := by
  obtain ⟨p, hp⟩ : ∃ p, (jobRunsMachine hourly).replay (OneAtATime hourly) ⟨{}, []⟩
      oneAfterTheOther = some p := ⟨_, rfl⟩
  have hrun : (jobRunsMachine hourly).Run (OneAtATime hourly) p :=
    Machine.run_of_replay ⟨⟨rfl, rfl, rfl, rfl⟩, rfl⟩ hp
  refine ⟨p, hrun, ?_, ?_, runs_alone hrun⟩
  · cases hp
    decide +kernel
  · cases hp
    decide +kernel

/-- An administrator starts the job by hand while a scheduled run of it is under way. -/
theorem manual_run_beside_scheduled : ∃ p, (jobRunsMachine hourly).Reachable p ∧ ¬ RunsAlone p := by
  obtain ⟨p, hp⟩ : ∃ p, (jobRunsMachine hourly).replay (fun _ _ => True) ⟨{}, []⟩
      [.env (.save { job := "gc", cron := "0 * * * *", enabled := true, nextRunAt := some 0 }),
        .spawn (.tick { replica := 0 }), .act 0 .ok, .act 0 .ok, .act 0 .ok, .act 0 (.clock 5),
        .act 0 .ok, .act 0 .ok, .act 0 .ok, .spawn (gcCall "user:1"), .act 1 .ok] = some p :=
    ⟨_, rfl⟩
  refine ⟨p, Machine.run_of_replay ⟨⟨rfl, rfl, rfl, rfl⟩, rfl⟩ hp, ?_⟩
  intro halone
  have htwo : (p.shared.running "gc").length = 2 := by
    cases hp
    decide +kernel
  have hone := halone "gc"
  omega

end Two

end Chicoree.Jobs
