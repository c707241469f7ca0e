import Chicoree.Lib.Machine
import Chicoree.Registryd.Store

/-! # Maintenance jobs and their scheduler

`lib/jobs.ts` and `lib/scheduler.ts`: a run is a row of `job_runs` that is inserted as running
and rewritten when the job has ended. The admin panel and the API call `runJob` at once; the
scheduler of a replica calls it for the schedules that are due, after it has looked for a run
that is still running. -/

namespace Chicoree.Jobs

open Transition
open Registryd (Time)

/-! ## Tables -/

inductive RunStatus where
  | running
  | succeeded
  | failed
deriving DecidableEq

structure JobRun where
  id : Nat
  job : String
  status : RunStatus := .running
  params : List (String × String) := []
  triggeredBy : String
  startedAt : Time
  finishedAt : Option Time := none

structure JobSchedule where
  job : String
  cron : String
  params : List (String × String) := []
  enabled : Bool := false
  timezone : String := "UTC"
  lastRunAt : Option Time := none
  nextRunAt : Option Time := none
  lastStatus : Option String := none
deriving DecidableEq

/-- What the program is deployed with: the parameters of its jobs with their defaults, and
the next time of a cron expression, which an invalid one does not have. -/
structure Deployment where
  jobs : String → Option (List (String × String))
  nextRun : String → String → Time → Option Time

/-- The database with its advisory lock, and the state that each replica keeps. -/
structure Shared where
  jobRuns : List JobRun := []
  jobSchedules : List JobSchedule := []
  /-- The replica whose connection has the advisory lock. -/
  lock : Option Nat := none
  /-- Replicas that take themselves to have it. -/
  hasLock : List Nat := []
  ticking : List Nat := []
  nextId : Nat := 0
  now : Time := 0

/-- `STUCK_AFTER`, in milliseconds. -/
def stuckAfter : Time := 21600000

namespace Shared

def isRunning (job : String) (r : JobRun) : Bool :=
  decide (r.job = job ∧ r.status = .running)

def running (s : Shared) (job : String) : List JobRun := s.jobRuns.filter (isRunning job)

def insertRun (s : Shared) (job : String) (params : List (String × String))
    (triggeredBy : String) : Shared :=
  let run : JobRun :=
    { id := s.nextId, job := job, params := params, triggeredBy := triggeredBy, startedAt := s.now }
  { s with jobRuns := s.jobRuns ++ [run], nextId := s.nextId + 1 }

def finishRun (s : Shared) (id : Nat) (status : RunStatus) : Shared :=
  let finished (r : JobRun) : JobRun := { r with status := status, finishedAt := some s.now }
  { s with jobRuns := Table.update JobRun.id id finished s.jobRuns }

def failStuckRuns (s : Shared) : Shared :=
  let closed (r : JobRun) : JobRun :=
    if r.status = .running ∧ r.startedAt < s.now - stuckAfter then
      { r with status := .failed, finishedAt := some s.now }
    else r
  { s with jobRuns := s.jobRuns.map closed }

def updateSchedule (s : Shared) (job : String) (f : JobSchedule → JobSchedule) : Shared :=
  { s with jobSchedules := Table.update JobSchedule.job job f s.jobSchedules }

def due (s : Shared) (now : Time) : List JobSchedule :=
  s.jobSchedules.filter fun x => x.enabled && x.nextRunAt.all fun next => decide (next ≤ now)

end Shared

/-! ## One run -/

structure RunCall where
  name : String
  params : List (String × String) := []
  triggeredBy : String
deriving DecidableEq

/-- A call of `runJob` between its statements. -/
inductive RunPc where
  | insert (call : RunCall)
  | running (id : Nat)
  | finish (id : Nat) (succeeded : Bool)
  /-- `none` where the call has thrown. -/
  | done (status : Option Bool)
deriving DecidableEq

/-- How a statement or a job ends; and for a tick, the time of its replica. -/
inductive Reply where
  | ok
  | failed
  | clock (now : Time)
deriving DecidableEq

def mergedParams (defaults given : List (String × String)) : List (String × String) :=
  defaults.map fun p => (p.1, (given.lookup p.1).getD p.2)

section

variable (D : Deployment)

def runAct (s : Shared) : RunPc → Reply → Option (Shared × RunPc)
  | .insert call, a =>
    match D.jobs call.name with
    | none => some (s, .done none)
    | some defaults =>
      if a = .failed then some (s, .done none)
      else
        some (s.insertRun call.name (mergedParams defaults call.params) call.triggeredBy,
          .running s.nextId)
  | .running id, a => some (s, .finish id (decide (a ≠ .failed)))
  | .finish id succeeded, a =>
    -- a failure to record the success is recorded as a failure of the job
    if a = .failed then some (s, if succeeded then .finish id false else .done none)
    else some (s.finishRun id (if succeeded then .succeeded else .failed), .done (some succeeded))
  | .done _, _ => none

/-! ## One tick -/

/-- A tick of a replica between its statements. `loop` is the head of the loop over the
schedules that are due. -/
inductive TickPc where
  | start
  | acquire
  | stuck
  | due
  | loop (now : Time) (rest : List JobSchedule)
  | skip (now : Time) (schedule : JobSchedule) (rest : List JobSchedule)
  | claim (now next : Time) (schedule : JobSchedule) (rest : List JobSchedule)
  | run (now : Time) (schedule : JobSchedule) (rest : List JobSchedule) (pc : RunPc)
  | status (now : Time) (schedule : JobSchedule) (rest : List JobSchedule) (text : String)
  /-- The turn has thrown. -/
  | caught (now : Time) (schedule : JobSchedule) (rest : List JobSchedule)
  | finish
  | done
deriving DecidableEq

structure Tick where
  replica : Nat
  /-- `JOB_SCHEDULER` of the replica. -/
  jobSchedulerEnabled : Bool := true
  pc : TickPc := .start

/-- Take or confirm the advisory lock: the state after it, and whether the replica has it.
`none` where the statement fails on a connection that is gone. -/
def acquireLock (s : Shared) (replica : Nat) : Shared × Option Bool :=
  if replica ∈ s.hasLock then
    if s.lock = some replica then (s, some true)
    else ({ s with hasLock := s.hasLock.filter fun r => decide (r ≠ replica) }, none)
  else if s.lock = none ∨ s.lock = some replica then
    ({ s with lock := some replica, hasLock := s.hasLock ++ [replica] }, some true)
  else (s, some false)

/-- What comes of one schedule: the statement for one that does not run, or the look for a run
that is still running. -/
inductive Turn where
  | disable
  | firstSlot (next : Time)
  | unknownJob (next : Time)
  | busy
  | free (next : Time)

def turn (s : Shared) (now : Time) (schedule : JobSchedule) : Turn :=
  match D.nextRun schedule.cron schedule.timezone now with
  | none => .disable
  | some next =>
    if schedule.nextRunAt.isNone then .firstSlot next
    else if (D.jobs schedule.job).isNone then .unknownJob next
    else if (s.running schedule.job).isEmpty then .free next
    else .busy

def statusText : Bool → String
  | true => "succeeded"
  | false => "failed"

def tickAct (s : Shared) (t : Tick) (a : Reply) : Option (Shared × TickPc) :=
  match t.pc with
  | .start =>
    if t.replica ∈ s.ticking then some (s, .done)
    else some ({ s with ticking := s.ticking ++ [t.replica] }, .acquire)
  | .acquire =>
    if a = .failed then some (s, .finish)
    else
      match acquireLock s t.replica with
      | (s', some true) => some (s', if t.jobSchedulerEnabled then .stuck else .finish)
      | (s', _) => some (s', .finish)
  | .stuck => if a = .failed then some (s, .finish) else some (s.failStuckRuns, .due)
  | .due =>
    match a with
    | .clock now => some (s, .loop now (s.due now))
    | .failed => some (s, .finish)
    | .ok => none
  | .loop _ [] => some (s, .finish)
  | .loop now (schedule :: rest) =>
    if a = .failed then some (s, .caught now schedule rest)
    else
      match turn D s now schedule with
      | .disable =>
        some (s.updateSchedule schedule.job fun x =>
          { x with enabled := false, lastStatus := some "disabled: invalid cron" }, .loop now rest)
      | .firstSlot next =>
        some (s.updateSchedule schedule.job fun x => { x with nextRunAt := some next },
          .loop now rest)
      | .unknownJob next =>
        some (s.updateSchedule schedule.job fun x =>
          { x with nextRunAt := some next, lastStatus := some "skipped: unknown job" },
          .loop now rest)
      | .busy => some (s, .skip now schedule rest)
      | .free next => some (s, .claim now next schedule rest)
  | .skip now schedule rest =>
    if a = .failed then some (s, .caught now schedule rest)
    else
      some (s.updateSchedule schedule.job fun x =>
        { x with lastStatus := some "skipped: already running" }, .loop now rest)
  | .claim now next schedule rest =>
    if a = .failed then some (s, .caught now schedule rest)
    else
      some (s.updateSchedule schedule.job fun x =>
        { x with lastRunAt := some now, nextRunAt := some next },
        .run now schedule rest (.insert ⟨schedule.job, schedule.params, "schedule"⟩))
  | .run now schedule rest (.done status) =>
    match status with
    | none => some (s, .caught now schedule rest)
    | some succeeded => some (s, .status now schedule rest (statusText succeeded))
  | .run now schedule rest pc =>
    (runAct D s pc a).map fun x => (x.1, .run now schedule rest x.2)
  | .status now schedule rest text =>
    if a = .failed then some (s, .caught now schedule rest)
    else
      some (s.updateSchedule schedule.job fun x => { x with lastStatus := some text },
        .loop now rest)
  | .caught now schedule rest =>
    -- an error of this statement is dropped
    if a = .failed then some (s, .loop now rest)
    else
      some (s.updateSchedule schedule.job fun x => { x with lastStatus := some "failed" },
        .loop now rest)
  | .finish =>
    some ({ s with ticking := s.ticking.filter fun r => decide (r ≠ t.replica) }, .done)
  | .done => none

inductive Party where
  /-- A run from the admin panel or through the API. -/
  | call (pc : RunPc)
  | tick (t : Tick)

def Party.fresh : Party → Bool
  | .call (.insert _) => true
  | .tick t => decide (t.pc = .start)
  | _ => false

def partyAct (s : Shared) (_ : Nat) : Party → Reply → Option (Shared × Party)
  | .call pc, a => (runAct D s pc a).map fun x => (x.1, .call x.2)
  | .tick t, a => (tickAct D s t a).map fun x => (x.1, .tick { t with pc := x.2 })

/-- Time passes, connections of replicas are lost and their loss is noticed, and
administrators save schedules. -/
inductive Surroundings where
  | wait (d : Nat)
  | lost (replica : Nat)
  | noticed (replica : Nat)
  | save (schedule : JobSchedule)

def surroundings (s : Shared) : Surroundings → Option Shared
  | .wait d => some { s with now := s.now + d }
  | .lost replica =>
    if s.lock = some replica then some { s with lock := none } else none
  | .noticed replica =>
    some { s with hasLock := s.hasLock.filter fun r => decide (r ≠ replica) }
  | .save schedule =>
    some { s with jobSchedules := Table.upsert JobSchedule.job schedule s.jobSchedules }

def jobProgram : Program Shared Party Reply Surroundings where
  init s := s.jobRuns = [] ∧ s.lock = none ∧ s.hasLock = [] ∧ s.ticking = []
  fresh := Party.fresh
  act := partyAct D
  env := surroundings

abbrev jobRunsMachine : Machine (Pool Shared Party) (Move Party Reply Surroundings) :=
  (jobProgram D).machine

end

end Chicoree.Jobs
