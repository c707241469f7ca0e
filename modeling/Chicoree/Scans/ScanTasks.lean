import Mathlib.Algebra.Order.Ring.Int
import Chicoree.Lib.Machine
import Chicoree.Lib.Table

/-! # Scans handed to workers

With scan workers on, the scan of a push is a row of `scan_tasks`. Workers lease rows, run the
scanner and report the result or that it failed; while no worker is online the scheduler tick
runs queued rows in the web container. A statement is one step, and scanning takes any number
of steps of the others. -/

namespace Chicoree.Scans

open Transition

/-! ## Rows -/

inductive TaskStatus where
  | queued
  | leased
  | done
  | failed
deriving DecidableEq

/-- A lease as it was given out. -/
structure Grant where
  name : String
  deadline : Int

structure ScanTask where
  id : Nat
  digest : String
  repositoryId : Option String
  repositoryPath : String
  status : TaskStatus
  attempts : Nat
  availableAt : Int
  leasedBy : Option String
  leaseUntil : Option Int
  lastError : Option String
  updatedAt : Int
  /-- The leases given out that have neither ended with a report nor been revoked by a new
  enqueue, kept for the proofs. -/
  held : List Grant
  /-- The leases given out since the last enqueue, kept for the proofs. -/
  leases : Nat

inductive ScanStatus where
  | pending
  | indexing
  | scanned
  | failed
deriving DecidableEq

structure ScanResult where
  findings : List String
  raw : String
  scannerVersion : Option String
deriving DecidableEq

structure ScanRow where
  digest : String
  repositoryId : Option String
  status : ScanStatus
  error : Option String
  scanner : Option String
  result : Option ScanResult

/-- The rows of `scan_findings` of one digest. -/
structure ScanFindings where
  digest : String
  findings : List String

structure ScanWorker where
  name : String
  running : Nat
  completed : Nat
  failed : Nat
  lastError : Option String
  lastSeenAt : Int

/-- The tables, the UUIDs given out so far as a counter, and the clock of the database. -/
structure ScanQueue where
  tasks : List ScanTask
  scans : List ScanRow
  findings : List ScanFindings
  workers : List ScanWorker
  nextId : Nat
  now : Int
  /-- The digests that were enqueued and not handed out since, kept for the proofs. -/
  waiting : List String

def seconds (n : Nat) : Int := n * 10 ^ 6

def workerOnline : Int := seconds 120

def leaseTime : Int := seconds (20 * 60)

def maxAttempts : Nat := 3

def inlinePerTick : Nat := 3

def keepDone : Int := seconds (7 * 24 * 60 * 60)

/-- `30 days`. -/
def keepWorkers : Int := seconds (30 * 24 * 60 * 60)

/-- The name under which the scheduler tick leases; no worker may have it. -/
def inlineName : String := "web (inline)"

def ScanQueue.task (s : ScanQueue) (id : Nat) : Option ScanTask := Table.find (·.id) id s.tasks

def ScanQueue.update (s : ScanQueue) (id : Nat) (f : ScanTask → ScanTask) : ScanQueue :=
  { s with tasks := Table.update (·.id) id f s.tasks }

/-- `lease_until < now()`. -/
def ScanTask.expired (r : ScanTask) (now : Int) : Bool := r.leaseUntil.any fun u => decide (u < now)

def ScanTask.due (r : ScanTask) (now : Int) : Bool :=
  decide (r.availableAt ≤ now) &&
    (decide (r.status = .queued) || (decide (r.status = .leased) && r.expired now))

def ScanTask.holders (r : ScanTask) (now : Int) : List Grant :=
  r.held.filter fun g => decide (now ≤ g.deadline)

def ScanTask.leasedTo (r : ScanTask) (name : String) : Bool :=
  decide (r.status = .leased) && decide (r.leasedBy = some name)

/-! ## Statements -/

/-- `setScanState`: `f` sets the given fields. -/
def setScanState (s : ScanQueue) (digest : String) (repositoryId : Option String)
    (f : ScanRow → ScanRow) : ScanQueue :=
  { s with scans := match Table.find (·.digest) digest s.scans with
      | none => s.scans ++ [f ⟨digest, repositoryId, .pending, none, none, none⟩]
      | some _ => Table.update (·.digest) digest
          (fun r => { f r with repositoryId := repositoryId }) s.scans }

/-- `replaceScanFindings`; a finding counts once. -/
def replaceScanFindings (s : ScanQueue) (digest : String) (findings : List String) : ScanQueue :=
  { s with findings := Table.upsert (·.digest) ⟨digest, findings.eraseDups⟩ s.findings }

def ScanRow.scanned (scanner : String) (result : ScanResult) (r : ScanRow) : ScanRow :=
  { r with status := .scanned, error := none, scanner := some scanner, result := some result }

def ScanRow.failed (message : String) (r : ScanRow) : ScanRow :=
  { r with status := .failed, error := some message }

/-- The insert of `enqueueScan`, at the time of the web container's clock: a row of the digest
is queued afresh. -/
def enqueueTask (s : ScanQueue) (path digest repositoryId : String) (web : Int) : ScanQueue :=
  match Table.find (·.digest) digest s.tasks with
  | none =>
    { s with
      tasks := s.tasks ++ [⟨s.nextId, digest, some repositoryId, path, .queued, 0, web, none,
        none, none, web, [], 0⟩]
      nextId := s.nextId + 1
      waiting := s.waiting ++ [digest] }
  | some _ =>
    { s with
      tasks := Table.update (·.digest) digest (fun r =>
        { r with
          repositoryId := some repositoryId
          repositoryPath := path
          status := .queued
          attempts := 0
          availableAt := web
          leasedBy := none
          leaseUntil := none
          lastError := none
          updatedAt := web
          held := []
          leases := 0 }) s.tasks
      nextId := s.nextId + 1
      waiting := s.waiting ++ [digest] }

def ScanTask.lease (name : String) (deadline updatedAt : Int) (r : ScanTask) : ScanTask :=
  { r with
    status := .leased
    leasedBy := some name
    leaseUntil := some deadline
    attempts := r.attempts + 1
    updatedAt := updatedAt
    held := r.held ++ [⟨name, deadline⟩]
    leases := r.leases + 1 }

def ScanQueue.lease (s : ScanQueue) (id : Nat) (name : String) (deadline updatedAt : Int) :
    ScanQueue :=
  { s.update id (ScanTask.lease name deadline updatedAt) with
    waiting := match s.task id with
      | none => s.waiting
      | some r => s.waiting.filter fun d => decide (d ≠ r.digest) }

/-- The row that a lease takes: the oldest due one that no other transaction has locked. -/
def nextTask (s : ScanQueue) (locked : List Nat) : Option ScanTask :=
  s.tasks.find? fun r => r.due s.now && !locked.contains r.id

def ScanTask.finish (name : String) (lastError : Option String) (web : Int) (r : ScanTask) :
    ScanTask :=
  { r with
    status := .done
    lastError := lastError
    updatedAt := web
    held := r.held.filter fun g => decide (g.name ≠ name) }

def ScanTask.fail (name message : String) (web : Int) (r : ScanTask) : ScanTask :=
  { r with
    status := .failed
    lastError := some message
    updatedAt := web
    held := r.held.filter fun g => decide (g.name ≠ name) }

/-- The executor gives up, and the task is retried; `attempts` are those it has read. -/
def ScanTask.retry (name message : String) (attempts : Nat) (web : Int) (r : ScanTask) : ScanTask :=
  { r with
    status := .queued
    leasedBy := none
    leaseUntil := none
    lastError := some message
    availableAt := web + seconds 60 * attempts
    updatedAt := web
    held := r.held.filter fun g => decide (g.name ≠ name) }

def ScanTask.release (now : Int) (r : ScanTask) : ScanTask :=
  { r with
    status := .queued
    leasedBy := none
    leaseUntil := none
    updatedAt := now
    lastError := some (r.lastError.getD "lease expired") }

/-- The first statement of `dispatchScanTasks`. -/
def releaseExpired (s : ScanQueue) : ScanQueue :=
  { s with tasks := s.tasks.map fun r =>
      if r.status = .leased ∧ r.expired s.now = true then r.release s.now else r }

def inlineTasks (s : ScanQueue) : List ScanTask :=
  (s.tasks.filter fun r => decide (r.status = .queued) && decide (r.availableAt ≤ s.now)).take
    inlinePerTick

def sweepTasks (s : ScanQueue) : ScanQueue :=
  { s with tasks := s.tasks.filter fun r =>
      !((decide (r.status = .done) || decide (r.status = .failed)) &&
        decide (r.updatedAt < s.now - keepDone)) }

def sweepWorkers (s : ScanQueue) : ScanQueue :=
  { s with workers := s.workers.filter fun w => !decide (w.lastSeenAt < s.now - keepWorkers) }

/-- The upsert of `heartbeat`. -/
def seeWorker (s : ScanQueue) (name : String) (running : Nat) (web : Int) : ScanQueue :=
  { s with workers := match Table.find (·.name) name s.workers with
      | none => s.workers ++ [⟨name, running, 0, 0, none, web⟩]
      | some _ => Table.update (·.name) name
          (fun w => { w with running := running, lastSeenAt := web }) s.workers }

def countReport (s : ScanQueue) (name : String) (message : Option String) (web : Int) : ScanQueue :=
  let count (w : ScanWorker) : ScanWorker :=
    match message with
    | none => { w with completed := w.completed + 1, lastSeenAt := web }
    | some m => { w with failed := w.failed + 1, lastError := some m, lastSeenAt := web }
  { s with workers := Table.update (·.name) name count s.workers }

def onlineWorkerCount (s : ScanQueue) : Nat :=
  s.workers.countP fun w => decide (s.now - workerOnline < w.lastSeenAt)

/-- The choices of a step: a statement goes through at a time of the web container's clock, or
fails; the rows that other transactions have locked; what was read or scanned outside. -/
inductive Reply where
  | ok (web : Int)
  | fails
  | next (locked : List Nat)
  /-- The repository of the image, or nothing to scan. -/
  | target (repositoryId : Option String)
  /-- Whether scans are handed to workers. -/
  | active (b : Bool)
  | artifact
  | scanned (result : ScanResult)

inductive EnqueuePc where
  | scanState
  | insert
  | done
  | aborted
deriving DecidableEq

def enqueueAct (s : ScanQueue) (path digest repositoryId : String) :
    EnqueuePc → Reply → Option (ScanQueue × EnqueuePc)
  | .scanState, .ok _ =>
    some (setScanState s digest (some repositoryId) fun r =>
      { r with status := .pending, error := none, scanner := some "trivy" }, .insert)
  | .insert, .ok web => some (enqueueTask s path digest repositoryId web, .done)
  | .scanState, .fails => some (s, .aborted)
  | .insert, .fails => some (s, .aborted)
  | _, _ => none

/-- What is read of a task: by the claim that leases it, by the check of a report, by the
selection of a tick. -/
structure TaskRead where
  id : Nat
  digest : String
  repositoryId : Option String
  repositoryPath : String
  attempts : Nat
deriving DecidableEq

def ScanTask.read (r : ScanTask) : TaskRead :=
  ⟨r.id, r.digest, r.repositoryId, r.repositoryPath, r.attempts⟩

/-- The answer to a worker: the task, and the attempt it is. -/
structure ScanTaskPayload where
  id : Nat
  digest : String
  repositoryPath : String
  attempt : Nat

def TaskRead.payload (t : TaskRead) : ScanTaskPayload :=
  ⟨t.id, t.digest, t.repositoryPath, t.attempts⟩

inductive ClaimPc where
  | heartbeat (running : Nat)
  | claiming
  /-- Nothing was due; the route may ask again. -/
  | polled
  | target (t : TaskRead)
  | nothing (t : TaskRead)
  | indexing (t : TaskRead) (repositoryId : String)
  | token (t : TaskRead)
  | handed (payload : ScanTaskPayload)
  | aborted

def claimAct (s : ScanQueue) (name : String) : ClaimPc → Reply → Option (ScanQueue × ClaimPc)
  | .heartbeat running, .ok web => some (seeWorker s name running web, .claiming)
  | .claiming, .next locked =>
    match nextTask s locked with
    | none => some (s, .polled)
    | some r =>
      let leased := r.lease name (s.now + leaseTime) s.now
      some (s.lease r.id name (s.now + leaseTime) s.now, .target leased.read)
  | .polled, .ok _ => some (s, .claiming)
  | .target t, .target none => some (s, .nothing t)
  | .target t, .target (some repositoryId) => some (s, .indexing t repositoryId)
  | .nothing t, .ok web =>
    some (s.update t.id (ScanTask.finish name (some "nothing to scan") web), .claiming)
  | .indexing t repositoryId, .ok _ =>
    some (setScanState s t.digest (some repositoryId) fun r =>
      { r with status := .indexing, error := none, scanner := some "trivy" }, .token t)
  | .token t, .ok _ => some (s, .handed t.payload)
  | .heartbeat _, .fails => some (s, .aborted)
  | .claiming, .fails => some (s, .aborted)
  | .target _, .fails => some (s, .aborted)
  | .nothing _, .fails => some (s, .aborted)
  | .indexing _ _, .fails => some (s, .aborted)
  | .token _, .fails => some (s, .aborted)
  | _, _ => none

inductive Outcome where
  | result (r : ScanResult)
  | failure (message : String)

inductive ReportPc where
  /-- Before `leasedTask`. -/
  | check
  | storing (t : TaskRead) (result : ScanResult)
  | findings (t : TaskRead) (result : ScanResult)
  | finishing (t : TaskRead)
  | failState (t : TaskRead) (message : String)
  | failing (t : TaskRead) (message : String)
  | retrying (t : TaskRead) (message : String)
  | counting (message : Option String)
  | answered (ok : Bool)
  | aborted
deriving DecidableEq

def leasedTask (s : ScanQueue) (id : Nat) (name : String) : Option ScanTask :=
  (s.task id).filter fun r => r.leasedTo name

def reportAct (s : ScanQueue) (name : String) (id : Nat) (outcome : Outcome) :
    ReportPc → Reply → Option (ScanQueue × ReportPc)
  | .check, .ok _ =>
    match leasedTask s id name with
    | none => some (s, .answered false)
    | some r =>
      match outcome with
      | .result result => some (s, .storing r.read result)
      | .failure message =>
        if maxAttempts ≤ r.attempts then some (s, .failState r.read message)
        else some (s, .retrying r.read message)
  | .storing t result, .ok _ =>
    some (setScanState s t.digest (some (t.repositoryId.getD "")) (ScanRow.scanned "trivy" result),
      .findings t result)
  | .findings t result, .ok _ =>
    some (replaceScanFindings s t.digest result.findings, .finishing t)
  | .finishing _, .ok web => some (s.update id (ScanTask.finish name none web), .counting none)
  | .failState t message, .ok _ =>
    some (setScanState s t.digest t.repositoryId (ScanRow.failed message), .failing t message)
  | .failing _ message, .ok web =>
    some (s.update id (ScanTask.fail name message web), .counting (some message))
  | .retrying t message, .ok web =>
    some (s.update id (ScanTask.retry name message t.attempts web), .counting (some message))
  | .counting message, .ok web => some (countReport s name message web, .answered true)
  | .answered _, _ => none
  | .aborted, _ => none
  | _, .fails => some (s, .aborted)
  | _, _ => none

/-! ### `runScan` -/

inductive RunPc where
  | start
  | artifact
  | indexing (repositoryId : String)
  | executing (repositoryId : String)
  | storing (repositoryId : String) (result : ScanResult)
  | findings (repositoryId : String) (result : ScanResult)
  | failing (repositoryId : String) (message : String)
deriving DecidableEq

/-- `runScan` in the web container, to its end (`none`). -/
def runScanAct (s : ScanQueue) (digest : String) :
    RunPc → Reply → Option (ScanQueue × Option RunPc)
  | .start, .target none => some (s, none)
  | .start, .target (some repositoryId) => some (s, some (.indexing repositoryId))
  | .start, .artifact => some (s, some .artifact)
  | .start, .fails => some (s, none)
  | .artifact, .ok _ =>
    some ({ s with scans := s.scans.filter fun r =>
      !(decide (r.digest = digest) && decide (r.status = .failed)) }, none)
  | .artifact, .fails => some (s, none)
  | .indexing repositoryId, .ok _ =>
    some (setScanState s digest (some repositoryId) fun r =>
      { r with status := .indexing, error := none, scanner := some "trivy" },
      some (.executing repositoryId))
  | .executing repositoryId, .scanned result => some (s, some (.storing repositoryId result))
  | .storing repositoryId result, .ok _ =>
    some (setScanState s digest (some repositoryId) (ScanRow.scanned "trivy" result),
      some (.findings repositoryId result))
  | .findings _ result, .ok _ => some (replaceScanFindings s digest result.findings, none)
  | .failing repositoryId message, .ok _ =>
    some (setScanState s digest (some repositoryId) (ScanRow.failed message), none)
  | .failing _ _, .fails => some (s, none)
  | .indexing repositoryId, .fails => some (s, some (.failing repositoryId "scan failed"))
  | .executing repositoryId, .fails => some (s, some (.failing repositoryId "scan failed"))
  | .storing repositoryId _, .fails => some (s, some (.failing repositoryId "scan failed"))
  | .findings repositoryId _, .fails => some (s, some (.failing repositoryId "scan failed"))
  | _, _ => none

inductive DispatchPc where
  | release
  | settings
  | online
  | select
  | lease (t : TaskRead) (rest : List TaskRead)
  | run (t : TaskRead) (pc : RunPc) (rest : List TaskRead)
  | finish (t : TaskRead) (rest : List TaskRead)
  | sweep
  | sweepWorkers
  | done
  | aborted
deriving DecidableEq

def dispatchNext : List TaskRead → DispatchPc
  | [] => .sweep
  | t :: rest => .lease t rest

def dispatchAct (s : ScanQueue) : DispatchPc → Reply → Option (ScanQueue × DispatchPc)
  | .release, .ok _ => some (releaseExpired s, .settings)
  | .settings, .active b => some (s, if b then .online else .select)
  | .online, .ok _ => some (s, if onlineWorkerCount s = 0 then .select else .sweep)
  | .select, .ok _ => some (s, dispatchNext ((inlineTasks s).map ScanTask.read))
  | .lease t rest, .ok web =>
    some (s.lease t.id inlineName (web + leaseTime) web, .run t .start rest)
  | .run t pc rest, a =>
    match runScanAct s t.digest pc a with
    | some (s, some pc) => some (s, .run t pc rest)
    | some (s, none) => some (s, .finish t rest)
    | none => none
  | .finish t rest, .ok web =>
    some (s.update t.id fun r => r.finish inlineName r.lastError web, dispatchNext rest)
  | .sweep, .ok _ => some (sweepTasks s, .sweepWorkers)
  | .sweepWorkers, .ok _ => some (sweepWorkers s, .done)
  | .release, .fails => some (s, .aborted)
  | .settings, .fails => some (s, .aborted)
  | .online, .fails => some (s, .aborted)
  | .select, .fails => some (s, .aborted)
  | .lease _ _, .fails => some (s, .aborted)
  | .finish _ _, .fails => some (s, .aborted)
  | .sweep, .fails => some (s, .sweepWorkers)
  | .sweepWorkers, .fails => some (s, .done)
  | _, _ => none

inductive Party where
  | enqueue (path digest repositoryId : String) (pc : EnqueuePc)
  | claim (name : String) (pc : ClaimPc)
  | report (name : String) (id : Nat) (outcome : Outcome) (pc : ReportPc)
  | dispatch (pc : DispatchPc)

/-- A request or a tick that has not begun; workers are named so that none has the name of the
scheduler. -/
def Party.fresh : Party → Bool
  | .enqueue _ _ _ pc => decide (pc = .scanState)
  | .claim name (.heartbeat _) => decide (name ≠ inlineName)
  | .claim _ _ => false
  | .report name _ _ pc => decide (pc = .check) && decide (name ≠ inlineName)
  | .dispatch pc => decide (pc = .release)

def partyAct (s : ScanQueue) (_ : Nat) : Party → Reply → Option (ScanQueue × Party)
  | .enqueue path digest repositoryId pc, a =>
    (enqueueAct s path digest repositoryId pc a).map fun (s', pc') =>
      (s', .enqueue path digest repositoryId pc')
  | .claim name pc, a => (claimAct s name pc a).map fun (s', pc') => (s', .claim name pc')
  | .report name id outcome pc, a =>
    (reportAct s name id outcome pc a).map fun (s', pc') => (s', .report name id outcome pc')
  | .dispatch pc, a => (dispatchAct s pc a).map fun (s', pc') => (s', .dispatch pc')

def ScanQueue.initial (s : ScanQueue) : Prop := s.tasks = [] ∧ s.waiting = []

/-- Enqueues, claims, reports and ticks, any number of each; a worker that dies reports
nothing. The database's clock does not go back. -/
def scanProgram : Program ScanQueue Party Reply Int where
  init := ScanQueue.initial
  fresh := Party.fresh
  act := partyAct
  env s now := if s.now ≤ now then some { s with now := now } else none

abbrev scanRuns : Machine (Pool ScanQueue Party) (Move Party Reply Int) := scanProgram.machine

end Chicoree.Scans
