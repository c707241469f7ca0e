import Mathlib.Algebra.Order.Ring.Int
import Chicoree.Lib.Machine
import Chicoree.Lib.Table

/-! # The event outbox

registryd records each push and delete in `registry_event_outbox` and posts it to the web
application, up to four times; the web application claims the row before it acts. Rows that
nobody claimed, or whose claim has gone stale, are drained by its scheduler. A statement is
one step, and acting on an event takes any number of steps of the others. -/

namespace Chicoree.Events

open Transition Option Table

/-! ## Events and rows -/

structure EventContent where
  type : String
  repository : String
  digest : Option String
  tag : Option String
  tags : List String
  mediaType : Option String
  actor : Option String
deriving DecidableEq

/-- The body of a post; it has no id where the row could not be inserted. -/
structure RegistryEvent where
  id : Option Nat
  content : EventContent
deriving DecidableEq

/-- A row of `registry_event_outbox`; times are microseconds of the database's clock. -/
structure OutboxRow where
  id : Nat
  content : EventContent
  attempts : Nat
  nextAttemptAt : Int
  claimedAt : Option Int
  deliveredAt : Option Int
  lastError : Option String
  /-- The task whose claim it is, kept for the proofs. -/
  holder : Option Nat

structure Outbox where
  rows : List OutboxRow
  /-- The sequence of the table. -/
  nextId : Nat
  now : Int
  /-- Bodies that were posted and not received yet. -/
  posted : List RegistryEvent
  /-- The events whose processing has ended without an error, kept for the proofs. -/
  processed : List Nat

def seconds (n : Nat) : Int := n * 10 ^ 6

def claimTtl : Int := seconds 600

def outboxMaxAttempts : Nat := 25

def keepDelivered : Int := seconds (7 * 24 * 60 * 60)

def Outbox.row (s : Outbox) (id : Nat) : Option OutboxRow := Table.find (·.id) id s.rows

def Outbox.update (s : Outbox) (id : Nat) (f : OutboxRow → OutboxRow) : Outbox :=
  { s with rows := Table.update (·.id) id f s.rows }

def OutboxRow.unclaimed (r : OutboxRow) (now : Int) : Bool :=
  match r.claimedAt with
  | none => true
  | some t => decide (t < now - claimTtl)

def OutboxRow.claimable (r : OutboxRow) (now : Int) : Bool :=
  r.deliveredAt.isNone && r.unclaimed now

def enqueueEvent (s : Outbox) (e : EventContent) : Outbox :=
  { s with
    rows := s.rows ++ [⟨s.nextId, e, 0, s.now, none, none, none, none⟩]
    nextId := s.nextId + 1 }

/-- `claimOutboxEvent`, by a task: whether the row was there to be claimed. -/
def claimOutboxEvent (s : Outbox) (i id : Nat) : Outbox × Bool :=
  match s.row id with
  | none => (s, false)
  | some r =>
    if r.claimable s.now then
      (s.update id fun r => { r with claimedAt := some s.now, holder := some i }, true)
    else (s, false)

def completeOutboxEvent (s : Outbox) (id : Nat) : Outbox :=
  s.update id fun r => { r with deliveredAt := some s.now, lastError := none }

def backoff (attempts : Nat) : Int := min (seconds 3600) (seconds (30 * 2 ^ attempts))

/-- `failOutboxEvent`: the claim is released. -/
def failOutboxEvent (s : Outbox) (id : Nat) (message : String) : Outbox :=
  s.update id fun r =>
    { r with
      attempts := r.attempts + 1
      claimedAt := none
      lastError := some message
      nextAttemptAt := s.now + backoff r.attempts }

def dueEvents (s : Outbox) (limit : Nat) : List OutboxRow :=
  (s.rows.filter fun r => r.claimable s.now && decide (r.nextAttemptAt ≤ s.now) &&
    decide (r.attempts < outboxMaxAttempts)).take limit

def sweepDelivered (s : Outbox) : Outbox :=
  { s with rows := s.rows.filter fun r =>
      !r.deliveredAt.any fun t => decide (t < s.now - keepDelivered) }

inductive HandlePc where
  /-- In the body of `processRegistryEvent`. -/
  | processing
  | completing
  | failing (message : String)
deriving DecidableEq

/-- The choices of a step: whether a statement, a request or the body of
`processRegistryEvent` goes through, and which body a route receives. -/
inductive Reply where
  | ok
  | fails
  | receive (k : Nat)
deriving DecidableEq

/-- One step of `handleClaimedEvent`; at the end it has processed the event or failed. An error
of the last statement of a success is treated as a failure of the event. -/
def handleAct (s : Outbox) (id : Nat) : HandlePc → Reply → Option (Outbox × (HandlePc ⊕ Bool))
  | .processing, .ok => some ({ s with processed := s.processed ++ [id] }, .inl .completing)
  | .processing, .fails => some (s, .inl (.failing "processing failed"))
  | .completing, .ok => some (completeOutboxEvent s id, .inr true)
  | .completing, .fails => some (s, .inl (.failing "the outbox could not be updated"))
  | .failing message, .ok => some (failOutboxEvent s id message, .inr false)
  | .failing _, .fails => some (s, .inr false)
  | _, .receive _ => none

inductive EmitPc where
  | enqueue
  /-- The next attempt to deliver, of four. -/
  | notify (e : RegistryEvent) (attempt : Nat)
  | done (delivered : Bool)
deriving DecidableEq

/-- `emit` and `Notify`: a failed insert costs the row only; an attempt whose answer does not
come may have been received all the same. -/
def emitAct (s : Outbox) (content : EventContent) : EmitPc → Reply → Option (Outbox × EmitPc)
  | .enqueue, .ok => some (enqueueEvent s content, .notify ⟨some s.nextId, content⟩ 0)
  | .enqueue, .fails => some (s, .notify ⟨none, content⟩ 0)
  | .notify e attempt, a =>
    if 4 ≤ attempt then some (s, .done false)
    else
      match a with
      | .ok => some ({ s with posted := s.posted ++ [e] }, .done true)
      | .fails => some ({ s with posted := s.posted ++ [e] }, .notify e (attempt + 1))
      | .receive _ => none
  | _, _ => none

/-! ## The route -/

inductive RoutePc where
  | listening
  | claim (id : Nat) (content : EventContent)
  | handling (id : Nat) (content : EventContent) (pc : HandlePc)
  /-- An event without a row. -/
  | bestEffort (content : EventContent)
  | done (status : Nat)
deriving DecidableEq

/-- `POST /api/internal/events` for bodies of registryd, with the work that is left for after
the answer. -/
def routeAct (s : Outbox) (i : Nat) : RoutePc → Reply → Option (Outbox × RoutePc)
  | .listening, .receive k =>
    match s.posted[k]? with
    | none => none
    | some e =>
      let s := { s with posted := s.posted.eraseIdx k }
      if e.content.type = "" ∨ e.content.repository = "" then some (s, .done 400)
      else
        match e.id with
        | some id => if 0 < id then some (s, .claim id e.content)
          else some (s, .bestEffort e.content)
        | none => some (s, .bestEffort e.content)
  | .claim id content, .ok =>
    match claimOutboxEvent s i id with
    | (s, true) => some (s, .handling id content .processing)
    | (s, false) => some (s, .done 204)
  | .claim _ _, .fails => some (s, .done 500)
  | .handling id content pc, a =>
    match handleAct s id pc a with
    | some (s, .inl pc) => some (s, .handling id content pc)
    | some (s, .inr _) => some (s, .done 204)
    | none => none
  | .bestEffort _, .ok => some (s, .done 204)
  | .bestEffort _, .fails => some (s, .done 204)
  | _, _ => none

inductive DrainPc where
  | select (limit : Nat)
  | claim (row : OutboxRow) (rest : List OutboxRow) (processed failed : Nat)
  | handling (row : OutboxRow) (pc : HandlePc) (rest : List OutboxRow) (processed failed : Nat)
  | sweep (processed failed : Nat)
  | done (processed failed : Nat)
  | aborted

def drainNext (rest : List OutboxRow) (processed failed : Nat) : DrainPc :=
  match rest with
  | [] => .sweep processed failed
  | row :: rest => .claim row rest processed failed

/-- `drainEventOutbox`. -/
def drainAct (s : Outbox) (i : Nat) : DrainPc → Reply → Option (Outbox × DrainPc)
  | .select limit, .ok => some (s, drainNext (dueEvents s limit) 0 0)
  | .select _, .fails => some (s, .aborted)
  | .claim row rest processed failed, .ok =>
    match claimOutboxEvent s i row.id with
    | (s, true) => some (s, .handling row .processing rest processed failed)
    | (s, false) => some (s, drainNext rest processed failed)
  | .claim _ _ _ _, .fails => some (s, .aborted)
  | .handling row pc rest processed failed, a =>
    match handleAct s row.id pc a with
    | some (s, .inl pc) => some (s, .handling row pc rest processed failed)
    | some (s, .inr true) => some (s, drainNext rest (processed + 1) failed)
    | some (s, .inr false) => some (s, drainNext rest processed (failed + 1))
    | none => none
  | .sweep processed failed, .ok => some (sweepDelivered s, .done processed failed)
  | .sweep processed failed, .fails => some (s, .done processed failed)
  | _, _ => none

inductive Task where
  | emit (content : EventContent) (pc : EmitPc)
  | route (pc : RoutePc)
  | drain (pc : DrainPc)

def Task.fresh : Task → Bool
  | .emit _ pc => decide (pc = .enqueue)
  | .route pc => decide (pc = .listening)
  | .drain (.select _) => true
  | .drain _ => false

def taskAct (s : Outbox) (i : Nat) : Task → Reply → Option (Outbox × Task)
  | .emit content pc, a =>
    (emitAct s content pc a).map fun (s', pc') => (s', .emit content pc')
  | .route pc, a => (routeAct s i pc a).map fun (s', pc') => (s', .route pc')
  | .drain pc, a => (drainAct s i pc a).map fun (s', pc') => (s', .drain pc')

def Outbox.initial (s : Outbox) : Prop :=
  s.rows = [] ∧ s.nextId = 1 ∧ s.posted = [] ∧ s.processed = []

/-- Pushes, routes and drains of any number of replicas; time passes in between. -/
def outboxProgram : Program Outbox Task Reply Int where
  init := Outbox.initial
  fresh := Task.fresh
  act := taskAct
  env s now := some { s with now := now }

abbrev deliveries : Machine (Pool Outbox Task) (Move Task Reply Int) := outboxProgram.machine

def Task.work : Task → Option (Nat × HandlePc)
  | .route (.handling id _ pc) => some (id, pc)
  | .drain (.handling row pc _ _ _) => some (row.id, pc)
  | _ => none

def Task.claims : Task → Option Nat
  | .route (.claim id _) => some id
  | .drain (.claim row _ _ _) => some row.id
  | _ => none

/-- The body of `processRegistryEvent` runs for the event. -/
def Task.processes (id : Nat) (t : Task) : Bool := decide (t.work = some (id, .processing))

/-! ## What the steps do to the outbox

One inversion lemma for every action of registryd, of the route and of the drain. -/

variable {s s' : Outbox} {t t' : Task} {a : Reply} {i id : Nat}

def claimed (s : Outbox) (i id : Nat) : Outbox :=
  s.update id fun r => { r with claimedAt := some s.now, holder := some i }

theorem row_id {r : OutboxRow} (h : s.row id = some r) : r.id = id := (find_some h).2

theorem row_complete_self : (completeOutboxEvent s id).row id =
    (s.row id).map fun r => { r with deliveredAt := some s.now, lastError := none } := by
  refine find_update_self ?_
  exact fun _ => rfl

theorem row_complete_ne {k : Nat} (hk : k ≠ id) : (completeOutboxEvent s id).row k = s.row k := by
  refine find_update_ne ?_ hk
  exact fun _ => rfl

theorem row_claimed_self : (claimed s i id).row id =
    (s.row id).map fun r => { r with claimedAt := some s.now, holder := some i } := by
  refine find_update_self ?_
  exact fun _ => rfl

theorem row_claimed_ne {k : Nat} (hk : k ≠ id) : (claimed s i id).row k = s.row k := by
  refine find_update_ne ?_ hk
  exact fun _ => rfl

theorem row_fail_ne {message : String} {k : Nat} (hk : k ≠ id) :
    (failOutboxEvent s id message).row k = s.row k := by
  refine find_update_ne ?_ hk
  exact fun _ => rfl

/-! ## Steps -/

theorem claimOutboxEvent_true (h : claimOutboxEvent s i id = (s', true)) :
    ∃ r, s.row id = some r ∧ r.claimable s.now = true ∧ s' = claimed s i id := by
  unfold claimOutboxEvent at h
  split at h
  · cases h
  · rename_i r hr
    split at h
    · rename_i hclaim
      cases h
      exact ⟨r, hr, hclaim, rfl⟩
    · cases h

theorem claimOutboxEvent_false (h : claimOutboxEvent s i id = (s', false)) : s' = s := by
  unfold claimOutboxEvent at h
  split at h
  · cases h
    rfl
  · split at h
    · cases h
    · cases h
      rfl

/-- The rows, the sequence and the successes are as before. -/
structure SameRows (s s' : Outbox) : Prop where
  rows : s'.rows = s.rows
  nextId : s'.nextId = s.nextId
  processed : s'.processed = s.processed

/-- What an action of a task does, by the work it has in hand. -/
inductive TaskStep (s : Outbox) (i : Nat) (t : Task) (a : Reply) (s' : Outbox) (t' : Task) :
    Prop where
  | idle (before : t.work = none) (after : t'.work = none) (same : SameRows s s')
  | enqueued (content : EventContent) (before : t.work = none) (after : t'.work = none)
      (state : s' = enqueueEvent s content)
  | swept (before : t.work = none) (after : t'.work = none) (state : s' = sweepDelivered s)
  | claims (id : Nat) (r : OutboxRow) (claim : t.claims = some id) (ok : a = .ok)
      (before : t.work = none) (row : s.row id = some r) (free : r.claimable s.now = true)
      (after : t'.work = some (id, .processing)) (state : s' = claimed s i id)
  | succeeded (id : Nat) (before : t.work = some (id, .processing))
      (after : t'.work = some (id, .completing))
      (state : s' = { s with processed := s.processed ++ [id] })
  | broken (id : Nat) (message : String) (before : t.work = some (id, .processing))
      (after : t'.work = some (id, .failing message)) (state : s' = s)
  | completed (id : Nat) (before : t.work = some (id, .completing)) (after : t'.work = none)
      (state : s' = completeOutboxEvent s id)
  | unmarked (id : Nat) (message : String) (before : t.work = some (id, .completing))
      (error : a = .fails) (after : t'.work = some (id, .failing message)) (state : s' = s)
  | failed (id : Nat) (message : String) (before : t.work = some (id, .failing message))
      (after : t'.work = none) (state : s' = failOutboxEvent s id message)
  | given (id : Nat) (message : String) (before : t.work = some (id, .failing message))
      (after : t'.work = none) (state : s' = s)

theorem handleAct_step {pc : HandlePc} {out : HandlePc ⊕ Bool}
    (h : handleAct s id pc a = some (s', out)) (before : t.work = some (id, pc))
    (after : t'.work = match out with
      | .inl pc' => some (id, pc')
      | .inr _ => none) : TaskStep s i t a s' t' := by
  cases pc with
  | processing =>
    cases a with
    | ok =>
      cases h
      exact .succeeded id before after rfl
    | fails =>
      cases h
      exact .broken id _ before after rfl
    | receive k => cases h
  | completing =>
    cases a with
    | ok =>
      cases h
      exact .completed id before after rfl
    | fails =>
      cases h
      exact .unmarked id _ before rfl after rfl
    | receive k => cases h
  | failing message =>
    cases a with
    | ok =>
      cases h
      exact .failed id message before after rfl
    | fails =>
      cases h
      exact .given id message before after rfl
    | receive k => cases h

theorem drainNext_work (rest : List OutboxRow) (m n : Nat) :
    (Task.drain (drainNext rest m n)).work = none := by
  cases rest <;> rfl

theorem emitAct_step {content : EventContent} {pc pc' : EmitPc}
    (h : emitAct s content pc a = some (s', pc')) :
    TaskStep s i (.emit content pc) a s' (.emit content pc') := by
  cases pc with
  | enqueue =>
    cases a <;> cases h
    case ok.refl => exact .enqueued content rfl rfl rfl
    case fails.refl => exact .idle rfl rfl ⟨rfl, rfl, rfl⟩
  | notify e attempt =>
    simp only [emitAct] at h
    split at h
    · cases h
      exact .idle rfl rfl ⟨rfl, rfl, rfl⟩
    · cases a <;> cases h <;> exact .idle rfl rfl ⟨rfl, rfl, rfl⟩
  | done delivered => cases a <;> cases h

theorem routeAct_step {pc pc' : RoutePc} (h : routeAct s i pc a = some (s', pc')) :
    TaskStep s i (.route pc) a s' (.route pc') := by
  cases pc with
  | listening =>
    cases a with
    | ok | fails => cases h
    | receive k =>
      simp only [routeAct] at h
      repeat' split at h
      all_goals cases h
      all_goals exact .idle rfl rfl ⟨rfl, rfl, rfl⟩
  | claim id content =>
    cases a with
    | ok =>
      simp only [routeAct] at h
      split at h
      · rename_i s₁ hclaim
        cases h
        obtain ⟨r, hr, hfree, hs⟩ := claimOutboxEvent_true hclaim
        exact .claims id r rfl rfl rfl hr hfree rfl hs
      · rename_i s₁ hclaim
        cases h
        cases claimOutboxEvent_false hclaim
        exact .idle rfl rfl ⟨rfl, rfl, rfl⟩
    | fails =>
      cases h
      exact .idle rfl rfl ⟨rfl, rfl, rfl⟩
    | receive k => cases h
  | handling id content pc =>
    simp only [routeAct] at h
    split at h
    · rename_i s₁ pc₁ hstep
      cases h
      exact handleAct_step hstep rfl rfl
    · rename_i s₁ b hstep
      cases h
      exact handleAct_step hstep rfl rfl
    · cases h
  | bestEffort content =>
    cases a with
    | ok | fails =>
      cases h
      exact .idle rfl rfl ⟨rfl, rfl, rfl⟩
    | receive k => cases h
  | done status => cases a <;> cases h

theorem drainAct_step {pc pc' : DrainPc} (h : drainAct s i pc a = some (s', pc')) :
    TaskStep s i (.drain pc) a s' (.drain pc') := by
  cases pc with
  | select limit =>
    cases a <;> cases h
    case ok.refl => exact .idle rfl (drainNext_work _ _ _) ⟨rfl, rfl, rfl⟩
    case fails.refl => exact .idle rfl rfl ⟨rfl, rfl, rfl⟩
  | claim row rest m n =>
    cases a with
    | ok =>
      simp only [drainAct] at h
      split at h
      · rename_i s₁ hclaim
        cases h
        obtain ⟨r, hr, hfree, hs⟩ := claimOutboxEvent_true hclaim
        exact .claims row.id r rfl rfl rfl hr hfree rfl hs
      · rename_i s₁ hclaim
        cases h
        cases claimOutboxEvent_false hclaim
        exact .idle rfl (drainNext_work _ _ _) ⟨rfl, rfl, rfl⟩
    | fails =>
      cases h
      exact .idle rfl rfl ⟨rfl, rfl, rfl⟩
    | receive k => cases h
  | handling row pc rest m n =>
    simp only [drainAct] at h
    split at h
    · rename_i s₁ pc₁ hstep
      cases h
      exact handleAct_step hstep rfl rfl
    · rename_i s₁ hstep
      cases h
      exact handleAct_step hstep rfl (drainNext_work _ _ _)
    · rename_i s₁ hstep
      cases h
      exact handleAct_step hstep rfl (drainNext_work _ _ _)
    · cases h
  | sweep m n =>
    cases a with
    | ok =>
      cases h
      exact .swept rfl rfl rfl
    | fails =>
      cases h
      exact .idle rfl rfl ⟨rfl, rfl, rfl⟩
    | receive k => cases h
  | done m n | aborted => cases a <;> cases h

theorem taskAct_step (h : taskAct s i t a = some (s', t')) : TaskStep s i t a s' t' := by
  cases t with
  | emit content pc =>
    obtain ⟨⟨s₁, pc'⟩, hc, ⟨⟩⟩ := map_eq_some_iff.mp h
    exact emitAct_step hc
  | route pc =>
    obtain ⟨⟨s₁, pc'⟩, hc, ⟨⟩⟩ := map_eq_some_iff.mp h
    exact routeAct_step hc
  | drain pc =>
    obtain ⟨⟨s₁, pc'⟩, hc, ⟨⟩⟩ := map_eq_some_iff.mp h
    exact drainAct_step hc

end Chicoree.Events
