import Chicoree.Quotas.Enforcement

/-! # Runs of the enforcement job

`runQuotaEnforcement` statement by statement, with the rows of `quota_breaches` it keeps. What
was found and what was told is kept in order, the latest first. One run is under way at a time;
usage and limits change whenever they like, and a run may end early. -/

namespace Chicoree.Quotas

open Transition
open Registryd (OrgId)
open Images (PruneStep planPruneToFit loadedScope)

/-! ## Rows -/

abbrev Target := TargetType × String

def Breach.target (b : Breach) : Target := (b.targetType, b.targetId)

/-- A row of `quota_breaches`; dates are in milliseconds. -/
structure BreachRow where
  targetType : TargetType
  targetId : String
  firstOverAt : Int
  lastSeenAt : Int
  usedBytes : Nat
  limitBytes : Int
  /-- First notice sent (the grace period started). -/
  notifiedAt : Option Int := none
  /-- Reminder sent shortly before pruning. -/
  finalNoticeAt : Option Int := none
  /-- Last time images were removed to fit. -/
  prunedAt : Option Int := none
deriving DecidableEq

def BreachRow.target (r : BreachRow) : Target := (r.targetType, r.targetId)

/-- The options of a run, with the time it starts at. The grace period is in milliseconds. -/
structure EnforceOpts where
  now : Int
  grace : Nat
  dryRun : Bool
  organizationSlug : Option String

def day : Int := 86400000

def reminderDays : Int := 2

def EnforceOpts.pruneAt (o : EnforceOpts) (r : BreachRow) : Int := r.firstOverAt + o.grace

/-- `Math.max(0, Math.ceil((pruneAt - now) / DAY))` -/
def EnforceOpts.daysLeft (o : EnforceOpts) (r : BreachRow) : Int :=
  max 0 (-((o.now - o.pruneAt r) / day))

inductive Notice where
  | first
  | reminder
deriving DecidableEq

def EnforceOpts.noticeDue (o : EnforceOpts) (r : BreachRow) : Option Notice :=
  if r.notifiedAt.isNone then some .first
  else if r.finalNoticeAt.isNone ∧ 0 < o.daysLeft r ∧ o.daysLeft r ≤ reminderDays then
    some .reminder
  else none

def EnforceOpts.newRow (o : EnforceOpts) (b : Breach) : BreachRow where
  targetType := b.targetType
  targetId := b.targetId
  firstOverAt := o.now
  lastSeenAt := o.now
  usedBytes := b.usedBytes
  limitBytes := b.limitBytes

def EnforceOpts.seenRow (o : EnforceOpts) (b : Breach) (r : BreachRow) : BreachRow :=
  { r with lastSeenAt := o.now, usedBytes := b.usedBytes, limitBytes := b.limitBytes }

def EnforceOpts.notedRow (o : EnforceOpts) (n : Notice) (r : BreachRow) : BreachRow :=
  match n with
  | .first => { r with notifiedAt := some o.now }
  | .reminder => { r with finalNoticeAt := some o.now }

def EnforceOpts.prunedRow (o : EnforceOpts) (r : BreachRow) : BreachRow :=
  { r with prunedAt := some o.now }

inductive Entry where
  /-- A real run found these over their limit, of the organizations it looked at, or of all. -/
  | looked (organizations : Option (List OrgId)) (exceeding : List Target)
  /-- A real run sent a notice with a date, which came from its grace period. -/
  | notice (run : Nat) (t : Target) (n : Notice) (pruneAt : Int) (grace : Nat)

def covers (organizations : Option (List OrgId)) (t : Target) : Bool :=
  organizations.all fun ids => decide (t.1 = .organization) && ids.contains t.2

def Entry.within (t : Target) : Entry → Bool
  | .looked organizations exceeding => covers organizations t && !exceeding.contains t
  | .notice _ _ _ _ _ => false

def sinceWithin (t : Target) (log : List Entry) : List Entry :=
  log.takeWhile fun e => !e.within t

/-! ## Runs -/

/-- Where a run stands. `todo` is what is left of a loop, `row` the row as it was read. -/
inductive EnforceStage where
  | findBreaches
  | findKnown (organizations : Option (List OrgId)) (breaches : List Breach)
  | forget (organizations : Option (List OrgId)) (breaches : List Breach)
      (known todo : List BreachRow)
  | breach (known : List BreachRow) (todo : List Breach)
  | notify (known : List BreachRow) (b : Breach) (row : BreachRow) (n : Notice)
      (todo : List Breach)
  | noted (known : List BreachRow) (b : Breach) (row : BreachRow) (n : Notice)
      (todo : List Breach)
  | loadScope (known : List BreachRow) (b : Breach) (row : BreachRow) (todo : List Breach)
  | prune (known : List BreachRow) (b : Breach) (row : BreachRow) (steps : List PruneStep)
      (todo : List Breach)
  | pruned (known : List BreachRow) (b : Breach) (todo : List Breach)

structure EnforceRun where
  number : Nat
  opts : EnforceOpts
  stage : EnforceStage

structure EnforceState where
  accounts : Accounts
  content : Content
  rows : List BreachRow
  log : List Entry
  /-- How many runs have begun. -/
  begun : Nat
  active : Option EnforceRun

def EnforceOpts.afterNotices (o : EnforceOpts) (known : List BreachRow) (b : Breach)
    (row : BreachRow) (todo : List Breach) : EnforceStage :=
  if o.now < o.pruneAt row then .breach known todo else .loadScope known b row todo

def EnforceOpts.afterRow (o : EnforceOpts) (known : List BreachRow) (b : Breach)
    (row : BreachRow) (todo : List Breach) : EnforceStage :=
  match o.noticeDue row with
  | some n => if o.dryRun then o.afterNotices known b row todo else .notify known b row n todo
  | none => o.afterNotices known b row todo

def EnforceOpts.forgets (o : EnforceOpts) (breaches : List Breach) (k : BreachRow) : Bool :=
  !(o.organizationSlug.isSome && decide (k.targetType ≠ .organization)) &&
    !(breaches.map Breach.target).contains k.target && !o.dryRun

section

variable (localeCompare : String → String → Ordering)

/-- One statement of a run; `none` for the stage where the run has ended. A failure is `ok =
false`, where it is caught. -/
def enforceStep (s : EnforceState) (run : EnforceRun) (ok : Bool) :
    EnforceState × Option EnforceStage :=
  let o := run.opts
  match run.stage with
  | .findBreaches =>
    let organizations := o.organizationSlug.map fun slug =>
      (s.content.tables.organizations.filter fun x => decide (x.slug = slug)).map (·.id)
    (s, some (.findKnown organizations
      (Quotas.findBreaches s.accounts s.content.db o.organizationSlug)))
  | .findKnown organizations breaches =>
    (s, some (.forget organizations breaches s.rows s.rows))
  | .forget organizations breaches known [] =>
    let log := if o.dryRun then s.log
      else .looked organizations (breaches.map Breach.target) :: s.log
    ({ s with log := log }, some (.breach known breaches))
  | .forget organizations breaches known (k :: todo) =>
    if o.forgets breaches k then
      ({ s with rows := s.rows.filter fun r => decide (r.target ≠ k.target) },
        some (.forget organizations breaches known todo))
    else (s, some (.forget organizations breaches known todo))
  | .breach _ [] => (s, none)
  | .breach known (b :: todo) =>
    match Table.find BreachRow.target b.target known with
    | none =>
      let row := o.newRow b
      if o.dryRun then (s, some (o.afterRow known b row todo))
      -- the key of the table is the target
      else if s.rows.any fun r => decide (r.target = b.target) then (s, none)
      else ({ s with rows := s.rows ++ [row] }, some (o.afterRow known b row todo))
    | some row =>
      if o.dryRun then (s, some (o.afterRow known b row todo))
      else ({ s with rows := Table.update BreachRow.target b.target (o.seenRow b) s.rows },
        some (o.afterRow known b row todo))
  | .notify known b row n todo =>
    let log := if ok then .notice run.number b.target n (o.pruneAt row) o.grace :: s.log
      else s.log
    ({ s with log := log }, some (.noted known b row n todo))
  | .noted known b row n todo =>
    ({ s with rows := Table.update BreachRow.target b.target (o.notedRow n) s.rows },
      some (o.afterNotices known b row todo))
  | .loadScope known b row todo =>
    -- a plan that overflows the stack ends the run
    match planPruneToFit (loadedScope localeCompare s.content.tables b.repositoryIds)
        localeCompare b.limitBytes.toNat with
    | none => (s, none)
    | some plan =>
      if o.dryRun ∨ plan.steps = [] then (s, some (.breach known todo))
      else (s, some (.prune known b row plan.steps todo))
  | .prune known b _ [] todo => (s, some (.pruned known b todo))
  | .prune known b row (step :: steps) todo =>
    let content := if ok then { s.content with tables := step.cleanup.run s.content.tables }
      else s.content
    ({ s with content := content }, some (.prune known b row steps todo))
  | .pruned known b todo =>
    ({ s with rows := Table.update BreachRow.target b.target o.prunedRow s.rows },
      some (.breach known todo))

inductive EnforceEvent where
  /-- Usage, owners and limits change. -/
  | change (accounts : Accounts) (content : Content)
  | start (opts : EnforceOpts)
  /-- The run that is under way makes its next step. -/
  | step (ok : Bool)
  /-- The run ends here: the database or the program fails. -/
  | stop

def enforceMachineStep (s : EnforceState) : EnforceEvent → Option EnforceState
  | .change accounts content => some { s with accounts := accounts, content := content }
  | .start opts =>
    if s.active.isSome then none
    else some { s with begun := s.begun + 1, active := some ⟨s.begun, opts, .findBreaches⟩ }
  | .step ok =>
    s.active.map fun run =>
      let out := enforceStep localeCompare s run ok
      { out.1 with active := out.2.map fun stage => ⟨run.number, run.opts, stage⟩ }
  | .stop => some { s with active := none }

/-- Any runs over any usage, from no recorded breach on. -/
def enforceMachine : Machine EnforceState EnforceEvent where
  init s := s.rows = [] ∧ s.log = [] ∧ s.begun = 0 ∧ s.active = none
  step := enforceMachineStep localeCompare

end

/-! ## What is promised -/

/-- The owners were told: a first notice, later a reminder, both with a date that has come, and
since the first notice no run found the target within its limit. -/
def AnnouncedTo (t : Target) (now : Int) (run : Nat) (log : List Entry) : Prop :=
  ∃ post mid n d g n' d' g', sinceWithin t log = post ++ .notice n t .reminder d g :: mid ∧
      .notice n' t .first d' g' ∈ mid ∧ n' < run ∧ d ≤ now ∧ d' ≤ now

/-- A run that prunes a target is no dry run, and the owners were told. -/
def PrunesAnnounced (s : EnforceState) : Prop :=
  ∀ run known b row steps todo, s.active = some run →
    run.stage = .prune known b row steps todo → run.opts.dryRun = false ∧
      AnnouncedTo b.target run.opts.now run.number s.log

/-- A dry run leaves the rows as they are. -/
def DryRunKeeps (s s' : EnforceState) : Prop :=
  ∀ run, s.active = some run → run.opts.dryRun = true → s'.rows = s.rows

/-- Every notice since the target was last found within its limit is from a run with a grace
period that is no longer. -/
def graceKept (t : Target) (grace : Nat) (log : List Entry) : Bool :=
  (sinceWithin t log).all fun e =>
    match e with
    | .notice _ t' _ _ g => decide (t' = t → g ≤ grace)
    | .looked _ _ => true

/-- The condition on a step: a notice is sent, and a run that finds the grace period over has
read that the reminder went out, and does not have a shorter grace period than an earlier one
that sent a notice. -/
def announces (s : EnforceState) : EnforceEvent → Bool
  | .step ok =>
    s.active.all fun run =>
      match run.stage with
      | .notify _ _ _ _ _ => ok
      | .loadScope _ b row _ =>
        run.opts.dryRun || row.finalNoticeAt.isSome && graceKept b.target run.opts.grace s.log
      | _ => true
  | _ => true

abbrev Announces (s : EnforceState) (e : EnforceEvent) : Prop := announces s e = true

end Chicoree.Quotas
