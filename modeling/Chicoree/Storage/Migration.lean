import Chicoree.Lib.Machine
import Chicoree.Storage.BlobTree

/-! # Migrating a blob tree

`Migrate` of `migrate.go`: the rows of the blobs table are streamed to workers, which copy each
blob that the target does not have. A report counts what became of the rows. A worker acts once
for every operation on a backend, and what comes of it goes into the report along with that. -/

namespace Chicoree.Storage

open Transition List

/-! ## The report -/

/-- `Blob`: a row of the blobs table. -/
structure Blob where
  digest : Text
  size : Int
deriving DecidableEq

inductive ProblemKind where
  | missing
  | corrupt
  | failed
deriving DecidableEq

structure Problem where
  digest : Text
  kind : ProblemKind

def maxProblems : Nat := 100

structure MigrateReport where
  blobs : Nat
  bytes : Int
  copied : Nat
  copiedBytes : Int
  replaced : Nat
  skipped : Nat
  skippedBytes : Int
  missing : Nat
  corrupt : Nat
  failed : Nat
  problems : List Problem
  dryRun : Bool

namespace MigrateReport

def start (dryRun : Bool) : MigrateReport := ⟨0, 0, 0, 0, 0, 0, 0, 0, 0, 0, [], dryRun⟩

def Complete (r : MigrateReport) : Prop := r.missing = 0 ∧ r.corrupt = 0 ∧ r.failed = 0

instance (r : MigrateReport) : Decidable r.Complete :=
  inferInstanceAs (Decidable (_ ∧ _))

def seen (r : MigrateReport) (b : Blob) : MigrateReport :=
  { r with blobs := r.blobs + 1, bytes := r.bytes + b.size }

def problem (r : MigrateReport) (b : Blob) (kind : ProblemKind) : MigrateReport :=
  let r := match kind with
    | .missing => { r with missing := r.missing + 1 }
    | .corrupt => { r with corrupt := r.corrupt + 1 }
    | .failed => { r with failed := r.failed + 1 }
  if r.problems.length < maxProblems then { r with problems := r.problems ++ [⟨b.digest, kind⟩] }
  else r

def skip (r : MigrateReport) (b : Blob) : MigrateReport :=
  { r with skipped := r.skipped + 1, skippedBytes := r.skippedBytes + b.size }

/-- `copied` -/
def copy (r : MigrateReport) (size : Int) (replaced : Bool) : MigrateReport :=
  { r with
    copied := r.copied + 1
    copiedBytes := r.copiedBytes + size
    replaced := if replaced then r.replaced + 1 else r.replaced }

end MigrateReport

/-! ## The run -/

/-- What a migration is given: `MigrateOptions`, the rows, the backends as they are at the start,
and whether the listing of the target goes through. -/
structure Job where
  source : Backend
  target : Backend
  blobs : List Blob
  workers : Int
  dryRun : Bool
  verify : Bool
  listed : Bool

/-- `listBlobs`: an inventory if the backend can list its objects. -/
def Job.listBlobs (job : Job) : Option (List (Text × Nat)) :=
  if job.target.lists && job.listed then some job.target.inventory else none

def defaultWorkers : Int := 4

def Job.capacity (job : Job) : Int :=
  (if job.workers ≤ 0 then defaultWorkers else job.workers) * 2

/-- What the goroutines of a run share. -/
structure Migration where
  target : Backend
  /-- The rows the source has not handed out yet. -/
  pending : List Blob
  channel : List Blob
  /-- Whether the source has returned, and whether with an error. -/
  returned : Option Bool
  cancelled : Bool
  report : MigrateReport
  /-- The rows that `copied` was called for. -/
  copies : List Blob

def Job.start (job : Job) : Migration :=
  ⟨job.target, job.blobs, [], none, false, .start job.dryRun, []⟩

inductive Outcome where
  | problem (kind : ProblemKind)
  | skipped
  | copied (size : Int) (replaced : Bool)
deriving DecidableEq

def Migration.settle (s : Migration) (b : Blob) : Outcome → Migration
  | .problem kind => { s with report := s.report.problem b kind }
  | .skipped => { s with report := s.report.skip b }
  | .copied size replaced =>
    { s with report := s.report.copy size replaced, copies := s.copies ++ [b] }

/-- Where a worker is with its row: before it looks at the target, before it hashes what the
target has, before it opens the source, and before it writes to the target. -/
inductive Worker where
  | idle
  | checking (b : Blob)
  | hashing (b : Blob)
  | opening (b : Blob) (replace : Bool)
  | putting (b : Blob) (replace : Bool) (content : List UInt8)
deriving DecidableEq

/-- How an operation of a worker goes: it is done, or it fails; and `Put` may fail when it has
published the content. -/
inductive Choice where
  | done
  | fails
  | failsLate
deriving DecidableEq

/-- What happens besides: the source hands out a row or returns, and the context is cancelled. -/
inductive Event where
  | feed
  | sourceReturns (err : Bool)
  | cancel

section migrate

variable (S : Sha256) (job : Job)

/-- `stat`, which fails only where the inventory has no entry. -/
def stat (target : Backend) (digest : Text) (choice : Choice) : Option (Option Nat) :=
  match job.listBlobs.bind fun inventory => sizeIn inventory digest with
  | some size => some (some size)
  | none => if choice = .done then some ((target.get digest).map List.length) else none

def toCopy (s : Migration) (b : Blob) (replace : Bool) : Migration × Worker :=
  if job.dryRun then (s.settle b (.copied b.size replace), .idle) else (s, .opening b replace)

/-- `process` up to the first operation on a backend. -/
def startRow (s : Migration) (b : Blob) : Migration × Worker :=
  let s := { s with report := s.report.seen b }
  if supportedDigest b.digest then (s, .checking b) else (s.settle b (.problem .failed), .idle)

def workerStep (s : Migration) : Worker → Choice → Option (Migration × Worker)
  | .idle, _ =>
    match s.channel with
    | [] => none
    | b :: rest =>
      let s := { s with channel := rest }
      some (if s.cancelled then (s, .idle) else startRow s b)
  | .checking b, choice =>
    some <| match stat job s.target b.digest choice with
      | none => (s.settle b (.problem .failed), .idle)
      | some none => toCopy job s b false
      | some (some size) =>
        if (size : Int) ≠ b.size then toCopy job s b true
        else if job.verify then (s, .hashing b)
        else (s.settle b .skipped, .idle)
  | .hashing b, choice =>
    some <| match if choice = .done then s.target.get b.digest else none with
      | none => (s.settle b (.problem .failed), .idle)
      | some content =>
        if S.digestOf content = b.digest then (s.settle b .skipped, .idle)
        else toCopy job s b true
  | .opening b replace, choice =>
    some <| if choice = .done then
      match job.source.get b.digest with
      | none => (s.settle b (.problem .missing), .idle)
      | some content => (s, .putting b replace content)
    else (s.settle b (.problem .failed), .idle)
  | .putting b replace content, choice =>
    let reader : VerifyingReader := ⟨[content], .eof, [], b.digest⟩
    let stored := { s with target := s.target.put b.digest content }
    some <| match choice, (reader.readAll S).2 with
      | .done, .eof => (stored.settle b (.copied content.length replace), .idle)
      | .done, .digestMismatch => (s.settle b (.problem .corrupt), .idle)
      | .failsLate, .eof => (stored.settle b (.problem .failed), .idle)
      | _, _ => (s.settle b (.problem .failed), .idle)

def surroundings (s : Migration) : Event → Option Migration
  | .feed =>
    match s.pending with
    | [] => none
    | b :: rest =>
      if s.returned = none ∧ (s.channel.length : Int) < job.capacity then
        some { s with pending := rest, channel := s.channel ++ [b] }
      else none
  | .sourceReturns err =>
    if s.returned = none ∧ (err = true ∨ s.pending = []) then some { s with returned := some err }
    else none
  | .cancel => some { s with cancelled := true }

def migrate : Program Migration Worker Choice Event where
  init s := s = job.start
  fresh t := t = .idle
  act s _ t choice := workerStep S job s t choice
  env := surroundings job

end migrate

/-- The walk is over: the source has returned, and the workers have emptied the channel. -/
structure Finished (p : Pool Migration Worker) : Prop where
  returned : p.shared.returned ≠ none
  channel : p.shared.channel = []
  workers : ∀ t ∈ p.tasks, t = .idle

/-- `Migrate` returns an error: the source's, or that of the context. -/
def Failed (s : Migration) : Prop := s.returned = some true ∨ s.cancelled = true

/-! ## What the surroundings and a worker can do -/

inductive Surrounding (s : Migration) : Event → Migration → Prop
  | feed {b : Blob} {rest : List Blob} (pending : s.pending = b :: rest)
      (going : s.returned = none) :
      Surrounding s .feed { s with pending := rest, channel := s.channel ++ [b] }
  | returns {err : Bool} (going : s.returned = none) (drained : err = true ∨ s.pending = []) :
      Surrounding s (.sourceReturns err) { s with returned := some err }
  | cancels : Surrounding s .cancel { s with cancelled := true }

theorem surroundings_cases {job : Job} {s s' : Migration} {e : Event}
    (h : surroundings job s e = some s') : Surrounding s e s' := by
  unfold surroundings at h
  split at h
  · split at h
    · cases h
    · rename_i hpending
      split at h <;> cases h
      rename_i hroom
      exact .feed hpending hroom.1
  · split at h <;> cases h
    rename_i hreturns
    exact .returns hreturns.1 hreturns.2
  · cases h
    exact .cancels

def Worker.row : Worker → Option Blob
  | .idle => none
  | .checking b => some b
  | .hashing b => some b
  | .opening b _ => some b
  | .putting b _ _ => some b

section steps

variable (S : Sha256) (job : Job) (s : Migration)

/-- The target has nothing for the row, or an object of another size, which is replaced. -/
inductive Needs (b : Blob) (choice : Choice) : Bool → Prop where
  | absent (h : stat job s.target b.digest choice = some none) : Needs b choice false
  | size {n : Nat} (h : stat job s.target b.digest choice = some (some n))
      (hn : (n : Int) ≠ b.size) : Needs b choice true

/-- Steps on which a worker goes on with its row. -/
inductive GoesOn : Worker → Choice → Worker → Prop where
  | hash {b : Blob} {choice : Choice} {n : Nat}
      (h : stat job s.target b.digest choice = some (some n)) (hn : (n : Int) = b.size)
      (hverify : job.verify = true) : GoesOn (.checking b) choice (.hashing b)
  | open {b : Blob} {choice : Choice} {replace : Bool} (h : Needs job s b choice replace)
      (hreal : job.dryRun = false) : GoesOn (.checking b) choice (.opening b replace)
  | replace {b : Blob} {content : List UInt8} (h : s.target.get b.digest = some content)
      (hne : S.digestOf content ≠ b.digest) (hreal : job.dryRun = false) :
      GoesOn (.hashing b) .done (.opening b true)
  | put {b : Blob} {replace : Bool} {content : List UInt8}
      (h : job.source.get b.digest = some content) :
      GoesOn (.opening b replace) .done (.putting b replace content)

/-- Steps on which a worker is done with its row: the target after it, and the outcome. -/
inductive Ends : Worker → Choice → Blob → Backend → Outcome → Prop where
  | statFails {b : Blob} {choice : Choice} (hfails : choice ≠ .done) :
      Ends (.checking b) choice b s.target (.problem .failed)
  | trusted {b : Blob} {choice : Choice} {n : Nat}
      (h : stat job s.target b.digest choice = some (some n)) (hn : (n : Int) = b.size)
      (hverify : job.verify = false) : Ends (.checking b) choice b s.target .skipped
  | plan {b : Blob} {choice : Choice} {replace : Bool} (h : Needs job s b choice replace)
      (hdry : job.dryRun = true) :
      Ends (.checking b) choice b s.target (.copied b.size replace)
  | hashFails {b : Blob} {choice : Choice}
      (h : choice ≠ .done ∨ s.target.get b.digest = none) :
      Ends (.hashing b) choice b s.target (.problem .failed)
  | verified {b : Blob} {content : List UInt8} (h : s.target.get b.digest = some content)
      (heq : S.digestOf content = b.digest) : Ends (.hashing b) .done b s.target .skipped
  | replan {b : Blob} {content : List UInt8} (h : s.target.get b.digest = some content)
      (hne : S.digestOf content ≠ b.digest) (hdry : job.dryRun = true) :
      Ends (.hashing b) .done b s.target (.copied b.size true)
  | missing {b : Blob} {replace : Bool} (h : job.source.get b.digest = none) :
      Ends (.opening b replace) .done b s.target (.problem .missing)
  | openFails {b : Blob} {replace : Bool} {choice : Choice} (hfails : choice ≠ .done) :
      Ends (.opening b replace) choice b s.target (.problem .failed)
  | stored {b : Blob} {replace : Bool} {content : List UInt8}
      (heq : S.digestOf content = b.digest) :
      Ends (.putting b replace content) .done b (s.target.put b.digest content)
        (.copied content.length replace)
  | mismatch {b : Blob} {replace : Bool} {content : List UInt8}
      (hne : S.digestOf content ≠ b.digest) :
      Ends (.putting b replace content) .done b s.target (.problem .corrupt)
  | late {b : Blob} {replace : Bool} {content : List UInt8}
      (heq : S.digestOf content = b.digest) :
      Ends (.putting b replace content) .failsLate b (s.target.put b.digest content)
        (.problem .failed)
  | putFails {b : Blob} {replace : Bool} {content : List UInt8} {choice : Choice}
      (hfails : choice ≠ .done) :
      Ends (.putting b replace content) choice b s.target (.problem .failed)

end steps

section steps

variable {S : Sha256} {job : Job} {s s' : Migration} {t t' : Worker} {choice : Choice}

/-- What a step of a worker can be: it takes a row, goes on with its row, or is done with it. -/
inductive WorkerStep (S : Sha256) (job : Job) (s : Migration) :
    Worker → Choice → Migration → Worker → Prop where
  | drops {choice : Choice} {b : Blob} {rest : List Blob} (hchannel : s.channel = b :: rest)
      (hcancelled : s.cancelled = true) :
      WorkerStep S job s .idle choice { s with channel := rest } .idle
  | takes {choice : Choice} {b : Blob} {rest : List Blob} (hchannel : s.channel = b :: rest)
      (hcancelled : s.cancelled = false) (hsupported : supportedDigest b.digest = true) :
      WorkerStep S job s .idle choice { s with channel := rest, report := s.report.seen b }
        (.checking b)
  | refuses {choice : Choice} {b : Blob} {rest : List Blob} (hchannel : s.channel = b :: rest)
      (hcancelled : s.cancelled = false) (hsupported : supportedDigest b.digest = false) :
      WorkerStep S job s .idle choice
        ({ s with channel := rest, report := s.report.seen b }.settle b (.problem .failed)) .idle
  | goesOn {t t' : Worker} {choice : Choice} (h : GoesOn S job s t choice t') :
      WorkerStep S job s t choice s t'
  | ends {t : Worker} {choice : Choice} {b : Blob} {target : Backend} {o : Outcome}
      (h : Ends S job s t choice b target o) :
      WorkerStep S job s t choice ({ s with target := target }.settle b o) .idle

theorem toCopy_step {b : Blob} {replace : Bool}
    (hreal : job.dryRun = false → GoesOn S job s t choice (.opening b replace))
    (hdry : job.dryRun = true → Ends S job s t choice b s.target (.copied b.size replace)) :
    WorkerStep S job s t choice (toCopy job s b replace).1 (toCopy job s b replace).2 := by
  unfold toCopy
  by_cases h : job.dryRun = true
  · rw [if_pos h]
    exact .ends (hdry h)
  · rw [if_neg h]
    exact .goesOn (hreal (Bool.eq_false_iff.mpr h))

theorem stat_fails {target : Backend} {digest : Text} (h : stat job target digest choice = none) :
    choice ≠ .done := by
  rintro rfl
  unfold stat at h
  cases hentry : job.listBlobs.bind fun inventory => sizeIn inventory digest with
  | none => simp only [hentry, if_pos] at h; cases h
  | some size => simp only [hentry] at h; cases h

theorem workerStep_cases (h : workerStep S job s t choice = some (s', t')) :
    WorkerStep S job s t choice s' t' := by
  cases t with
  | idle =>
    simp only [workerStep] at h
    cases hchannel : s.channel with
    | nil => rw [hchannel] at h; cases h
    | cons b rest =>
      simp only [hchannel] at h
      by_cases hcancelled : s.cancelled = true
      · rw [if_pos hcancelled] at h
        cases h
        exact .drops hchannel hcancelled
      · rw [if_neg hcancelled] at h
        unfold startRow at h
        by_cases hsupported : supportedDigest b.digest = true
        · rw [if_pos hsupported] at h
          cases h
          exact .takes hchannel (Bool.eq_false_iff.mpr hcancelled) hsupported
        · rw [if_neg hsupported] at h
          cases h
          exact .refuses hchannel (Bool.eq_false_iff.mpr hcancelled)
            (Bool.eq_false_iff.mpr hsupported)
  | checking b =>
    simp only [workerStep, Option.some.injEq] at h
    cases hstat : stat job s.target b.digest choice with
    | none =>
      simp only [hstat] at h
      cases h
      exact .ends (.statFails (stat_fails hstat))
    | some found =>
      cases found with
      | none =>
        simp only [hstat] at h
        have hstep : WorkerStep S job s (.checking b) choice _ _ :=
          toCopy_step (.open (.absent hstat)) (.plan (.absent hstat))
        rw [h] at hstep
        exact hstep
      | some size =>
        simp only [hstat] at h
        by_cases hsize : (size : Int) ≠ b.size
        · rw [if_pos hsize] at h
          have hstep : WorkerStep S job s (.checking b) choice _ _ :=
            toCopy_step (.open (.size hstat hsize)) (.plan (.size hstat hsize))
          rw [h] at hstep
          exact hstep
        · rw [if_neg hsize] at h
          by_cases hverify : job.verify = true
          · rw [if_pos hverify] at h
            cases h
            exact .goesOn (.hash hstat (not_not.mp hsize) hverify)
          · rw [if_neg hverify] at h
            cases h
            exact .ends (.trusted hstat (not_not.mp hsize) (Bool.eq_false_iff.mpr hverify))
  | hashing b =>
    simp only [workerStep, Option.some.injEq] at h
    by_cases hdone : choice = .done
    · rw [if_pos hdone] at h
      split at h
      · rename_i hget
        cases h
        exact .ends (.hashFails (.inr hget))
      · rename_i content hget
        by_cases heq : S.digestOf content = b.digest
        · rw [if_pos heq] at h
          cases h
          rw [hdone]
          exact .ends (.verified hget heq)
        · rw [if_neg heq] at h
          rw [hdone]
          have hstep : WorkerStep S job s (.hashing b) .done _ _ :=
            toCopy_step (.replace hget heq) (.replan hget heq)
          rw [h] at hstep
          exact hstep
    · rw [if_neg hdone] at h
      cases h
      exact .ends (.hashFails (.inl hdone))
  | opening b replace =>
    simp only [workerStep, Option.some.injEq] at h
    by_cases hdone : choice = .done
    · rw [if_pos hdone] at h
      split at h
      · rename_i hget
        cases h
        rw [hdone]
        exact .ends (.missing hget)
      · rename_i _ hget
        cases h
        rw [hdone]
        exact .goesOn (.put hget)
    · rw [if_neg hdone] at h
      cases h
      exact .ends (.openFails hdone)
  | putting b replace content =>
    simp only [workerStep, Option.some.injEq, VerifyingReader.readAll_eq, flatten_cons,
      flatten_nil, append_nil, nil_append, true_and] at h
    by_cases heq : S.digestOf content = b.digest
    · rw [if_neg (not_not.mpr heq)] at h
      cases choice with
      | done => cases h; exact .ends (.stored heq)
      | fails => cases h; exact .ends (.putFails (by decide))
      | failsLate => cases h; exact .ends (.late heq)
    · rw [if_pos heq] at h
      cases choice with
      | done => cases h; exact .ends (.mismatch heq)
      | fails | failsLate => cases h; exact .ends (.putFails (by decide))

end steps

end Chicoree.Storage
