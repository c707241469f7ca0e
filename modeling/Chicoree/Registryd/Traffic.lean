import Mathlib.Tactic.Abel
import Chicoree.Lib.Buckets
import Chicoree.Lib.Machine
import Chicoree.Registryd.Store

/-! # Traffic accounting

`traffic/traffic.go` and `store/traffic.go`: byte counts are collected in memory under their
repository and day, and flushed to `repository_traffic` in batches. A flush takes all that is
pending, and merges it back where the database does not take it. -/

namespace Chicoree.Registryd.Traffic

open Transition Buckets List

/-! ## Counters -/

/-- The five counters, of one request or of a row. -/
structure Counters (α : Type) where
  /-- Bytes served by registryd. -/
  pullBytes : α
  /-- Bytes received. -/
  pushBytes : α
  /-- Blob size of GETs answered with a redirect to storage. -/
  redirectBytes : α
  blobPulls : α
  manifestPulls : α
deriving DecidableEq

namespace Counters

variable {α β : Type}

@[ext] theorem ext {a b : Counters α} (h₁ : a.pullBytes = b.pullBytes)
    (h₂ : a.pushBytes = b.pushBytes) (h₃ : a.redirectBytes = b.redirectBytes)
    (h₄ : a.blobPulls = b.blobPulls) (h₅ : a.manifestPulls = b.manifestPulls) : a = b := by
  cases a
  cases b
  simp_all

def map (f : α → β) (c : Counters α) : Counters β :=
  ⟨f c.pullBytes, f c.pushBytes, f c.redirectBytes, f c.blobPulls, f c.manifestPulls⟩

/-- All five counters meet a condition. -/
def All (P : α → Prop) (c : Counters α) : Prop :=
  P c.pullBytes ∧ P c.pushBytes ∧ P c.redirectBytes ∧ P c.blobPulls ∧ P c.manifestPulls

instance (P : α → Prop) [DecidablePred P] (c : Counters α) : Decidable (c.All P) :=
  inferInstanceAs (Decidable (_ ∧ _))

instance [Zero α] : Zero (Counters α) := ⟨⟨0, 0, 0, 0, 0⟩⟩

/-- `Delta.add`. -/
instance [Add α] : Add (Counters α) :=
  ⟨fun a b => ⟨a.pullBytes + b.pullBytes, a.pushBytes + b.pushBytes,
    a.redirectBytes + b.redirectBytes, a.blobPulls + b.blobPulls,
    a.manifestPulls + b.manifestPulls⟩⟩

instance [AddCommMonoid α] : AddCommMonoid (Counters α) where
  add_assoc a b c := Counters.ext (add_assoc _ _ _) (add_assoc _ _ _) (add_assoc _ _ _)
    (add_assoc _ _ _) (add_assoc _ _ _)
  zero_add a := Counters.ext (zero_add _) (zero_add _) (zero_add _) (zero_add _) (zero_add _)
  add_zero a := Counters.ext (add_zero _) (add_zero _) (add_zero _) (add_zero _) (add_zero _)
  add_comm a b := Counters.ext (add_comm _ _) (add_comm _ _) (add_comm _ _) (add_comm _ _)
    (add_comm _ _)
  nsmul := nsmulRec

end Counters

instance int64AddCommMonoid : AddCommMonoid Int64 where
  add_assoc := Int64.add_assoc
  zero_add := Int64.zero_add
  add_zero := Int64.add_zero
  add_comm := Int64.add_comm
  nsmul := nsmulRec

abbrev Delta := Counters Int64

abbrev Key := RepoId × String

structure Row where
  repositoryId : RepoId
  day : String
  delta : Delta

abbrev Pending := List (Key × Delta)

/-- `Add`, in the bucket of the day. -/
def addDelta (pending : Pending) (repo : RepoId) (day : String) (d : Delta) : Pending :=
  if repo = "" ∨ d = 0 then pending else add (repo, day) d pending

def batchRows (batch : Pending) : List Row := batch.map fun e => ⟨e.1.1, e.1.2, e.2⟩

/-! ## The table -/

/-- A row of `repository_traffic`; its columns are `bigint`. -/
structure TrafficRow where
  repositoryId : RepoId
  day : String
  counters : Counters Int

def TrafficRow.key (t : TrafficRow) : Key := (t.repositoryId, t.day)

structure TrafficDb where
  repositories : List RepoId := []
  traffic : List TrafficRow := []

/-- What a `bigint` column holds. -/
def isBigint (n : Int) : Prop := -2 ^ 63 ≤ n ∧ n < 2 ^ 63

instance : DecidablePred isBigint := fun _ => inferInstanceAs (Decidable (_ ∧ _))

namespace TrafficDb

/-- The counters that the insert, or the update in its place, writes. -/
def written (db : TrafficDb) (r : Row) : Counters Int :=
  let excluded := r.delta.map Int64.toInt
  match Table.find TrafficRow.key (r.repositoryId, r.day) db.traffic with
  | none => excluded
  | some row => row.counters + excluded

/-- One statement of the batch; a sum that is no `bigint` fails it. -/
def upsertRow (db : TrafficDb) (r : Row) : Option TrafficDb :=
  if r.repositoryId ∉ db.repositories then some db
  else if (db.written r).All isBigint then
    let row : TrafficRow := ⟨r.repositoryId, r.day, db.written r⟩
    some { db with traffic := Table.upsert TrafficRow.key row db.traffic }
  else none

/-- `UpsertTraffic`: all statements of the batch, or none. -/
def upsertTraffic (db : TrafficDb) (rows : List Row) : Option TrafficDb :=
  rows.foldlM upsertRow db

def recorded (db : TrafficDb) (k : Key) : Counters Int :=
  ((Table.find TrafficRow.key k db.traffic).map (·.counters)).getD 0

end TrafficDb

def credit (k : Key) (rows : List Row) : Counters Int :=
  amount k (rows.map fun r => ((r.repositoryId, r.day), r.delta.map Int64.toInt))

/-- The rows of repositories that exist have grown by exactly what the batch holds for them,
and no other row has changed. -/
structure Credited (db : TrafficDb) (rows : List Row) (db' : TrafficDb) : Prop where
  repositories : db'.repositories = db.repositories
  recorded : ∀ repo day, db'.recorded (repo, day) = db.recorded (repo, day) +
    if repo ∈ db.repositories then credit (repo, day) rows else 0

theorem written_eq (db : TrafficDb) (r : Row) :
    db.written r = db.recorded (r.repositoryId, r.day) + r.delta.map Int64.toInt := by
  unfold TrafficDb.written TrafficDb.recorded
  cases Table.find TrafficRow.key (r.repositoryId, r.day) db.traffic with
  | none => exact (zero_add _).symm
  | some row => rfl

variable {db db' : TrafficDb}

theorem upsertRow_credited {r : Row} (h : db.upsertRow r = some db') : Credited db [r] db' := by
  have hcredit (k : Key) : credit k [r] =
      if (r.repositoryId, r.day) = k then r.delta.map Int64.toInt else 0 := add_zero _
  unfold TrafficDb.upsertRow at h
  by_cases hrepo : r.repositoryId ∈ db.repositories
  · simp only [hrepo, not_true_eq_false, if_false] at h
    by_cases hfits : (db.written r).All isBigint
    · rw [if_pos hfits] at h
      cases h
      refine ⟨rfl, fun repo day => ?_⟩
      rw [hcredit]
      by_cases hk : (r.repositoryId, r.day) = (repo, day)
      · obtain ⟨rfl, rfl⟩ := Prod.mk.inj hk
        rw [if_pos hrepo, if_pos rfl, ← written_eq]
        have hself : Table.find TrafficRow.key (r.repositoryId, r.day)
            (Table.upsert TrafficRow.key ⟨r.repositoryId, r.day, db.written r⟩ db.traffic) =
            some ⟨r.repositoryId, r.day, db.written r⟩ :=
          @Table.find_upsert_self TrafficRow Key _ TrafficRow.key
            ⟨r.repositoryId, r.day, db.written r⟩ db.traffic
        show (Option.map (·.counters) (Table.find TrafficRow.key _ (Table.upsert _ _ _))).getD 0 = _
        rw [hself]
        rfl
      · have hother : Table.find TrafficRow.key (repo, day)
            (Table.upsert TrafficRow.key ⟨r.repositoryId, r.day, db.written r⟩ db.traffic) =
            Table.find TrafficRow.key (repo, day) db.traffic :=
          @Table.find_upsert_ne TrafficRow Key _ TrafficRow.key
            ⟨r.repositoryId, r.day, db.written r⟩ (repo, day) (fun heq => hk heq.symm) db.traffic
        rw [if_neg hk, ite_self, add_zero]
        show (Option.map (·.counters) (Table.find TrafficRow.key _ (Table.upsert _ _ _))).getD 0 = _
        rw [hother]
        rfl
    · rw [if_neg hfits] at h
      cases h
  · simp only [hrepo, not_false_eq_true, if_true, Option.some.injEq] at h
    subst h
    refine ⟨rfl, fun repo day => ?_⟩
    rw [hcredit]
    by_cases hk : (r.repositoryId, r.day) = (repo, day)
    · obtain ⟨rfl, rfl⟩ := Prod.mk.inj hk
      rw [if_neg hrepo, add_zero]
    · rw [if_neg hk, ite_self, add_zero]

variable {rows : List Row}

theorem Credited.trans {db₁ db₂ db₃ : TrafficDb} {rows' : List Row}
    (h : Credited db₁ rows db₂) (h' : Credited db₂ rows' db₃) :
    Credited db₁ (rows ++ rows') db₃ := by
  refine ⟨h'.repositories.trans h.repositories, fun repo day => ?_⟩
  rw [h'.recorded, h.recorded, h.repositories, add_assoc]
  by_cases hrepo : repo ∈ db₁.repositories
  · rw [if_pos hrepo, if_pos hrepo, if_pos hrepo]
    unfold credit
    rw [map_append, amount_append]
  · rw [if_neg hrepo, if_neg hrepo, if_neg hrepo, add_zero]

theorem upsertTraffic_credited (h : db.upsertTraffic rows = some db') : Credited db rows db' := by
  induction rows generalizing db with
  | nil =>
    cases h
    refine ⟨rfl, fun repo day => ?_⟩
    have hnone : credit (repo, day) [] = 0 := rfl
    rw [hnone, ite_self, add_zero]
  | cons r rows ih =>
    obtain ⟨db₁, h₁, h₂⟩ := Option.bind_eq_some_iff.mp
      (show (db.upsertRow r).bind (fun db => db.upsertTraffic rows) = some db' from h)
    exact (upsertRow_credited h₁).trans (ih h₂)

/-- The pending map and the table, with a record of the `Add` calls and of the batches that
the sink applied. -/
structure Shared where
  pending : Pending := []
  db : TrafficDb := {}
  added : Pending := []
  applied : Pending := []

/-- A flush between its lock releases. -/
inductive Flush where
  | take
  | sink (batch : Pending)
  | merge (batch : Pending)
  | done (ok : Bool)
deriving DecidableEq

/-- How the sink ends, and the order in which the entries of the batch are visited. -/
inductive Reply where
  | ok (order : Pending)
  | failed

def flushAct (s : Shared) (_ : Nat) : Flush → Reply → Option (Shared × Flush)
  | .take, _ =>
    if s.pending = [] then some (s, .done true)
    else some ({ s with pending := [] }, .sink s.pending)
  | .sink batch, .ok order =>
    if order.isPerm batch then
      match s.db.upsertTraffic (batchRows order) with
      | some db => some ({ s with db := db, applied := s.applied ++ batch }, .done true)
      | none => some (s, .merge batch)
    else none
  | .sink batch, .failed => some (s, .merge batch)
  | .merge batch, .ok order =>
    if order.isPerm batch then
      some ({ s with pending := merge s.pending order }, .done false)
    else none
  | .merge _, .failed => none
  | .done _, _ => none

/-- `Add` calls of the handlers, and repositories that come and go with their rows. -/
inductive Surroundings where
  | add (repo : RepoId) (day : String) (d : Delta)
  | createRepository (id : RepoId)
  | deleteRepository (id : RepoId)

def surroundings (s : Shared) : Surroundings → Option Shared
  | .add repo day d =>
    some { s with pending := addDelta s.pending repo day d
                  added := s.added ++ [((repo, day), d)] }
  | .createRepository id =>
    if id ∈ s.db.repositories then none
    else some { s with db := { s.db with repositories := s.db.repositories ++ [id] } }
  | .deleteRepository id =>
    some { s with db := ⟨s.db.repositories.filter fun r => decide (r ≠ id),
      s.db.traffic.filter fun t => decide (t.repositoryId ≠ id)⟩ }

def trafficProgram : Program Shared Flush Reply Surroundings where
  init s := s.pending = [] ∧ s.added = [] ∧ s.applied = []
  fresh t := decide (t = .take)
  act := flushAct
  env := surroundings

abbrev trafficRuns : Machine (Pool Shared Flush) (Move Flush Reply Surroundings) :=
  trafficProgram.machine

/-- What a flush has taken and neither written nor merged back. -/
def Flush.inFlight : Flush → Pending
  | .sink batch | .merge batch => batch
  | .take | .done _ => []

/-- For each repository and day, what was applied, what is in flight and what is pending make
up what was added. -/
def Conserved (p : Pool Shared Flush) : Prop :=
  ∀ repo day, repo ≠ "" → amount (repo, day) p.shared.applied +
      (p.tasks.map fun t => amount (repo, day) t.inFlight).sum +
      amount (repo, day) p.shared.pending =
    amount (repo, day) p.shared.added

/-! ### Steps -/

theorem amount_addDelta {pending : Pending} {repo : RepoId} {day : String} {d : Delta} {k : Key}
    (hk : k.1 ≠ "") : amount k (addDelta pending repo day d) =
      amount k pending + amount k [((repo, day), d)] := by
  have hone : amount k [((repo, day), d)] = if (repo, day) = k then d else 0 := add_zero _
  rw [hone]
  unfold addDelta
  by_cases hdropped : repo = "" ∨ d = 0
  · rw [if_pos hdropped]
    obtain rfl | rfl := hdropped
    · rw [if_neg fun heq => hk (congrArg Prod.fst heq).symm, add_zero]
    · rw [ite_self, add_zero]
  · rw [if_neg hdropped, amount_add]

variable {s' : Shared} {i : Nat} {t t' : Flush} {a : Reply}

theorem flushAct_shares {s : Shared} (h : flushAct s i t a = some (s', t')) (k : Key) :
    s'.added = s.added ∧ amount k s'.applied + amount k t'.inFlight +
          amount k s'.pending =
        amount k s.applied + amount k t.inFlight +
          amount k s.pending := by
  cases t with
  | take =>
    have hact : flushAct s i .take a = if s.pending = [] then some (s, .done true)
        else some ({ s with pending := [] }, .sink s.pending) := by
      cases a <;> rfl
    rw [hact] at h
    by_cases hempty : s.pending = []
    · rw [if_pos hempty] at h
      cases h
      exact ⟨rfl, rfl⟩
    · rw [if_neg hempty] at h
      cases h
      refine ⟨rfl, ?_⟩
      show _ + amount k s.pending + 0 = _ + 0 + amount k s.pending
      rw [add_zero, add_zero]
  | sink batch =>
    cases a with
    | failed =>
      cases h
      exact ⟨rfl, rfl⟩
    | ok order =>
      simp only [flushAct] at h
      split at h
      · split at h <;> cases h
        · refine ⟨rfl, ?_⟩
          show amount k (s.applied ++ batch) + 0 + _ = _ + amount k batch + _
          rw [amount_append, add_zero]
        · exact ⟨rfl, rfl⟩
      · cases h
  | merge batch =>
    cases a with
    | failed => cases h
    | ok order =>
      simp only [flushAct] at h
      split at h
      · rename_i horder
        cases h
        refine ⟨rfl, ?_⟩
        show _ + 0 + amount k (merge s.pending order) = _ + amount k batch + _
        rw [amount_merge, amount_perm (isPerm_iff.mp horder), add_zero,
          add_assoc, add_comm (amount k s.pending)]
      · cases h
  | done ok => cases a <;> cases h

variable {p : Pool Shared Flush}

theorem conserved_act (hp : Conserved p) (ht : p.tasks[i]? = some t)
    (h : flushAct p.shared i t a = some (s', t')) : Conserved ⟨s', p.tasks.set i t'⟩ := by
  intro repo day hrepo
  obtain ⟨hadded, hshares⟩ := flushAct_shares h (repo, day)
  obtain ⟨others, hbefore, hafter⟩ := sum_others (f := fun t => amount (repo, day) t.inFlight) ht
  have htotal := hp repo day hrepo
  rw [hbefore] at htotal
  show amount (repo, day) s'.applied +
    ((p.tasks.set i t').map fun t => amount (repo, day) t.inFlight).sum +
      amount (repo, day) s'.pending = amount (repo, day) s'.added
  rw [hafter, hadded, ← htotal]
  calc amount (repo, day) s'.applied +
        (others + amount (repo, day) t'.inFlight) +
        amount (repo, day) s'.pending
      = others + (amount (repo, day) s'.applied +
          amount (repo, day) t'.inFlight + amount (repo, day) s'.pending) := by
        abel
    _ = others + (amount (repo, day) p.shared.applied +
          amount (repo, day) t.inFlight +
          amount (repo, day) p.shared.pending) := by
        rw [hshares]
    _ = amount (repo, day) p.shared.applied +
          (others + amount (repo, day) t.inFlight) +
          amount (repo, day) p.shared.pending := by
        abel

theorem conserved_env (hp : Conserved p) {e : Surroundings}
    (h : surroundings p.shared e = some s') : Conserved ⟨s', p.tasks⟩ := by
  intro repo day hrepo
  have htotal := hp repo day hrepo
  cases e with
  | add repo' day' d =>
    cases h
    rw [amount_addDelta hrepo, amount_append, ← htotal]
    exact (add_assoc _ _ _).symm
  | createRepository id =>
    simp only [surroundings] at h
    split at h
    · cases h
    · cases h
      exact htotal
  | deleteRepository id =>
    cases h
    exact htotal

theorem conserved_run (h : trafficRuns.Reachable p) : Conserved p := by
  refine h.invariant ?_ fun p m p' _ hp _ hs => ?_
  · rintro ⟨s, ts⟩ ⟨⟨hpending, hadded, happlied⟩, hts⟩ repo day _
    subst hts
    have hnone : s.pending = [] ∧ s.added = [] ∧ s.applied = [] := ⟨hpending, hadded, happlied⟩
    show amount _ s.applied + 0 + amount _ s.pending = amount _ s.added
    rw [hnone.1, hnone.2.1, hnone.2.2, amount_nil, add_zero, add_zero]
  · have hstep : trafficProgram.step p m = some p' := hs
    obtain ⟨t, rfl, hfresh, rfl⟩ | ⟨i, a, t, s', t', rfl, ht, hact, rfl⟩ | ⟨e, s', rfl, he, rfl⟩ :=
      Program.step_cases hstep
    · -- a flush that starts has taken nothing
      obtain rfl : t = .take := of_decide_eq_true hfresh
      intro repo day hrepo
      have htotal := hp repo day hrepo
      rw [map_append, sum_append]
      show _ + (_ + (0 + 0)) + _ = _
      rw [add_zero, add_zero]
      exact htotal
    · exact conserved_act hp ht hact
    · exact conserved_env hp he

/-- Nothing is lost and nothing is counted twice; and a batch that the table takes goes to the
rows of the repositories that exist, and to no other. -/
theorem traffic_conserved {p : Pool Shared Flush} (h : trafficRuns.Reachable p) :
    Conserved p ∧ ∀ db rows db', TrafficDb.upsertTraffic db rows = some db' →
      Credited db rows db' :=
  ⟨conserved_run h, fun _ _ _ hrows => upsertTraffic_credited hrows⟩

/-- Bytes that come in while a flush fails, and a second flush beside it. -/
theorem traffic_conserved_retry : ∃ p, trafficRuns.Reachable p ∧
    p.shared.applied = [(("r1", "2026-03-01"), ⟨3, 0, 0, 1, 0⟩)] ∧
    p.shared.pending = [(("r1", "2026-03-01"), ⟨5, 0, 0, 1, 0⟩)] ∧
    p.shared.db.recorded ("r1", "2026-03-01") = ⟨3, 0, 0, 1, 0⟩ ∧ Conserved p := by
  obtain ⟨p, hp⟩ : ∃ p, trafficRuns.replay (fun _ _ => True)
      ⟨{ db := { repositories := ["r1"] } }, []⟩
      [.env (.add "r1" "2026-03-01" ⟨5, 0, 0, 1, 0⟩), .spawn .take, .act 0 .failed,
        .env (.add "r1" "2026-03-01" ⟨3, 0, 0, 1, 0⟩), .spawn .take, .act 0 .failed,
        .act 1 .failed, .act 0 (.ok [(("r1", "2026-03-01"), ⟨5, 0, 0, 1, 0⟩)]),
        .act 1 (.ok [(("r1", "2026-03-01"), ⟨3, 0, 0, 1, 0⟩)])] = some p := ⟨_, rfl⟩
  have hrun : trafficRuns.Reachable p := Machine.run_of_replay ⟨⟨rfl, rfl, rfl⟩, rfl⟩ hp
  refine ⟨p, hrun, ?_, ?_, ?_, (traffic_conserved hrun).1⟩
  · cases hp
    decide +kernel
  · cases hp
    decide +kernel
  · cases hp
    decide +kernel

end Chicoree.Registryd.Traffic
