import Chicoree.Lib.Machine
import Chicoree.Lib.Windows
import Chicoree.RateLimits.Form

/-! # The counters behind the limits

The table `rate_limit_counters` and everything that writes it: pulls counted and rows swept
by the replicas of registryd, API requests counted and rows pruned by the replicas of the web
application. A statement is one step; each replica has a clock of its own, and a call may
stand still between reading it and its statement. -/

namespace Chicoree.RateLimits

open Transition List
open Windows (Answer Tally truncate)

/-! ## The table -/

/-- A row of `rate_limit_counters`; times in columns are microseconds. -/
structure CounterRow where
  key : String
  windowStart : Int
  count : Int

def CounterRow.tally (r : CounterRow) : Tally Int := ⟨r.windowStart, r.count⟩

/-- The row a statement leaves, unless its `bigint` overflows. -/
def stored (rows : List CounterRow) (r : CounterRow) : Option (List CounterRow × CounterRow) :=
  if r.count ≤ maxInt64 then some (Table.upsert (·.key) r rows, r) else none

/-- `TakeRateLimit`: a later window restarts the count, an earlier one is counted in the
stored window. -/
def takeRateLimit (rows : List CounterRow) (key : String) (windowStart : Int) :
    Option (List CounterRow × CounterRow) :=
  stored rows <|
    match Table.find (·.key) key rows with
    | none => ⟨key, windowStart, 1⟩
    | some c => ⟨key, max c.windowStart windowStart,
        if c.windowStart < windowStart then 1 else c.count + 1⟩

/-- The statement of `checkApiRateLimit`: any other window restarts the count. -/
def countApiRequest (rows : List CounterRow) (key : String) (windowStart : Int) :
    Option (List CounterRow × CounterRow) :=
  stored rows <|
    match Table.find (·.key) key rows with
    | none => ⟨key, windowStart, 1⟩
    | some c => ⟨key, windowStart, if c.windowStart = windowStart then c.count + 1 else 1⟩

def sweepRateLimits (rows : List CounterRow) (cutoff : Int) : List CounterRow :=
  rows.filter fun r => !decide (r.windowStart < cutoff)

def hasPrefix (p s : String) : Bool := p.toList.isPrefixOf s.toList

def day : Int := 24 * 60 * 60 * 10 ^ 6

/-- The statement of `pruneOpportunistically`, with `now()` of the database. -/
def pruneApiCounters (rows : List CounterRow) (now : Int) : List CounterRow :=
  rows.filter fun r => !(hasPrefix "api|" r.key && decide (r.windowStart < now - day))

/-- A replica of registryd: its clock, in nanoseconds since 1970, and when it swept last. -/
structure Replica where
  now : Int
  lastSweep : Int

/-- A replica of the web application: its clock, in milliseconds since 1970, and when it
pruned last. -/
structure WebReplica where
  now : Int
  lastPrune : Int

/-- What an answer was given to, and the window it was counted in: kept for the proofs. -/
structure Given where
  key : String
  answer : Answer Int

structure Counters where
  rows : List CounterRow
  registryd : List Replica
  web : List WebReplica
  /-- The clock of the database, in microseconds. -/
  database : Int
  given : List Given
  /-- The cutoffs of the sweeps that have run, kept for the proofs. -/
  cutoffs : List Int

def Counters.log (s : Counters) (key : String) : List (Answer Int) :=
  (s.given.filter fun g => decide (g.key = key)).map (·.answer)

def Counters.tally (s : Counters) (key : String) : Option (Tally Int) :=
  (Table.find (·.key) key s.rows).map CounterRow.tally

/-- The statement of a call has run: the row it left is in the table, the answer given. -/
def Counters.answered (s : Counters) (rows : List CounterRow) (r : CounterRow) (allowed : Bool) :
    Counters :=
  { s with rows := rows, given := s.given ++ [⟨r.key, ⟨r.windowStart, allowed⟩⟩] }

def zeroToUnix : Int := 62135596800 * 10 ^ 9

/-- `Time.Truncate`. -/
def goTruncate (w t : Int) : Int := truncate w (t + zeroToUnix) - zeroToUnix

def column (t : Int) : Int := t / 1000

structure Decision where
  allowed : Bool
  limit : Limit
  remaining : Int
  reset : Int
deriving DecidableEq

inductive TakeError where
  /-- `ErrUnlimited`. -/
  | unlimited
  /-- The statement failed. -/
  | counter
deriving DecidableEq

inductive TakePc where
  | called
  | counting (start : Int)
  | done (r : Except TakeError Decision)
deriving DecidableEq

def Config.limit (cfg : Config) (anonymous : Bool) : Limit :=
  if anonymous then cfg.anonymous else cfg.authenticated

def counterKey (anonymous : Bool) (key : String) : String :=
  (if anonymous then "anon" else "auth") ++ "|" ++ key

inductive Reply where
  | ok
  | fails

/-- `Manager.Take` and `shared.take`, with the clock of the replica as `now`. -/
def takeAct (cfg : Config) (s : Counters) (replica : Nat) (anonymous : Bool) (key : String) :
    TakePc → Reply → Option (Counters × TakePc)
  | .called, _ =>
    match s.registryd[replica]? with
    | none => none
    | some r =>
      if (cfg.limit anonymous).isZero then some (s, .done (.error .unlimited))
      else some (s, .counting (goTruncate (cfg.limit anonymous).window r.now))
  | .counting start, .ok =>
    match takeRateLimit s.rows (counterKey anonymous key) (column start) with
    | none => some (s, .done (.error .counter))
    | some (rows, r) =>
      let limit := cfg.limit anonymous
      let allowed := decide (r.count ≤ limit.count)
      some (s.answered rows r allowed, .done (.ok
        ⟨allowed, limit, max 0 (limit.count - r.count), start + limit.window⟩))
  | .counting _, .fails => some (s, .done (.error .counter))
  | .done _, _ => none

inductive SweepPc where
  | called
  | deleting (cutoff : Int)
  | done
deriving DecidableEq

def Config.longest (cfg : Config) : Int := max cfg.anonymous.window cfg.authenticated.window

def sweepEvery : Int := 5 * minute

/-- `RunRateLimitReload`, the part that sweeps; `-2*window` is 64-bit arithmetic. -/
def sweepAct (cfg : Config) (s : Counters) (replica : Nat) :
    SweepPc → Reply → Option (Counters × SweepPc)
  | .called, _ =>
    match s.registryd[replica]? with
    | none => none
    | some r =>
      if r.now - r.lastSweep < sweepEvery then none
      else
        let s := { s with registryd := s.registryd.set replica ⟨r.now, r.now⟩ }
        if cfg.longest ≤ 0 then some (s, .done)
        else some (s, .deleting (column (r.now + int64 (-2 * cfg.longest))))
  | .deleting cutoff, .ok =>
    some ({ s with
      rows := sweepRateLimits s.rows cutoff
      cutoffs := s.cutoffs ++ [cutoff] }, .done)
  | .deleting _, .fails => some (s, .done)
  | .done, _ => none

/-! ## API requests -/

/-- `ApiCaller`, as far as the limit looks at it. -/
inductive ApiCaller where
  | anonymous
  | user (id : String) (isAdmin : Bool)
  | sa (id : String)

structure ApiLimits where
  anonymous : Option RateLimit
  authenticated : Option RateLimit

def ApiCaller.isExempt : ApiCaller → Bool
  | .user _ isAdmin => isAdmin
  | _ => false

def ApiLimits.limit (l : ApiLimits) : ApiCaller → Option RateLimit
  | .anonymous => l.anonymous
  | _ => l.authenticated

def keyFor (c : ApiCaller) (ip : Option String) : String :=
  match c with
  | .user id _ => "api|user:" ++ id
  | .sa id => "api|sa:" ++ id
  | .anonymous => "api|ip:" ++ ip.getD "unknown"

inductive ApiResult where
  /-- No limit applies. -/
  | unlimited
  | counted (limit : RateLimit) (count resetAt : Int)
  /-- 429, with what it says. -/
  | rateLimited (limit : RateLimit) (resetAt retryAfter : Int)
  | failed
deriving DecidableEq

inductive ApiPc where
  | called
  | counting (limit : RateLimit) (windowSeconds windowStart : Int)
  /-- Answered, with the prune still to run. -/
  | pruning (r : ApiResult)
  | done (r : ApiResult)
deriving DecidableEq

def apiResult (limit : RateLimit) (count resetAt now : Int) : ApiResult :=
  if (limit.count : Int) < count then .rateLimited limit resetAt (max 1 (resetAt - now / 1000))
  else .counted limit count resetAt

/-- `checkApiRateLimit`. A window without end gives no timestamp. -/
def apiAct (limits : ApiLimits) (s : Counters) (replica : Nat) (c : ApiCaller)
    (ip : Option String) : ApiPc → Reply → Option (Counters × ApiPc)
  | .called, _ =>
    match s.web[replica]? with
    | none => none
    | some r =>
      if c.isExempt then some (s, .done .unlimited)
      else
        match limits.limit c with
        | none => some (s, .done .unlimited)
        | some limit =>
          match limit.windowSeconds with
          | .infinity => some (s, .done .failed)
          | .finite w => some (s, .counting limit w (r.now / 1000 / w * w))
  | .counting limit w start, .ok =>
    match s.web[replica]? with
    | none => none
    | some web =>
      match countApiRequest s.rows (keyFor c ip) (start * 10 ^ 6) with
      | none => some (s, .done .failed)
      | some (rows, r) =>
        let result := apiResult limit r.count (start + w) web.now
        let s := s.answered rows r (decide (r.count ≤ limit.count))
        -- once an hour the rows are pruned, and nobody waits for it
        if web.now - web.lastPrune < 3600000 then some (s, .done result)
        else some ({ s with web := s.web.set replica ⟨web.now, web.now⟩ }, .pruning result)
  | .counting _ _ _, .fails => some (s, .done .failed)
  | .pruning r, .ok => some ({ s with rows := pruneApiCounters s.rows s.database }, .done r)
  | .pruning r, .fails => some (s, .done r)
  | .done _, _ => none

inductive Task where
  | take (replica : Nat) (anonymous : Bool) (key : String) (pc : TakePc)
  | sweep (replica : Nat) (pc : SweepPc)
  | api (replica : Nat) (c : ApiCaller) (ip : Option String) (pc : ApiPc)

def Task.fresh : Task → Bool
  | .take _ _ _ pc => decide (pc = .called)
  | .sweep _ pc => decide (pc = .called)
  | .api _ _ _ pc => decide (pc = .called)

def taskAct (cfg : Config) (limits : ApiLimits) (s : Counters) (_ : Nat) :
    Task → Reply → Option (Counters × Task)
  | .take replica anonymous key pc, a =>
    (takeAct cfg s replica anonymous key pc a).map fun (s', pc') =>
      (s', .take replica anonymous key pc')
  | .sweep replica pc, a =>
    (sweepAct cfg s replica pc a).map fun (s', pc') => (s', .sweep replica pc')
  | .api replica c ip pc, a =>
    (apiAct limits s replica c ip pc a).map fun (s', pc') => (s', .api replica c ip pc')

inductive Tick where
  | registryd (replica : Nat) (now : Int)
  | web (replica : Nat) (now : Int)
  | database (now : Int)

def tick (s : Counters) : Tick → Option Counters
  | .registryd i now =>
    match s.registryd[i]? with
    | none => none
    | some r => some { s with registryd := s.registryd.set i ⟨now, r.lastSweep⟩ }
  | .web i now =>
    match s.web[i]? with
    | none => none
    | some r => some { s with web := s.web.set i ⟨now, r.lastPrune⟩ }
  | .database now => some { s with database := now }

/-- Nothing is counted; a replica of registryd counts its pause from its start. -/
def Counters.initial (s : Counters) : Prop :=
  s.rows = [] ∧ s.given = [] ∧ s.cutoffs = [] ∧ (∀ r ∈ s.registryd, r.lastSweep = r.now) ∧
    ∀ r ∈ s.web, r.lastPrune = 0

def counterProgram (cfg : Config) (limits : ApiLimits) : Program Counters Task Reply Tick where
  init := Counters.initial
  fresh := Task.fresh
  act := taskAct cfg limits
  env := tick

/-! ## What a step does to the counters

One case for each statement; from it, what a step does to the tally of one key and to the
answers given to it. -/

open Windows (Answer Tally Ledger)

variable {cfg : Config} {limits : ApiLimits} {s s' : Counters} {t t' : Task} {a : Reply}
  {i : Nat} {k : String}

/-! ## The statements -/

variable {rows : List CounterRow} {r : CounterRow}

variable {rows' : List CounterRow}

theorem stored_some {r' : CounterRow}
    (h : stored rows r = some (rows', r')) : r' = r ∧ rows' = Table.upsert (·.key) r rows := by
  unfold stored at h
  split at h
  · cases h
    exact ⟨rfl, rfl⟩
  · cases h

/-- What `TakeRateLimit` leaves of a tally. -/
def taken (c : Option (Tally Int)) (windowStart : Int) : Tally Int :=
  match c with
  | none => ⟨windowStart, 1⟩
  | some c => if c.start < windowStart then ⟨windowStart, 1⟩ else ⟨c.start, c.count + 1⟩

def requested (c : Option (Tally Int)) (windowStart : Int) : Tally Int :=
  match c with
  | none => ⟨windowStart, 1⟩
  | some c => if c.start = windowStart then ⟨windowStart, c.count + 1⟩ else ⟨windowStart, 1⟩

variable {w : Int}

theorem takeRateLimit_some (h : takeRateLimit rows k w = some (rows', r)) :
    rows' = Table.upsert (·.key) r rows ∧ r.key = k ∧
      r.tally = taken ((Table.find (·.key) k rows).map CounterRow.tally) w := by
  obtain ⟨rfl, hrows⟩ := stored_some h
  refine ⟨hrows, ?_⟩
  cases Table.find (·.key) k rows with
  | none => exact ⟨rfl, rfl⟩
  | some c =>
    refine ⟨rfl, ?_⟩
    show (⟨max c.windowStart w, if c.windowStart < w then 1 else c.count + 1⟩ : Tally Int) =
      if c.windowStart < w then _ else _
    by_cases hlt : c.windowStart < w
    · rw [if_pos hlt, if_pos hlt, max_eq_right hlt.le]
    · rw [if_neg hlt, if_neg hlt, max_eq_left (by omega)]
      rfl

theorem countApiRequest_some (h : countApiRequest rows k w = some (rows', r)) :
    rows' = Table.upsert (·.key) r rows ∧ r.key = k ∧
      r.tally = requested ((Table.find (·.key) k rows).map CounterRow.tally) w := by
  obtain ⟨rfl, hrows⟩ := stored_some h
  refine ⟨hrows, ?_⟩
  cases Table.find (·.key) k rows with
  | none => exact ⟨rfl, rfl⟩
  | some c =>
    refine ⟨rfl, ?_⟩
    show (⟨w, if c.windowStart = w then c.count + 1 else 1⟩ : Tally Int) =
      if c.windowStart = w then _ else _
    by_cases heq : c.windowStart = w
    · rw [if_pos heq, if_pos heq]
      rfl
    · rw [if_neg heq, if_neg heq]

variable {allowed : Bool}

theorem tally_answered (hrows : rows = Table.upsert (·.key) r s.rows) :
    (s.answered rows r allowed).tally k = if r.key = k then some r.tally else s.tally k := by
  subst hrows
  show (Table.find _ k (Table.upsert _ r s.rows)).map _ = _
  split
  · rename_i hk
    subst hk
    rw [Table.find_upsert_self]
    rfl
  · rename_i hk
    rw [Table.find_upsert_ne (Ne.symm hk)]
    rfl

theorem log_answered : (s.answered rows r allowed).log k =
      if r.key = k then s.log k ++ [⟨r.windowStart, allowed⟩] else s.log k := by
  show ((s.given ++ [_]).filter _).map _ = _
  rw [filter_append, map_append]
  split
  · rename_i hk
    simp [Counters.log, hk]
  · rename_i hk
    simp [Counters.log, hk]

variable {p : CounterRow → Bool}

theorem tally_filter (hkeyed : Table.Keyed (·.key) s.rows) (hrows : rows = s.rows.filter p)
    (hs : s'.rows = rows) :
    s'.tally k = ((Table.find (·.key) k s.rows).filter p).map CounterRow.tally := by
  unfold Counters.tally
  rw [hs, hrows, Table.find_filter hkeyed]

theorem log_of_given (h : s'.given = s.given) : s'.log k = s.log k := by
  unfold Counters.log
  rw [h]

theorem tally_of_rows (h : s'.rows = s.rows) : s'.tally k = s.tally k := by
  unfold Counters.tally
  rw [h]

theorem ledger_filter {limit : Int}
    (hkeyed : Table.Keyed (·.key) s.rows) (h : Ledger limit (s.tally k) (s.log k))
    (hrows : s'.rows = s.rows.filter p) (hgiven : s'.given = s.given) :
    Ledger limit (s'.tally k) (s'.log k) := by
  rw [tally_filter hkeyed rfl hrows, log_of_given hgiven]
  cases hf : Table.find (·.key) k s.rows with
  | none => exact h.drop
  | some c =>
    by_cases hp : p c = true
    · rw [Option.filter_some, if_pos hp]
      unfold Counters.tally at h
      rw [hf] at h
      exact h
    · rw [Option.filter_some, if_neg hp]
      exact h.drop

theorem tally_other
    (hrows : rows = Table.upsert (·.key) r s.rows) (hr : r.key ≠ k) (hs : s'.rows = rows) :
    s'.tally k = s.tally k := by
  have hanswered : s'.rows = (s.answered rows r true).rows := hs
  rw [tally_of_rows hanswered, tally_answered hrows, if_neg hr]

theorem log_other (hr : r.key ≠ k)
    (hgiven : s'.given = (s.answered rows r allowed).given) : s'.log k = s.log k := by
  rw [log_of_given hgiven, log_answered, if_neg hr]

/-! ## Calls and statements -/

def Counters.clocks (s : Counters) : List Int := s.registryd.map (·.now)

def Task.cutoff : Task → Option Int
  | .sweep _ (.deleting cutoff) => some cutoff
  | _ => none

inductive TaskStep (cfg : Config) (limits : ApiLimits) (s : Counters) (t : Task)
    (s' : Counters) (t' : Task) : Prop where
  | silent (rows : s'.rows = s.rows) (given : s'.given = s.given)
      (cutoffs : s'.cutoffs = s.cutoffs) (clocks : s'.clocks = s.clocks)
      (cutoff : ∀ x, t'.cutoff = some x →
        ∃ now ∈ s.clocks, x = column (now + int64 (-2 * cfg.longest)))
  | pull (replica : Nat) (anonymous : Bool) (key : String) (start : Int)
      (rows : List CounterRow) (r : CounterRow)
      (task : t = .take replica anonymous key (.counting start))
      (ends : t'.cutoff = none)
      (statement : takeRateLimit s.rows (counterKey anonymous key) (column start) = some (rows, r))
      (state : s' = s.answered rows r (decide (r.count ≤ (cfg.limit anonymous).count)))
  | sweep (replica : Nat) (cutoff : Int)
      (task : t = .sweep replica (.deleting cutoff)) (ends : t'.cutoff = none)
      (state : s' = { s with
        rows := sweepRateLimits s.rows cutoff
        cutoffs := s.cutoffs ++ [cutoff] })
  | request (replica : Nat) (c : ApiCaller) (ip : Option String) (limit : RateLimit)
      (w start : Int) (rows : List CounterRow) (r : CounterRow) (web : List WebReplica)
      (task : t = .api replica c ip (.counting limit w start))
      (ends : t'.cutoff = none)
      (statement : countApiRequest s.rows (keyFor c ip) (start * 10 ^ 6) = some (rows, r))
      (state : s' = { s.answered rows r (decide (r.count ≤ limit.count)) with web := web })
  | prune (ends : t'.cutoff = none)
      (state : s' = { s with rows := pruneApiCounters s.rows s.database })

theorem taskAct_step (h : taskAct cfg limits s i t a = some (s', t')) :
    TaskStep cfg limits s t s' t' := by
  have hsilent : s' = s → t'.cutoff = none → TaskStep cfg limits s t s' t' := by
    rintro rfl hnone
    exact .silent rfl rfl rfl rfl fun x hx => by cases hnone.symm.trans hx
  cases t with
  | take replica anonymous key pc =>
    obtain ⟨⟨s', pc'⟩, hc, ⟨⟩⟩ := Option.map_eq_some_iff.mp h
    cases pc with
    | called =>
      simp only [takeAct] at hc
      split at hc
      · cases hc
      · split at hc <;> cases hc <;> exact hsilent rfl rfl
    | counting start =>
      cases a with
      | fails =>
        cases hc
        exact hsilent rfl rfl
      | ok =>
        simp only [takeAct] at hc
        split at hc
        · cases hc
          exact hsilent rfl rfl
        · rename_i rows r hstatement
          cases hc
          exact .pull replica anonymous key start rows r rfl rfl hstatement rfl
    | done r => cases hc
  | sweep replica pc =>
    obtain ⟨⟨s', pc'⟩, hc, ⟨⟩⟩ := Option.map_eq_some_iff.mp h
    cases pc with
    | called =>
      simp only [sweepAct] at hc
      split at hc
      · cases hc
      · rename_i r hr
        have hmem : r.now ∈ s.clocks := mem_map.mpr ⟨r, mem_of_getElem? hr, rfl⟩
        have hclocks : ((s.registryd.set replica ⟨r.now, r.now⟩).map (·.now)) = s.clocks := by
          obtain ⟨hlt, hget⟩ := List.getElem?_eq_some_iff.mp hr
          unfold Counters.clocks
          rw [map_set]
          refine ext_getElem (by simp) fun j hj _ => ?_
          rw [getElem_set]
          split
          · rename_i hij
            subst hij
            rw [getElem_map, hget]
          · rfl
        split at hc
        · cases hc
        · split at hc <;> cases hc
          · exact .silent rfl rfl rfl hclocks nofun
          · exact .silent rfl rfl rfl hclocks fun x hx => ⟨r.now, hmem, by cases hx; rfl⟩
    | deleting cutoff =>
      cases a with
      | fails =>
        cases hc
        exact hsilent rfl rfl
      | ok =>
        cases hc
        exact .sweep replica cutoff rfl rfl rfl
    | done => cases hc
  | api replica c ip pc =>
    obtain ⟨⟨s', pc'⟩, hc, ⟨⟩⟩ := Option.map_eq_some_iff.mp h
    cases pc with
    | called =>
      simp only [apiAct] at hc
      repeat' split at hc
      all_goals cases hc
      all_goals exact hsilent rfl rfl
    | counting limit w start =>
      cases a with
      | fails =>
        cases hc
        exact hsilent rfl rfl
      | ok =>
        simp only [apiAct] at hc
        split at hc
        · cases hc
        · split at hc
          · cases hc
            exact hsilent rfl rfl
          · rename_i rows r hstatement
            split at hc <;> cases hc <;>
              exact .request replica c ip limit w start rows r _ rfl rfl hstatement rfl
    | pruning r =>
      cases a with
      | fails =>
        cases hc
        exact hsilent rfl rfl
      | ok =>
        cases hc
        exact .prune rfl rfl
    | done r => cases hc

theorem taskAct_keyed (hkeyed : Table.Keyed (·.key) s.rows)
    (h : taskAct cfg limits s i t a = some (s', t')) : Table.Keyed (·.key) s'.rows := by
  cases taskAct_step (i := i) h with
  | silent rows => exact rows ▸ hkeyed
  | pull replica anonymous key start rows r task ends statement state =>
    subst state
    rw [(takeRateLimit_some statement).1]
    exact hkeyed.upsert r
  | sweep replica cutoff task ends state | prune ends state =>
    subst state
    exact hkeyed.filter _
  | request replica c ip limit w start rows r web task ends statement state =>
    subst state
    rw [(countApiRequest_some statement).1]
    exact hkeyed.upsert r

theorem keyFor_api (c : ApiCaller) (ip : Option String) : hasPrefix "api|" (keyFor c ip) = true := by
  cases c <;> simp [keyFor, hasPrefix, String.toList_append, List.isPrefixOf]

theorem counterKey_not_api (anonymous : Bool) (key : String) :
    hasPrefix "api|" (counterKey anonymous key) = false := by
  cases anonymous <;> simp [counterKey, hasPrefix, String.toList_append, List.isPrefixOf]

theorem counterKey_ne_keyFor (anonymous : Bool) (key : String) (c : ApiCaller)
    (ip : Option String) : keyFor c ip ≠ counterKey anonymous key := by
  intro h
  have := keyFor_api c ip
  rw [h, counterKey_not_api] at this
  cases this

end Chicoree.RateLimits
