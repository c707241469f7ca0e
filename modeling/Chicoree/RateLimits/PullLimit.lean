import Chicoree.RateLimits.Counters

/-! # The shared pull limit

Replicas of registryd whose clocks are monotone and apart by less than a window: a Take whose
upsert finds no later cutoff behind it is counted, so that no stored window admits more than
the limit. -/

namespace Chicoree.RateLimits

open List
open Transition
open Windows (Answer Tally Ledger allowedIn)

variable {cfg : Config} {limits : ApiLimits} {skew : Int} {s s' : Counters} {t t' : Task}
  {a : Reply} {i : Nat} {anonymous : Bool} {key : String} {k : String}

/-! ## Clocks -/

/-- Any two clocks are apart by less than `skew`. -/
def inSync (skew : Int) (clocks : List Int) : Bool :=
  clocks.all fun x => clocks.all fun y => decide (x < y + skew)

/-- The clock of a replica of registryd goes forward, and stays near the others. -/
def pullTick (skew : Int) (s : Counters) : Tick → Option Counters
  | .registryd i now =>
    match s.registryd[i]? with
    | none => none
    | some r =>
      if r.now ≤ now ∧ inSync skew (s.clocks.set i now) then tick s (.registryd i now) else none
  | e => tick s e

def pullProgram (cfg : Config) (limits : ApiLimits) (skew : Int) :
    Program Counters Task Reply Tick :=
  { counterProgram cfg limits with
    init := fun s => s.initial ∧ inSync skew s.clocks = true
    env := pullTick skew }

/-- The pulls of one class of clients: clocks are apart by less than its window. -/
abbrev pulls (cfg : Config) (limits : ApiLimits) (anonymous : Bool) :
    Machine (Pool Counters Task) (Move Task Reply Tick) :=
  (pullProgram cfg limits (cfg.limit anonymous).window).machine

/-! ## The condition -/

/-- Twice the longer window is a 64-bit duration, and the clock of the replica has not left
the window that the Take has computed. -/
def inWindow (cfg : Config) (s : Counters) (replica : Nat) (anonymous : Bool) (start : Int) :
    Bool :=
  decide (cfg.longest ≤ 2 ^ 62) &&
    (s.registryd[replica]?).any fun r => decide (r.now < start + (cfg.limit anonymous).window)

def notSwept (s : Counters) (start : Int) : Bool :=
  s.cutoffs.all fun x => decide (x ≤ column start)

def prompt (cfg : Config) (k : String) (p : Pool Counters Task) :
    Move Task Reply Tick → Bool
  | .act i _ =>
    match p.tasks[i]? with
    | some (.take replica anonymous key (.counting start)) =>
      counterKey anonymous key != k || inWindow cfg p.shared replica anonymous start ||
        notSwept p.shared start
    | _ => true
  | _ => true

/-- **The condition on a step**: the upsert of a Take of the key runs while the clock of its
replica is in the window that the Take has computed, and twice the longer window is a 64-bit
duration; or at least no sweep that has run had a cutoff behind the start of that window. -/
abbrev Prompt (cfg : Config) (k : String) (p : Pool Counters Task) (m : Move Task Reply Tick) :
    Prop :=
  prompt cfg k p m = true

/-- A cutoff is two windows behind every clock, up to the skew. -/
def Behind (cfg : Config) (skew : Int) (clocks : List Int) (x : Int) : Prop :=
  cfg.longest ≤ 2 ^ 62 → ∀ now ∈ clocks, x ≤ column (now + skew - 2 * cfg.longest)

variable {x : Int}

theorem column_mono {y : Int} (h : x ≤ y) : column x ≤ column y :=
  Int.ediv_le_ediv (by decide) h

variable {clocks : List Int}

theorem inSync_iff : inSync skew clocks = true ↔ ∀ x ∈ clocks, ∀ y ∈ clocks, x < y + skew := by
  simp [inSync]

theorem int64_double {w : Int} (h : w ≤ 2 ^ 62) (hpos : 0 ≤ w) : int64 (-2 * w) = -2 * w := by
  unfold int64
  rw [Int.bmod_eq_of_le] <;> omega

variable {now : Int} {rows : List CounterRow}

theorem Behind.computed (hsync : inSync skew clocks = true)
    (hnow : now ∈ clocks) (hpos : 0 ≤ cfg.longest) :
    Behind cfg skew clocks (column (now + int64 (-2 * cfg.longest))) := by
  intro hfits other hother
  rw [int64_double hfits hpos]
  have hlt := inSync_iff.mp hsync now hnow other hother
  apply column_mono
  omega

theorem Behind.forward {old : Int} (h : Behind cfg skew clocks x)
    (hold : clocks[i]? = some old) (hle : old ≤ now) : Behind cfg skew (clocks.set i now) x := by
  intro hfits other hother
  rcases mem_or_eq_of_mem_set hother with hother | rfl
  · exact h hfits other hother
  · refine Int.le_trans (h hfits old (mem_of_getElem? hold)) (column_mono ?_)
    omega

theorem notSwept_of_inWindow {replica : Nat} {start : Int}
    (hbehind : ∀ x ∈ s.cutoffs, Behind cfg (cfg.limit anonymous).window s.clocks x)
    (hin : inWindow cfg s replica anonymous start = true) : notSwept s start = true := by
  simp only [inWindow, Bool.and_eq_true, decide_eq_true_eq, Option.any_eq_true] at hin
  obtain ⟨hfits, r, hr, hlt⟩ := hin
  have hmem : r.now ∈ s.clocks := mem_map.mpr ⟨r, mem_of_getElem? hr, rfl⟩
  have hlonger : (cfg.limit anonymous).window ≤ cfg.longest := by
    cases anonymous
    · exact le_max_right _ _
    · exact le_max_left _ _
  refine all_eq_true.mpr fun x hx => decide_eq_true ?_
  refine Int.le_trans (hbehind x hx hfits r.now hmem) (column_mono ?_)
  omega

/-! ## The invariant -/

/-- What holds of the counter of a key in every state. -/
structure Fair (cfg : Config) (anonymous : Bool) (key : String) (s : Counters) : Prop where
  keyed : Table.Keyed (·.key) s.rows
  ledger : Ledger ((cfg.limit anonymous).count.toNat : Int)
    (s.tally (counterKey anonymous key)) (s.log (counterKey anonymous key))
  swept : s.tally (counterKey anonymous key) = none →
    ∀ e ∈ s.log (counterKey anonymous key), ∃ x ∈ s.cutoffs, e.window < x
  behind : ∀ x ∈ s.cutoffs, Behind cfg (cfg.limit anonymous).window s.clocks x
  sync : inSync (cfg.limit anonymous).window s.clocks = true

def Task.Limited (cfg : Config) : Task → Prop
  | .take _ anonymous _ (.counting _) => (cfg.limit anonymous).isZero = false
  | _ => True

/-- What is known of a Take that has still to count, and of a sweep that has still to
delete. -/
structure PullTaskOk (cfg : Config) (anonymous : Bool) (s : Counters) (_ : Nat) (t : Task) :
    Prop where
  limited : t.Limited cfg
  behind : ∀ x, t.cutoff = some x → Behind cfg (cfg.limit anonymous).window s.clocks x

theorem Fair.same (h : Fair cfg anonymous key s) (hrows : s'.rows = s.rows)
    (hgiven : s'.given = s.given) (hcutoffs : s'.cutoffs = s.cutoffs)
    (hbehind : ∀ x ∈ s.cutoffs, Behind cfg (cfg.limit anonymous).window s'.clocks x)
    (hsync : inSync (cfg.limit anonymous).window s'.clocks = true) :
    Fair cfg anonymous key s' where
  keyed := hrows ▸ h.keyed
  ledger := by
    rw [tally_of_rows hrows, log_of_given hgiven]
    exact h.ledger
  swept := by
    rw [tally_of_rows hrows, log_of_given hgiven, hcutoffs]
    exact h.swept
  behind := hcutoffs ▸ hbehind
  sync := hsync

theorem Fair.take {r : CounterRow} {start : Int} (h : Fair cfg anonymous key s)
    (hcount : 0 < (cfg.limit anonymous).count) (hswept : notSwept s start = true)
    (hstatement : takeRateLimit s.rows (counterKey anonymous key) (column start) = some (rows, r)) :
    Ledger ((cfg.limit anonymous).count.toNat : Int) (some r.tally)
      (s.log (counterKey anonymous key) ++
        [⟨r.windowStart, decide (r.count ≤ (cfg.limit anonymous).count)⟩]) := by
  have hlimit : ((cfg.limit anonymous).count.toNat : Int) = (cfg.limit anonymous).count :=
    Int.toNat_of_nonneg (by omega)
  have hledger := h.ledger
  rw [hlimit] at hledger ⊢
  obtain ⟨-, -, htally⟩ := takeRateLimit_some hstatement
  have hr : (⟨r.windowStart, decide (r.count ≤ (cfg.limit anonymous).count)⟩ : Answer Int) =
      ⟨r.tally.start, decide (r.tally.count ≤ (cfg.limit anonymous).count)⟩ := rfl
  rw [hr, htally]
  change Ledger _ (some (taken (s.tally _) _)) (_ ++ [⟨(taken (s.tally _) _).start,
    decide ((taken (s.tally _) _).count ≤ _)⟩])
  cases hstored : s.tally (counterKey anonymous key) with
  | none =>
    -- the row was swept, and the cutoff is not behind the start
    refine hledger.restart fun e he => ?_
    obtain ⟨x, hx, hlt⟩ := h.swept hstored e he
    have hle : x ≤ column start := of_decide_eq_true (all_eq_true.mp hswept x hx)
    exact Int.lt_of_lt_of_le hlt hle
  | some c =>
    rw [hstored] at hledger
    unfold taken
    by_cases hlt : c.start < column start
    · simp only [if_pos hlt]
      exact hledger.restart fun e he => Int.lt_of_le_of_lt (hledger.last c rfl e he) hlt
    · simp only [if_neg hlt]
      exact hledger.add

theorem Fair.delete {p : CounterRow → Bool} {cutoffs : List Int} (h : Fair cfg anonymous key s)
    (hrows : s'.rows = s.rows.filter p) (hgiven : s'.given = s.given)
    (hcutoffs : s'.cutoffs = s.cutoffs ++ cutoffs) (hclocks : s'.clocks = s.clocks)
    (hdeleted : ∀ c, c.key = counterKey anonymous key → p c = false →
      ∃ x ∈ cutoffs, c.windowStart < x)
    (hbehind : ∀ x ∈ cutoffs, Behind cfg (cfg.limit anonymous).window s.clocks x) :
    Fair cfg anonymous key s' := by
  have htally := tally_filter (k := counterKey anonymous key) h.keyed rfl hrows
  have hlog : s'.log (counterKey anonymous key) = s.log (counterKey anonymous key) :=
    log_of_given hgiven
  refine ⟨hrows ▸ h.keyed.filter p, ledger_filter h.keyed h.ledger hrows hgiven, ?_, ?_,
    hclocks ▸ h.sync⟩
  · rw [htally, hlog, hcutoffs]
    intro hnone e he
    cases hf : Table.find (·.key) (counterKey anonymous key) s.rows with
    | none =>
      have hempty : s.tally (counterKey anonymous key) = none := by
        unfold Counters.tally
        rw [hf]
        rfl
      obtain ⟨x, hx, hlt⟩ := h.swept hempty e he
      exact ⟨x, mem_append_left _ hx, hlt⟩
    | some c =>
      have hstored : s.tally (counterKey anonymous key) = some c.tally := by
        unfold Counters.tally
        rw [hf]
        rfl
      have hp : p c = false := by
        rw [hf, Option.filter_some] at hnone
        by_cases hp : p c = true
        · rw [if_pos hp] at hnone
          cases hnone
        · simpa using hp
      obtain ⟨x, hx, hlt⟩ := hdeleted c (Table.find_some hf).2 hp
      have hlast : e.window ≤ c.windowStart := h.ledger.last c.tally hstored e he
      exact ⟨x, mem_append_right _ hx, Int.lt_of_le_of_lt hlast hlt⟩
  · intro x hx
    rw [hcutoffs] at hx
    rw [hclocks]
    rcases mem_append.mp hx with hx | hx
    · exact h.behind x hx
    · exact hbehind x hx

theorem Fair.other {r : CounterRow} {allowed : Bool} (h : Fair cfg anonymous key s)
    (hrows : rows = Table.upsert (·.key) r s.rows) (hr : r.key ≠ counterKey anonymous key)
    (hs : s'.rows = (s.answered rows r allowed).rows)
    (hgiven : s'.given = (s.answered rows r allowed).given) (hcutoffs : s'.cutoffs = s.cutoffs)
    (hclocks : s'.clocks = s.clocks) : Fair cfg anonymous key s' := by
  have htally := tally_other hrows hr hs
  have hlog := log_other hr hgiven
  refine ⟨?_, ?_, ?_, ?_, hclocks ▸ h.sync⟩
  · rw [hs]
    exact hrows ▸ h.keyed.upsert r
  · rw [htally, hlog]
    exact h.ledger
  · rw [htally, hlog, hcutoffs]
    exact h.swept
  · rw [hcutoffs, hclocks]
    exact h.behind

/-! ## The steps -/

theorem taskAct_limited (h : taskAct cfg limits s i t a = some (s', t')) : t'.Limited cfg := by
  cases t with
  | take replica anonymous key pc =>
    obtain ⟨⟨s', pc'⟩, hc, ⟨⟩⟩ := Option.map_eq_some_iff.mp h
    cases pc with
    | called =>
      simp only [takeAct] at hc
      split at hc
      · cases hc
      · split at hc
        · cases hc
          trivial
        · rename_i hlimited
          cases hc
          simpa [Task.Limited] using hlimited
    | counting start =>
      cases a with
      | fails =>
        cases hc
        trivial
      | ok =>
        simp only [takeAct] at hc
        split at hc <;> cases hc <;> trivial
    | done r => cases hc
  | sweep replica pc | api replica c ip pc =>
    obtain ⟨⟨s', pc'⟩, -, ⟨⟩⟩ := Option.map_eq_some_iff.mp h
    trivial

theorem count_pos (h : (cfg.limit anonymous).isZero = false) : 0 < (cfg.limit anonymous).count := by
  simp only [Limit.isZero, Bool.or_eq_false_iff, decide_eq_false_iff_not] at h
  omega

theorem cutoff_window (h : taskAct cfg limits s i t a = some (s', t'))
    (hx : t'.cutoff = some x) : 0 ≤ cfg.longest := by
  cases t with
  | take replica anonymous key pc | api replica c ip pc =>
    obtain ⟨⟨s', pc'⟩, -, ⟨⟩⟩ := Option.map_eq_some_iff.mp h
    cases hx
  | sweep replica pc =>
    obtain ⟨⟨s', pc'⟩, hc, ⟨⟩⟩ := Option.map_eq_some_iff.mp h
    cases pc with
    | called =>
      simp only [sweepAct] at hc
      split at hc
      · cases hc
      · split at hc
        · cases hc
        · split at hc
          · cases hc
            cases hx
          · omega
    | deleting cutoff => cases a <;> cases hc <;> cases hx
    | done => cases hc

theorem Prompt.act {p : Pool Counters Task} (h : Prompt cfg k p (.act i a))
    {replica : Nat} {start : Int}
    (ht : p.tasks[i]? = some (.take replica anonymous key (.counting start)))
    (hk : counterKey anonymous key = k) :
    inWindow cfg p.shared replica anonymous start = true ∨ notSwept p.shared start = true := by
  simp only [Prompt, prompt, ht] at h
  simpa [hk] using h

theorem counterKey_class {b : Bool} {key' : String}
    (h : counterKey b key' = counterKey anonymous key) : b = anonymous := by
  have hlist := congrArg String.toList h
  simp only [counterKey, String.toList_append] at hlist
  cases b <;> cases anonymous <;> simp at hlist <;> rfl

theorem taskAct_clocks (h : taskAct cfg limits s i t a = some (s', t')) : s'.clocks = s.clocks := by
  cases taskAct_step (i := i) h with
  | silent rows given cutoffs clocks cutoff => exact clocks
  | pull replica anonymous key start rows r task ends statement state
  | sweep replica cutoff task ends state
  | request replica c ip limit w start rows r web task ends statement state | prune ends state =>
    subst state
    rfl

theorem taskAct_fair {p : Pool Counters Task} (h : Fair cfg anonymous key p.shared)
    (hc : Prompt cfg (counterKey anonymous key) p (.act i a)) (ht : p.tasks[i]? = some t)
    (hok : PullTaskOk cfg anonymous p.shared i t)
    (hact : taskAct cfg limits p.shared i t a = some (s', t')) :
    Fair cfg anonymous key s' := by
  cases taskAct_step (i := i) hact with
  | silent rows given cutoffs clocks cutoff =>
    exact h.same rows given cutoffs (clocks ▸ h.behind) (clocks ▸ h.sync)
  | pull replica b key' start rows r task ends statement state =>
    obtain ⟨hrows, hr, -⟩ := takeRateLimit_some statement
    by_cases hk : counterKey b key' = counterKey anonymous key
    · have hb := counterKey_class hk
      subst hb
      subst task
      have hswept : notSwept p.shared start = true :=
        (hc.act ht hk).elim (notSwept_of_inWindow h.behind) id
      have hledger := h.take (count_pos hok.limited) hswept (hk ▸ statement)
      subst state
      refine ⟨?_, ?_, ?_, h.behind, h.sync⟩
      · exact hrows ▸ h.keyed.upsert r
      · rw [tally_answered hrows, log_answered, if_pos (hr.trans hk), if_pos (hr.trans hk)]
        exact hledger
      · rw [tally_answered hrows, if_pos (hr.trans hk)]
        intro hnone
        cases hnone
    · subst state
      exact h.other hrows (fun hthis => hk (hr.symm.trans hthis)) rfl rfl rfl rfl
  | sweep replica cutoff task ends state =>
    have hbehind := hok.behind cutoff (task ▸ rfl)
    subst state
    refine h.delete rfl rfl rfl rfl (fun c _ hc => ⟨cutoff, mem_singleton_self _, ?_⟩)
      fun x hx => mem_singleton.mp hx ▸ hbehind
    simpa using hc
  | request replica c ip limit w start rows r web task ends statement state =>
    obtain ⟨hrows, hr, -⟩ := countApiRequest_some statement
    subst state
    exact h.other hrows (hr ▸ counterKey_ne_keyFor anonymous key c ip) rfl rfl rfl rfl
  | prune ends state =>
    subst state
    -- the keys of pulls are not among those that are pruned
    refine h.delete rfl rfl (append_nil _).symm rfl (fun c hkey hc => ?_)
      nofun
    rw [hkey, counterKey_not_api] at hc
    cases hc

theorem taskAct_pullTaskOk (h : Fair cfg anonymous key s)
    (hact : taskAct cfg limits s i t a = some (s', t')) :
    PullTaskOk cfg anonymous s' i t' := by
  refine ⟨taskAct_limited (i := i) hact, fun x hx => ?_⟩
  rw [taskAct_clocks (i := i) hact]
  cases taskAct_step (i := i) hact with
  | silent rows given cutoffs clocks cutoff =>
    obtain ⟨now, hnow, rfl⟩ := cutoff x hx
    exact Behind.computed h.sync hnow (cutoff_window (i := i) hact hx)
  | pull replica b key' start rows r task ends statement state
  | sweep replica cutoff task ends state | prune ends state => exact absurd hx (by simp [ends])
  | request replica c ip limit w start rows r web task ends statement state =>
    exact absurd hx (by simp [ends])

variable {e : Tick}

theorem tick_some (h : tick s e = some s') :
    s'.rows = s.rows ∧ s'.given = s.given ∧ s'.cutoffs = s.cutoffs := by
  cases e with
  | registryd i now | web i now =>
    simp only [tick] at h
    split at h
    · cases h
    · cases h
      exact ⟨rfl, rfl, rfl⟩
  | database now =>
    cases h
    exact ⟨rfl, rfl, rfl⟩

theorem pullTick_clocks (h : pullTick skew s e = some s') :
    s'.clocks = s.clocks ∨ ∃ i old now, s.clocks[i]? = some old ∧ old ≤ now ∧
      s'.clocks = s.clocks.set i now ∧ inSync skew (s.clocks.set i now) = true := by
  cases e with
  | registryd i now =>
    simp only [pullTick] at h
    split at h
    · cases h
    · rename_i r hr
      split at h
      · rename_i hforward
        refine .inr ⟨i, r.now, now, ?_, hforward.1, ?_, hforward.2⟩
        · simp [Counters.clocks, hr]
        · simp only [tick, hr] at h
          cases h
          simp [Counters.clocks]
      · cases h
  | web i now =>
    simp only [pullTick, tick] at h
    split at h
    · cases h
    · cases h
      exact .inl rfl
  | database now =>
    cases h
    exact .inl rfl

theorem pullTick_some (h : pullTick skew s e = some s') : ∃ e, tick s e = some s' := by
  cases e with
  | registryd i now =>
    simp only [pullTick] at h
    split at h
    · cases h
    · split at h
      · exact ⟨_, h⟩
      · cases h
  | web i now => exact ⟨.web i now, h⟩
  | database now => exact ⟨.database now, h⟩

theorem Behind.tick (h : pullTick skew s e = some s')
    (hbehind : Behind cfg skew s.clocks x) : Behind cfg skew s'.clocks x := by
  rcases pullTick_clocks h with hsame | ⟨i, old, now, hold, hle, hclocks, -⟩
  · exact hsame ▸ hbehind
  · exact hclocks ▸ hbehind.forward hold hle

theorem pulls_outline : (pullProgram cfg limits (cfg.limit anonymous).window).Outline
    (Prompt cfg (counterKey anonymous key)) (Fair cfg anonymous key)
    (PullTaskOk cfg anonymous) where
  init s h := by
    obtain ⟨⟨hrows, hgiven, hcutoffs, -⟩, hsync⟩ := h
    have hlog : s.log (counterKey anonymous key) = [] := by simp [Counters.log, hgiven]
    have htally : s.tally (counterKey anonymous key) = none := by
      simp [Counters.tally, hrows, Table.find]
    refine ⟨?_, ?_, ?_, ?_, hsync⟩
    · rw [hrows]
      exact nodup_nil
    · rw [hlog, htally]
      exact Ledger.empty (by omega)
    · rw [hlog]
      intro _ e he
      cases he
    · rw [hcutoffs]
      intro x hx
      cases hx
  spawn p t _ _ hfresh := by
    refine ⟨?_, fun x hx => ?_⟩
    · cases t with
      | take replica b key' pc => cases of_decide_eq_true hfresh; trivial
      | sweep replica pc | api replica c ip pc => trivial
    · cases t with
      | sweep replica pc => cases of_decide_eq_true hfresh; cases hx
      | take replica b key' pc | api replica c ip pc => cases hx
  act p i a t s' t' hp hc ht hact :=
    ⟨taskAct_fair hp.shared hc ht (hp.tasks i t ht) hact,
      taskAct_pullTaskOk (i := i) hp.shared hact⟩
  interfere p i a t s' t' hp _ _ hact j q _ hq := by
    refine ⟨(hp.tasks j q hq).limited, ?_⟩
    rw [taskAct_clocks (i := i) hact]
    exact (hp.tasks j q hq).behind
  env p e s' hp _ he := by
    have hold := hp.shared
    obtain ⟨e', he'⟩ := pullTick_some he
    obtain ⟨hrows, hgiven, hcutoffs⟩ := tick_some he'
    refine ⟨hold.same hrows hgiven hcutoffs (fun x hx => (hold.behind x hx).tick he) ?_, ?_⟩
    · rcases pullTick_clocks he with hsame | ⟨i, old, now, -, -, hclocks, hsync⟩
      · exact hsame ▸ hold.sync
      · exact hclocks ▸ hsync
    · intro j q hq
      exact ⟨(hp.tasks j q hq).limited, fun x hx => ((hp.tasks j q hq).behind x hx).tick he⟩

theorem taskAct_given (h : taskAct cfg limits s i t a = some (s', t')) :
    ∀ g ∈ s.given, g ∈ s'.given := by
  cases taskAct_step (i := i) h with
  | silent rows given cutoffs clocks cutoff => exact fun g hg => given ▸ hg
  | pull replica anonymous key start rows r task ends statement state
  | request replica c ip limit w start rows r web task ends statement state =>
    subst state
    exact fun g hg => mem_append_left _ hg
  | sweep replica cutoff task ends state | prune ends state =>
    subst state
    exact fun g hg => hg

theorem log_mono (h : ∀ g ∈ s.given, g ∈ s'.given) : ∀ e ∈ s.log k, e ∈ s'.log k := by
  intro e he
  obtain ⟨g, hg, rfl⟩ := mem_map.mp he
  obtain ⟨hg, hk⟩ := mem_filter.mp hg
  exact mem_map.mpr ⟨g, mem_filter.mpr ⟨h g hg, hk⟩, rfl⟩

theorem pulls_step_given {p p' : Pool Counters Task} {m : Move Task Reply Tick}
    (h : (pulls cfg limits anonymous).step p m = some p') :
    ∀ g ∈ p.shared.given, g ∈ p'.shared.given := by
  have hstep : (pullProgram cfg limits (cfg.limit anonymous).window).step p m = some p' := h
  rcases Program.step_cases hstep with ⟨t, rfl, -, rfl⟩ | ⟨i, a, t, s', t', rfl, -, hact, rfl⟩ |
      ⟨e, s', rfl, he, rfl⟩
  · exact fun g hg => hg
  · exact taskAct_given (i := i) hact
  · obtain ⟨e', he'⟩ := pullTick_some he
    intro g hg
    rw [(tick_some he').2.1]
    exact hg

/-- **The shared pull limit.** Where every Take of the key counts in time, its stored window
never goes back, and of the Takes answered out of a window no more than the limit are
allowed. -/
theorem pull_limit_holds {p p' : Pool Counters Task}
    (hrun : (pulls cfg limits anonymous).Run (Prompt cfg (counterKey anonymous key)) p)
    (hpath : (pulls cfg limits anonymous).Path (Prompt cfg (counterKey anonymous key)) p p') :
    (∀ r r', Table.find (·.key) (counterKey anonymous key) p.shared.rows = some r →
      Table.find (·.key) (counterKey anonymous key) p'.shared.rows = some r' →
      r.windowStart ≤ r'.windowStart) ∧
    ∀ w, allowedIn w (p'.shared.log (counterKey anonymous key)) ≤
      (cfg.limit anonymous).count.toNat := by
  have hfair := pulls_outline.run hrun
  have hfair' := pulls_outline.run (hrun.append hpath)
  have hgiven : ∀ g ∈ p.shared.given, g ∈ p'.shared.given :=
    hpath.stable (Q := fun q => ∀ g ∈ p.shared.given, g ∈ q.shared.given) hrun
      (fun q m q' _ hq _ hs g hg => pulls_step_given hs g (hq g hg)) fun g hg => hg
  refine ⟨fun r r' hr hr' => ?_, fun w => ?_⟩
  · have hledger := hfair.shared.ledger
    have hledger' := hfair'.shared.ledger
    unfold Counters.tally at hledger hledger'
    rw [hr] at hledger
    rw [hr'] at hledger'
    exact hledger.start_le hledger' (log_mono hgiven)
  · have hbound := hfair'.shared.ledger.bound w
    omega

/-! ## Two configurations -/

def noon : Int := 1767268800 * 10 ^ 9

def noLimits : ApiLimits := ⟨none, none⟩

def started (replicas : List Int) : Counters :=
  ⟨[], replicas.map fun now => ⟨now, now⟩, [], noon / 1000, [], []⟩

theorem started_init {replicas : List Int}
    (hsync : inSync (cfg.limit anonymous).window replicas = true) :
    (pulls cfg limits anonymous).init ⟨started replicas, []⟩ := by
  refine ⟨⟨⟨rfl, rfl, rfl, ?_, ?_⟩, ?_⟩, rfl⟩
  · intro r hr
    obtain ⟨now, -, rfl⟩ := mem_map.mp hr
    rfl
  · intro r hr
    cases hr
  · simpa [Counters.clocks, started, map_map, Function.comp_def] using hsync

/-- `3/1m` for anonymous clients. -/
def perMinute : Config := ⟨⟨3, minute⟩, ⟨0, 0⟩, []⟩

def pull (replica task : Nat) : List (Move Task Reply Tick) :=
  [.spawn (.take replica true "ip:192.0.2.1" .called), .act task .ok, .act task .ok]

/-- Two replicas half a minute apart count pulls; five minutes later one of them sweeps, and
the pulls go on. -/
theorem pull_limit_holds_per_minute : ∃ p p' : Pool Counters Task,
    (∀ r r', Table.find (·.key) (counterKey true "ip:192.0.2.1") p.shared.rows = some r →
      Table.find (·.key) (counterKey true "ip:192.0.2.1") p'.shared.rows = some r' →
      r.windowStart ≤ r'.windowStart) ∧
    ∀ w, allowedIn w (p'.shared.log (counterKey true "ip:192.0.2.1")) ≤ 3 := by
  have hinit : (pulls perMinute noLimits true).init ⟨started [noon, noon + 30 * second], []⟩ :=
    started_init (by decide)
  obtain ⟨p, hp⟩ : ∃ p, (pulls perMinute noLimits true).replay
      (Prompt perMinute (counterKey true "ip:192.0.2.1")) ⟨started [noon, noon + 30 * second], []⟩
      (pull 0 0 ++ pull 1 1 ++ pull 0 2 ++ pull 1 3) = some p := ⟨_, rfl⟩
  obtain ⟨p', hp'⟩ : ∃ p', (pulls perMinute noLimits true).replay
      (Prompt perMinute (counterKey true "ip:192.0.2.1")) p
      ((List.range 6).flatMap (fun n => [.env (.registryd 0 (noon + (n + 1) * 50 * second)),
        .env (.registryd 1 (noon + (n + 1) * 50 * second + 30 * second))]) ++
        [.spawn (.sweep 0 .called), .act 4 .ok, .act 4 .ok] ++ pull 1 5 ++ pull 0 6) =
      some p' := by
    cases hp
    exact ⟨_, rfl⟩
  exact ⟨p, p', pull_limit_holds (Machine.run_of_replay hinit hp) (Machine.path_of_replay hp')⟩

/-- `1/80000d`: twice the window is no 64-bit duration. -/
def longWindow : Config := ⟨⟨1, 80000 * 24 * hour⟩, ⟨0, 0⟩, []⟩

/-- With a window of 219 years the cutoff of a sweep is 146 years ahead: each sweep drops every
counter, and a second pull is allowed in a window of one. -/
theorem long_window_counts_again : parseLimit "1/80000d" = .ok (longWindow.limit true) ∧
    ∃ p, (pulls longWindow noLimits true).Reachable p ∧ ∃ w, (longWindow.limit true).count.toNat <
        allowedIn w (p.shared.log (counterKey true "ip:192.0.2.1")) := by
  refine ⟨by decide +kernel, ?_⟩
  have hinit : (pulls longWindow noLimits true).init ⟨started [noon], []⟩ :=
    started_init (by decide)
  obtain ⟨p, hp⟩ : ∃ p, (pulls longWindow noLimits true).replay (fun _ _ => True)
      ⟨started [noon], []⟩
      (pull 0 0 ++ [.env (.registryd 0 (noon + 5 * minute)), .spawn (.sweep 0 .called),
        .act 1 .ok, .act 1 .ok] ++ pull 0 2) = some p := ⟨_, rfl⟩
  refine ⟨p, Machine.run_of_replay hinit hp,
    column (goTruncate (longWindow.limit true).window noon), ?_⟩
  cases hp
  decide +kernel

end Chicoree.RateLimits

/-! ## The limit of API requests

Replicas of both programs with clocks of any kind. The counter of a key holds where no request
comes with an earlier window than the stored one, and none finds the row of its own window
deleted. -/

namespace Chicoree.RateLimits

open Transition
open Windows (Answer Tally Ledger allowedIn)

variable {cfg : Config} {limits : ApiLimits} {s s' : Counters} {t t' : Task} {a : Reply}
  {i : Nat} {c : ApiCaller} {ip : Option String} {k : String}

abbrev requests (cfg : Config) (limits : ApiLimits) :
    Machine (Pool Counters Task) (Move Task Reply Tick) :=
  (counterProgram cfg limits).machine

/-! ## The condition -/

/-- The stored window is not a later one; where none is stored, all that were are earlier. -/
def inOrder (s : Counters) (k : String) (windowStart : Int) : Bool :=
  match s.tally k with
  | some r => decide (r.start ≤ windowStart)
  | none => (s.log k).all fun e => decide (e.window < windowStart)

/-- **The condition on a step**: the statement of a request of the key does not come with an
earlier window than the row has, and does not find the row of its window, or of a later one,
swept or pruned. -/
def orderly (k : String) (p : Pool Counters Task) : Move Task Reply Tick → Bool
  | .act i _ =>
    match p.tasks[i]? with
    | some (.api _ c ip (.counting _ _ start)) =>
      keyFor c ip != k || inOrder p.shared k (start * 10 ^ 6)
    | _ => true
  | _ => true

abbrev Orderly (k : String) (p : Pool Counters Task) (m : Move Task Reply Tick) : Prop :=
  orderly k p m = true

theorem limit_of_keyFor {c' : ApiCaller} {ip' : Option String} (h : keyFor c ip = keyFor c' ip') :
    limits.limit c = limits.limit c' := by
  have hlist := congrArg String.toList h
  cases c <;> cases c' <;> simp [keyFor, String.toList_append] at hlist <;> rfl

/-- A request that is about to count has the limit of its caller. -/
def Task.ApiLimited (limits : ApiLimits) : Task → Prop
  | .api _ c _ (.counting limit _ _) => limits.limit c = some limit
  | _ => True

theorem taskAct_apiLimited (h : taskAct cfg limits s i t a = some (s', t')) :
    t'.ApiLimited limits := by
  cases t with
  | take replica anonymous key pc | sweep replica pc =>
    obtain ⟨⟨s', pc'⟩, -, ⟨⟩⟩ := Option.map_eq_some_iff.mp h
    trivial
  | api replica c ip pc =>
    obtain ⟨⟨s', pc'⟩, hc, ⟨⟩⟩ := Option.map_eq_some_iff.mp h
    cases pc with
    | called =>
      simp only [apiAct] at hc
      split at hc
      · cases hc
      · split at hc
        · cases hc
          trivial
        · split at hc
          · cases hc
            trivial
          · rename_i limit hlimit
            split at hc <;> cases hc
            · trivial
            · exact hlimit
    | counting limit w start =>
      cases a with
      | fails =>
        cases hc
        trivial
      | ok =>
        simp only [apiAct] at hc
        repeat' split at hc
        all_goals cases hc
        all_goals trivial
    | pruning r => cases a <;> cases hc <;> trivial
    | done r => cases hc

/-! ## The invariant -/

/-- What holds of the counter of a key in every state. -/
structure Counted (limit : RateLimit) (k : String) (s : Counters) : Prop where
  keyed : Table.Keyed (·.key) s.rows
  ledger : Ledger (limit.count : Int) (s.tally k) (s.log k)

variable {limit : RateLimit} {p : Pool Counters Task}

theorem Counted.request {rows : List CounterRow} {r : CounterRow}
    {windowStart : Int} (h : Counted limit k s) (horder : inOrder s k windowStart = true)
    (hstatement : countApiRequest s.rows k windowStart = some (rows, r)) :
    Ledger (limit.count : Int) (some r.tally)
      (s.log k ++ [⟨r.windowStart, decide (r.count ≤ (limit.count : Int))⟩]) := by
  obtain ⟨-, -, htally⟩ := countApiRequest_some hstatement
  have hr : (⟨r.windowStart, decide (r.count ≤ (limit.count : Int))⟩ : Answer Int) =
      ⟨r.tally.start, decide (r.tally.count ≤ (limit.count : Int))⟩ := rfl
  rw [hr, htally]
  change Ledger _ (some (requested (s.tally k) _)) (_ ++ [⟨(requested (s.tally k) _).start,
    decide ((requested (s.tally k) _).count ≤ _)⟩])
  have hledger := h.ledger
  unfold inOrder at horder
  cases hstored : s.tally k with
  | none =>
    rw [hstored] at horder
    exact hledger.restart fun e he => of_decide_eq_true (List.all_eq_true.mp horder e he)
  | some c =>
    rw [hstored] at hledger horder
    have hle : c.start ≤ windowStart := of_decide_eq_true horder
    unfold requested
    by_cases heq : c.start = windowStart
    · subst heq
      simp only [if_true]
      exact hledger.add
    · -- a later window: every answer was out of an earlier one
      simp only [if_neg heq]
      refine hledger.restart fun e he => ?_
      have := hledger.last c rfl e he
      omega

theorem Orderly.act (h : Orderly k p (.act i a)) {replica : Nat} {w start : Int}
    (ht : p.tasks[i]? = some (.api replica c ip (.counting limit w start))) (hk : keyFor c ip = k) :
    inOrder p.shared k (start * 10 ^ 6) = true := by
  simp only [Orderly, orderly, ht] at h
  simpa [hk] using h

theorem taskAct_counted (hlimit : limits.limit c = some limit)
    (h : Counted limit (keyFor c ip) p.shared) (hc : Orderly (keyFor c ip) p (.act i a))
    (ht : p.tasks[i]? = some t) (hok : t.ApiLimited limits)
    (hact : taskAct cfg limits p.shared i t a = some (s', t')) :
    Counted limit (keyFor c ip) s' := by
  refine ⟨taskAct_keyed (i := i) h.keyed hact, ?_⟩
  cases taskAct_step (i := i) hact with
  | silent rows given cutoffs clocks cutoff =>
    rw [tally_of_rows rows, log_of_given given]
    exact h.ledger
  | pull replica anonymous key start rows r task ends statement state =>
    obtain ⟨hrows, hr, -⟩ := takeRateLimit_some statement
    have hne : r.key ≠ keyFor c ip := fun hthis =>
      counterKey_ne_keyFor anonymous key c ip (hthis.symm.trans hr)
    rw [tally_other hrows hne (congrArg Counters.rows state),
      log_other hne (congrArg Counters.given state)]
    exact h.ledger
  | sweep replica cutoff task ends state | prune ends state =>
    subst state
    exact ledger_filter h.keyed h.ledger rfl rfl
  | request replica c' ip' limit' w start rows r web task ends statement state =>
    obtain ⟨hrows, hr, -⟩ := countApiRequest_some statement
    by_cases hk : keyFor c' ip' = keyFor c ip
    · subst task
      have hsame : some limit' = some limit := hok.symm.trans ((limit_of_keyFor hk).trans hlimit)
      cases hsame
      have hledger := h.request (hc.act ht hk) (hk ▸ statement)
      subst state
      show Ledger _ ((p.shared.answered rows r (decide (r.count ≤ (limit.count : Int)))).tally _)
        ((p.shared.answered rows r (decide (r.count ≤ (limit.count : Int)))).log _)
      rw [tally_answered hrows, log_answered, if_pos (hr.trans hk), if_pos (hr.trans hk)]
      exact hledger
    · have hne : r.key ≠ keyFor c ip := fun hthis => hk (hr.symm.trans hthis)
      have hgiven : s'.given =
          (p.shared.answered rows r (decide (r.count ≤ (limit'.count : Int)))).given := by
        rw [state]
      rw [tally_other hrows hne (congrArg Counters.rows state), log_other hne hgiven]
      exact h.ledger

/-- An invariant of the tally and the answers of a key, where every call keeps it. -/
theorem tally_outline {Ok : Pool Counters Task → Move Task Reply Tick → Prop}
    {Inv : Counters → Prop} {R : Option (Tally Int) → List (Answer Int) → Prop}
    (hinv : ∀ s, Inv s ↔ Table.Keyed (·.key) s.rows ∧ R (s.tally k) (s.log k))
    (hempty : R none []) (hcall : ∀ (p : Pool Counters Task) i a t s' t', Inv p.shared →
      Ok p (.act i a) → p.tasks[i]? = some t → t.ApiLimited limits →
      taskAct cfg limits p.shared i t a = some (s', t') → Inv s') :
    (counterProgram cfg limits).Outline Ok Inv (fun _ _ t => t.ApiLimited limits) where
  init s h := by
    obtain ⟨hrows, hgiven, -, -⟩ := h
    have hlog : s.log k = [] := by simp [Counters.log, hgiven]
    have htally : s.tally k = none := by simp [Counters.tally, hrows, Table.find]
    rw [hinv, hlog, htally]
    exact ⟨hrows ▸ List.nodup_nil, hempty⟩
  spawn p t _ _ hfresh := by
    cases t with
    | api replica c ip pc => cases of_decide_eq_true hfresh; trivial
    | take replica b key' pc | sweep replica pc => trivial
  act p i a t s' t' hp hc ht hact :=
    ⟨hcall p i a t s' t' hp.shared hc ht (hp.tasks i t ht) hact, taskAct_apiLimited (i := i) hact⟩
  interfere p i a t s' t' hp _ _ _ j q _ hq := hp.tasks j q hq
  env p e s' hp _ he := by
    obtain ⟨hrows, hgiven, -⟩ := tick_some he
    refine ⟨?_, hp.tasks⟩
    rw [hinv, tally_of_rows hrows, log_of_given hgiven, hrows]
    exact (hinv _).mp hp.shared

theorem requests_outline (hlimit : limits.limit c = some limit) :
    (counterProgram cfg limits).Outline (Orderly (keyFor c ip))
      (Counted limit (keyFor c ip)) (fun _ _ t => t.ApiLimited limits) :=
  tally_outline (R := Ledger (limit.count : Int))
    (fun _ => ⟨fun h => ⟨h.keyed, h.ledger⟩, fun h => ⟨h.1, h.2⟩⟩) (Ledger.empty (by omega))
    fun _ _ _ _ _ _ => taskAct_counted hlimit

/-- **The limit of API requests.** Where the requests of a key come in order and find the row
of their window, no window admits more of them than the limit. -/
theorem api_limit_holds {limit : RateLimit} (hlimit : limits.limit c = some limit)
    (hrun : (requests cfg limits).Run (Orderly (keyFor c ip)) p) (w : Int) :
    allowedIn w (p.shared.log (keyFor c ip)) ≤ limit.count := by
  have hbound := ((requests_outline hlimit).run hrun).shared.ledger.bound w
  omega

/-! ## Two runs -/

def hourly : ApiLimits := ⟨none, some ⟨1, .finite 3600⟩⟩

def bothStarted : Counters := { started [noon] with web := [⟨noon / 10 ^ 6, 0⟩] }

theorem bothStarted_init : (requests perMinute hourly).init ⟨bothStarted, []⟩ := by
  refine ⟨⟨rfl, rfl, rfl, ?_, ?_⟩, rfl⟩
  · intro r hr
    rw [List.mem_singleton.mp hr]
  · intro r hr
    rw [List.mem_singleton.mp hr]

def apiRequest (task : Nat) : List (Move Task Reply Tick) :=
  [.spawn (.api 0 (.sa "ci") none .called), .act task .ok, .act task .ok]

/-- Two requests, the prune of the first one, and a third request in the next hour. -/
theorem api_limit_holds_hourly : ∃ p : Pool Counters Task, ∀ w,
    allowedIn w (p.shared.log (keyFor (.sa "ci") none)) ≤ 1 := by
  obtain ⟨p, hp⟩ : ∃ p, (requests perMinute hourly).replay
      (Orderly (keyFor (.sa "ci") none)) ⟨bothStarted, []⟩
      (apiRequest 0 ++ [.act 0 .ok] ++ apiRequest 1 ++
        [.env (.web 0 (noon / 10 ^ 6 + 3600000))] ++ apiRequest 2) = some p := ⟨_, rfl⟩
  have hlimit : hourly.limit (.sa "ci") = some ⟨1, .finite 3600⟩ := rfl
  exact ⟨p, api_limit_holds hlimit (Machine.run_of_replay bothStarted_init hp)⟩

/-- Pulls are limited by the minute, so that registryd sweeps the counter of an API request
after five minutes: a second request is admitted in a window of one. -/
theorem swept_window_counts_again : ∃ p, (requests perMinute hourly).Reachable p ∧
      ∃ w, 1 < allowedIn w (p.shared.log (keyFor (.sa "ci") none)) := by
  obtain ⟨p, hp⟩ : ∃ p, (requests perMinute hourly).replay (fun _ _ => True) ⟨bothStarted, []⟩
      (apiRequest 0 ++ [.act 0 .ok, .env (.registryd 0 (noon + 5 * minute)),
        .env (.web 0 (noon / 10 ^ 6 + 300000)), .spawn (.sweep 0 .called), .act 1 .ok,
        .act 1 .ok] ++ apiRequest 2) = some p := ⟨_, rfl⟩
  refine ⟨p, Machine.run_of_replay bothStarted_init hp, noon / 1000, ?_⟩
  cases hp
  decide +kernel

end Chicoree.RateLimits
