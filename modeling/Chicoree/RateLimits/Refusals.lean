import Chicoree.RateLimits.PullLimit

/-! # Refusals

The limit holds only while rows are found in order; that nobody is refused below it holds in
every run. -/

namespace Chicoree.RateLimits

open Transition
open Windows (Answer Tally Spent RefusesAbove allowedIn)

variable {cfg : Config} {limits : ApiLimits} {s s' : Counters} {t t' : Task} {a : Reply}
  {i : Nat} {c : ApiCaller} {ip : Option String} {k : String}

structure OneLimit (cfg : Config) (limits : ApiLimits) (k : String) (limit : Int) : Prop where
  pulls : ∀ anonymous key, counterKey anonymous key = k → (cfg.limit anonymous).count = limit
  requests : ∀ c ip l, keyFor c ip = k → limits.limit c = some l → (l.count : Int) = limit

structure Admitted (k : String) (limit : Int) (s : Counters) : Prop where
  keyed : Table.Keyed (·.key) s.rows
  spent : Spent limit (s.tally k) (s.log k)

variable {limit : Int}

theorem Admitted.answered {rows : List CounterRow} {r : CounterRow} {l : Int}
    (h : Admitted k limit s) (hrows : rows = Table.upsert (·.key) r s.rows)
    (hlimit : r.key = k → l = limit) (htally : r.key = k → (∃ w, r.tally = ⟨w, 1⟩) ∨
      ∃ c, s.tally k = some c ∧ r.tally = ⟨c.start, c.count + 1⟩)
    (hs : s'.rows = rows) (hgiven : s'.given = (s.answered rows r (decide (r.count ≤ l))).given) :
    Admitted k limit s' := by
  have hanswered : s'.rows = (s.answered rows r (decide (r.count ≤ l))).rows := hs
  refine ⟨hs ▸ hrows ▸ h.keyed.upsert r, ?_⟩
  rw [tally_of_rows hanswered, log_of_given hgiven, tally_answered hrows, log_answered]
  by_cases hk : r.key = k
  · rw [if_pos hk, if_pos hk, hlimit hk]
    rcases htally hk with ⟨w, hw⟩ | ⟨c, hc, hcount⟩
    · have hstart : r.windowStart = w := congrArg Tally.start hw
      have hone : r.count = 1 := congrArg Tally.count hw
      rw [hw, hstart, hone]
      exact h.spent.restart w
    · have hstart : r.windowStart = c.start := congrArg Tally.start hcount
      have hnext : r.count = c.count + 1 := congrArg Tally.count hcount
      rw [hcount, hstart, hnext]
      exact (hc ▸ h.spent).add
  · rw [if_neg hk, if_neg hk]
    exact h.spent

theorem taken_cases (c : Option (Tally Int)) (w : Int) : (∃ v, taken c w = ⟨v, 1⟩) ∨
    ∃ t, c = some t ∧ taken c w = ⟨t.start, t.count + 1⟩ := by
  cases c with
  | none => exact .inl ⟨w, rfl⟩
  | some t =>
    unfold taken
    by_cases hlt : t.start < w
    · exact .inl ⟨w, if_pos hlt⟩
    · exact .inr ⟨t, rfl, if_neg hlt⟩

theorem requested_cases (c : Option (Tally Int)) (w : Int) : (∃ v, requested c w = ⟨v, 1⟩) ∨
    ∃ t, c = some t ∧ requested c w = ⟨t.start, t.count + 1⟩ := by
  cases c with
  | none => exact .inl ⟨w, rfl⟩
  | some t =>
    unfold requested
    by_cases hsame : t.start = w
    · exact .inr ⟨t, rfl, hsame ▸ if_pos rfl⟩
    · exact .inl ⟨w, if_neg hsame⟩

theorem Admitted.filter {p : CounterRow → Bool} (h : Admitted k limit s)
    (hrows : s'.rows = s.rows.filter p) (hgiven : s'.given = s.given) : Admitted k limit s' := by
  refine ⟨hrows ▸ h.keyed.filter p, ?_⟩
  rw [tally_filter h.keyed rfl hrows, log_of_given hgiven]
  have hspent := h.spent
  unfold Counters.tally at hspent
  cases hf : Table.find (·.key) k s.rows with
  | none => exact hspent.drop
  | some c =>
    by_cases hp : p c = true
    · rw [Option.filter_some, if_pos hp]
      rwa [hf] at hspent
    · rw [Option.filter_some, if_neg hp]
      exact hspent.drop

/-- **Step lemma.** -/
theorem taskAct_admitted (hone : OneLimit cfg limits k limit) (h : Admitted k limit s)
    (hok : t.ApiLimited limits) (hact : taskAct cfg limits s i t a = some (s', t')) :
    Admitted k limit s' := by
  cases taskAct_step (i := i) hact with
  | silent rows given =>
    refine ⟨rows ▸ h.keyed, ?_⟩
    rw [tally_of_rows rows, log_of_given given]
    exact h.spent
  | pull replica anonymous key start rows r task ends statement state =>
    obtain ⟨hrows, hr, htally⟩ := takeRateLimit_some statement
    subst state
    refine h.answered hrows (fun hk => hone.pulls _ _ (hr.symm.trans hk)) (fun hk => ?_) rfl rfl
    obtain rfl := hr.symm.trans hk
    exact htally ▸ taken_cases (s.tally _) (column start)
  | sweep replica cutoff task ends state | prune ends state =>
    subst state
    exact h.filter rfl rfl
  | request replica c ip l w start rows r web task ends statement state =>
    obtain ⟨hrows, hr, htally⟩ := countApiRequest_some statement
    subst state task
    refine h.answered hrows (fun hk => hone.requests _ _ _ (hr.symm.trans hk) hok) (fun hk => ?_)
      rfl rfl
    obtain rfl := hr.symm.trans hk
    exact htally ▸ requested_cases (s.tally _) (start * 10 ^ 6)

theorem admitted_outline (hone : OneLimit cfg limits k limit) :
    (counterProgram cfg limits).Outline (fun _ _ => True) (Admitted k limit)
      (fun _ _ t => t.ApiLimited limits) :=
  tally_outline (R := Spent limit)
    (fun _ => ⟨fun h => ⟨h.keyed, h.spent⟩, fun h => ⟨h.1, h.2⟩⟩) .empty
    fun _ i _ _ _ _ h _ _ hok hact => taskAct_admitted (i := i) hone h hok hact

/-- **Nobody is refused below the limit.** Whatever the clocks show and whenever the rows are
swept, a pull or a request is refused only after the limit was used up in its window. -/
theorem refused_above_limit {p : Pool Counters Task} (h : (requests cfg limits).Reachable p) :
    (∀ anonymous key, RefusesAbove (cfg.limit anonymous).count
      (p.shared.log (counterKey anonymous key))) ∧
    ∀ c ip limit, limits.limit c = some limit →
      RefusesAbove (limit.count : Int) (p.shared.log (keyFor c ip)) := by
  constructor
  · intro anonymous key
    have hone : OneLimit cfg limits (counterKey anonymous key) (cfg.limit anonymous).count :=
      ⟨fun b key' hk => by rw [counterKey_class hk],
        fun c ip l hk => absurd hk (counterKey_ne_keyFor anonymous key c ip)⟩
    exact ((admitted_outline hone).run h).shared.spent.refuses
  · intro c ip limit hlimit
    have hone : OneLimit cfg limits (keyFor c ip) limit.count := by
      refine ⟨fun b key hk => absurd hk.symm (counterKey_ne_keyFor b key c ip),
        fun c' ip' l hk hl => ?_⟩
      rw [limit_of_keyFor hk, hlimit] at hl
      cases hl
      rfl
    exact ((admitted_outline hone).run h).shared.spent.refuses

theorem refused_above_limit_minute : ∃ p, (requests perMinute hourly).Reachable p ∧
    (p.shared.log (counterKey true "ip:192.0.2.1")).map (·.allowed) = [true, true, true, false] ∧
    RefusesAbove 3 (p.shared.log (counterKey true "ip:192.0.2.1")) := by
  obtain ⟨p, hp⟩ : ∃ p, (requests perMinute hourly).replay (fun _ _ => True) ⟨bothStarted, []⟩
      (pull 0 0 ++ pull 0 1 ++ pull 0 2 ++ pull 0 3) = some p := ⟨_, rfl⟩
  have hrun : (requests perMinute hourly).Reachable p := Machine.run_of_replay bothStarted_init hp
  refine ⟨p, hrun, ?_, (refused_above_limit hrun).1 true "ip:192.0.2.1"⟩
  cases hp
  decide +kernel

end Chicoree.RateLimits
