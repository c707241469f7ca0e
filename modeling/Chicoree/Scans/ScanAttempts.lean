import Chicoree.Scans.ScanLeases

/-! # A task is handed out three times

`attempts` counts the leases since the last enqueue, and a reported failure looks at it. While
the third lease of a task does not expire, and no statement by the id comes late to a task that
has had its third, no task is leased a fourth time and a failed one stays failed. -/

namespace Chicoree.Scans

open Transition List Machine Table

variable {s s' : ScanQueue} {t t' : Party} {a : Reply} {i id : Nat} {r : ScanTask}
  {p p' : Pool ScanQueue Party}

/-! ## The condition -/

def ScanTask.spent (r : ScanTask) : Bool := decide (maxAttempts ≤ r.attempts)

/-- The step hands out or re-opens a task that is spent: its lease has expired, or the statement
is of a tick that selected it or of an executor that leased it before. -/
def Party.overruns (s : ScanQueue) : Party → Reply → Bool
  | .claim _ .claiming, .next locked =>
    (nextTask s locked).any fun r => r.spent && decide (r.status = .leased)
  | .dispatch .release, .ok _ =>
    s.tasks.any fun r => r.spent && decide (r.status = .leased) && r.expired s.now
  | .dispatch (.lease u _), .ok _ => (s.task u.id).any ScanTask.spent
  | .report _ id _ (.retrying _ _), .ok _ => (s.task id).any ScanTask.spent
  | t, .ok _ => t.finishes.any fun id =>
    (s.task id).any fun r => r.spent && decide (r.status = .failed)
  | _, _ => false

theorem overruns_of_finishes {web : Int} (h : t.finishes = some id) : t.overruns s (.ok web) =
      (s.task id).any fun r => r.spent && decide (r.status = .failed) := by
  cases t with
  | enqueue path digest repositoryId pc => cases h
  | claim name pc | report name k outcome pc | dispatch pc =>
    cases pc <;> cases h
    rfl

def inTime (p : Pool ScanQueue Party) : Move Party Reply Int → Bool
  | .act i a => (p.tasks[i]?).all fun t => !t.overruns p.shared a
  | _ => true

/-- **The condition on a step**: no lease of a spent task is released or taken over as expired;
and no tick leases, no failure re-queues and no end of another execution marks as done a task
that is spent, or failed and spent, by then. -/
abbrev InTime (p : Pool ScanQueue Party) (m : Move Party Reply Int) : Prop := inTime p m = true

theorem InTime.not_overruns (hc : InTime p (.act i a)) (ht : p.tasks[i]? = some t) :
    t.overruns p.shared a = false := by
  unfold InTime inTime at hc
  simpa [ht] using hc

/-! ## Counting -/

/-- The leases of a task are counted, and are three at most. -/
structure CountOk (r : ScanTask) : Prop where
  counted : r.attempts = r.leases
  bound : r.leases ≤ maxAttempts
  unspent : r.status = .queued → r.spent = false

structure Counted (s : ScanQueue) : Prop extends Indexed s where
  rows : ∀ r ∈ s.tasks, CountOk r

theorem not_spent : r.spent = false ↔ r.attempts < maxAttempts := by
  simp [ScanTask.spent]

theorem CountOk.lease {name : String} {deadline updatedAt : Int} (h : CountOk r)
    (hspent : r.spent = false) : CountOk (r.lease name deadline updatedAt) where
  counted := congrArg (· + 1) h.counted
  bound := by
    have hlt := not_spent.mp hspent
    have hcounted := h.counted
    show r.leases + 1 ≤ maxAttempts
    omega
  unspent hqueued := by cases hqueued

theorem CountOk.of_eq {r' : ScanTask} (h : CountOk r) (hattempts : r'.attempts = r.attempts)
    (hleases : r'.leases = r.leases) (hstatus : r'.status = .queued → r.spent = false) :
    CountOk r' where
  counted := by rw [hattempts, hleases]; exact h.counted
  bound := hleases ▸ h.bound
  unspent hqueued := by
    unfold ScanTask.spent
    rw [hattempts]
    exact hstatus hqueued

theorem Counted.rewrite {f : ScanTask → ScanTask} (h : Counted s) (hindexed : Indexed s')
    (htasks : s'.tasks = (s.update id f).tasks)
    (hrow : ∀ r, s.task id = some r → CountOk r → CountOk (f r)) : Counted s' where
  toIndexed := hindexed
  rows r hr := by
    rw [htasks] at hr
    rcases mem_update hr with ⟨hr, -⟩ | ⟨r₀, hr₀, rfl, rfl⟩
    · exact h.rows r hr
    · exact hrow r₀ (h.ids.find_self hr₀) (h.rows r₀ hr₀)

theorem PartyStep.counted (h : PartyStep s t a s' t') (hs : Counted s)
    (hc : t.overruns s a = false) : Counted s' := by
  have hindexed := h.indexed hs.toIndexed
  cases h with
  | aside before after same quiet | works k n before after same
  | leaves k n before after same =>
    exact ⟨hindexed, by rw [same.tasks]; exact hs.rows⟩
  | enqueued path digest repositoryId web party ok after state =>
    subst state
    refine ⟨hindexed, fun r hr => ?_⟩
    rcases mem_enqueue hr with ⟨hr, -⟩ | ⟨-, -, -, hattempts, hleases⟩
    · exact hs.rows r hr
    · refine ⟨by rw [hattempts, hleases], by rw [hleases]; exact Nat.zero_le _, fun _ => ?_⟩
      rw [not_spent, hattempts]
      decide
  | released web party ok after state =>
    subst party ok state
    refine ⟨hindexed, fun r hr => ?_⟩
    obtain ⟨x, hx, rfl⟩ := mem_map.mp hr
    split
    · rename_i hexpired
      refine (hs.rows x hx).of_eq rfl rfl fun _ => ?_
      have hno := any_eq_false.mp hc x hx
      simpa [hexpired] using hno
    · exact hs.rows x hx
  | swept party after state =>
    subst state
    exact ⟨hindexed, fun r hr => hs.rows r (mem_filter.mp hr).1⟩
  | checked n k outcome web x party reply row after state =>
    subst state
    exact hs
  | claimed n locked x party reply row after state =>
    subst party reply state
    refine hs.rewrite hindexed rfl fun r hr hok => hok.lease ?_
    -- what is due is queued, or leased and expired
    have hx := hs.ids.find_self (mem_of_find?_eq_some row)
    cases hx.symm.trans hr
    have hdue := find?_some row
    simp only [ScanTask.due, Bool.and_eq_true, Bool.or_eq_true, decide_eq_true_eq] at hdue
    rcases hdue.1.2 with hqueued | ⟨hleased, -⟩
    · exact hok.unspent hqueued
    · simpa [Party.overruns, row, hleased] using hc
  | taken u rest web party reply after state =>
    subst party reply state
    refine hs.rewrite hindexed rfl fun r hr hok => hok.lease ?_
    simpa [Party.overruns, hr] using hc
  | finished k n lastError web finishes ok before after state
  | failed k n message web before after state =>
    subst state
    exact hs.rewrite hindexed rfl fun r _ hok => hok.of_eq rfl rfl fun hqueued => by cases hqueued
  | retried k n message outcome u web party ok after state =>
    subst party ok state
    refine hs.rewrite hindexed rfl fun r hr hok => hok.of_eq rfl rfl fun _ => ?_
    simpa [Party.overruns, hr] using hc

theorem counted_outline : scanProgram.Outline InTime Counted fun _ _ _ => True where
  init s hs := ⟨indexed_empty hs.1, by simp [hs.1]⟩
  spawn _ _ _ _ _ := trivial
  act p i a t s' t' hp hc ht hact :=
    ⟨(partyAct_step (i := i) hact).counted hp.shared (hc.not_overruns ht), trivial⟩
  interfere _ _ _ _ _ _ _ _ _ _ _ _ _ _ := trivial
  env p e s' hp _ he := by
    have he : (if p.shared.now ≤ e then some { p.shared with now := e } else none) = some s' := he
    split at he
    · cases he
      exact ⟨⟨⟨hp.shared.ids, hp.shared.digests, hp.shared.old⟩, hp.shared.rows⟩,
        fun _ _ _ => trivial⟩
    · cases he

/-! ## Failed for good -/

def requeues (digest : String) (p : Pool ScanQueue Party) : Move Party Reply Int → Bool
  | .act i (.ok _) =>
    match p.tasks[i]? with
    | some (.enqueue _ d _ .insert) => decide (d = digest)
    | _ => false
  | _ => false

structure Ended (id : Nat) (digest : String) (s : ScanQueue) : Prop where
  old : id < s.nextId
  rows : ∀ r ∈ s.tasks, r.id = id → r.status = .failed ∧ r.spent = true ∧ r.digest = digest

variable {digest : String}

theorem Ended.found (h : Ended id digest s) (hr : r ∈ s.tasks) (hid : r.id = id) :
    ∃ x, s.task id = some x ∧ x.status = .failed ∧ x.spent = true := by
  cases hx : s.task id with
  | none => exact absurd hid (find_none hx hr)
  | some x =>
    obtain ⟨hmem, hxid⟩ := find_some hx
    obtain ⟨hfailed, hspent, -⟩ := h.rows x hmem hxid
    exact ⟨x, rfl, hfailed, hspent⟩

theorem Ended.update {f : ScanTask → ScanTask} {k : Nat} (h : Ended id digest s)
    (htasks : s'.tasks = (s.update k f).tasks) (hnext : s'.nextId = s.nextId)
    (hid : ∀ r, (f r).id = r.id)
    (hrow : ∀ r ∈ s.tasks, r.id = id → k = id →
      (f r).status = .failed ∧ (f r).spent = true ∧ (f r).digest = digest) :
    Ended id digest s' where
  old := hnext ▸ h.old
  rows r hr hrid := by
    rw [htasks] at hr
    rcases mem_update hr with ⟨hr, -⟩ | ⟨r₀, hr₀, hk, rfl⟩
    · exact h.rows r hr hrid
    · rw [hid] at hrid
      exact hrow r₀ hr₀ hrid (hk.symm.trans hrid)

theorem PartyStep.ended (h : PartyStep s t a s' t') (hs : Ended id digest s)
    (hc : t.overruns s a = false)
    (hrequeue : ∀ path repositoryId web, t = .enqueue path digest repositoryId .insert →
      a ≠ .ok web) : Ended id digest s' := by
  cases h with
  | aside before after same quiet | works k n before after same
  | leaves k n before after same =>
    exact ⟨same.nextId ▸ hs.old, by rw [same.tasks]; exact hs.rows⟩
  | enqueued path d repositoryId web party ok after state =>
    subst party ok state
    have hne : d ≠ digest := by
      rintro rfl
      exact hrequeue path repositoryId web rfl rfl
    refine ⟨?_, fun r hr hid => ?_⟩
    · have hold := hs.old
      unfold enqueueTask
      split
      · show id < s.nextId + 1
        omega
      · show id < s.nextId + 1
        omega
    · unfold enqueueTask at hr
      split at hr
      · rcases mem_append.mp hr with hr | hr
        · exact hs.rows r hr hid
        · rw [mem_singleton.mp hr] at hid
          have hold := hs.old
          have hnew : s.nextId = id := hid
          omega
      · rcases mem_update hr with ⟨hr, -⟩ | ⟨x, hx, hxd, rfl⟩
        · exact hs.rows r hr hid
        · exact absurd (hxd.symm.trans (hs.rows x hx hid).2.2) hne
  | released web party ok after state =>
    subst state
    refine ⟨hs.old, fun r hr hid => ?_⟩
    obtain ⟨x, hx, rfl⟩ := mem_map.mp hr
    by_cases hexpired : x.status = .leased ∧ x.expired s.now = true
    · rw [if_pos hexpired] at hid
      have hfailed := (hs.rows x hx hid).1
      rw [hexpired.1] at hfailed
      cases hfailed
    · rw [if_neg hexpired] at hid ⊢
      exact hs.rows x hx hid
  | swept party after state =>
    subst state
    exact ⟨hs.old, fun r hr => hs.rows r (mem_filter.mp hr).1⟩
  | checked n k outcome web x party reply row after state =>
    subst state
    exact hs
  | claimed n locked x party reply row after state =>
    subst party reply state
    refine hs.update rfl rfl (fun _ => rfl) fun r _ _ hk => ?_
    -- a failed task is not due
    have hfailed := (hs.rows x (mem_of_find?_eq_some row) hk).1
    have hdue := find?_some row
    simp [ScanTask.due, hfailed] at hdue
  | taken u rest web party reply after state =>
    subst party reply state
    refine hs.update rfl rfl (fun _ => rfl) fun r hr hid hk => ?_
    obtain ⟨x, hx, -, hspent⟩ := hs.found hr hid
    simp [Party.overruns, hk, hx, hspent] at hc
  | finished k n lastError web finishes ok before after state =>
    subst ok state
    refine hs.update rfl rfl (fun _ => rfl) fun r hr hid hk => ?_
    obtain ⟨x, hx, hfailed, hspent⟩ := hs.found hr hid
    rw [overruns_of_finishes finishes, hk, hx] at hc
    simp [hfailed, hspent] at hc
  | failed k n message web before after state =>
    subst state
    refine hs.update rfl rfl (fun _ => rfl) fun r hr hid _ => ?_
    obtain ⟨-, hspent, hdigest⟩ := hs.rows r hr hid
    exact ⟨rfl, hspent, hdigest⟩
  | retried k n message outcome u web party ok after state =>
    subst party ok state
    refine hs.update rfl rfl (fun _ => rfl) fun r hr hid hk => ?_
    obtain ⟨x, hx, -, hspent⟩ := hs.found hr hid
    simp [Party.overruns, hk, hx, hspent] at hc

theorem ended_step {m : Move Party Reply Int} (hs : Ended id digest p.shared)
    (hc : InTime p m) (hrequeue : requeues digest p m = false)
    (hstep : scanRuns.step p m = some p') : Ended id digest p'.shared := by
  have hstep : scanProgram.step p m = some p' := hstep
  rcases Program.step_cases hstep with ⟨t, rfl, -, rfl⟩ | ⟨i, a, t, s', t', rfl, ht, hact, rfl⟩ |
      ⟨e, s', rfl, he, rfl⟩
  · exact hs
  · refine (partyAct_step (i := i) hact).ended hs (hc.not_overruns ht) ?_
    rintro path repositoryId web rfl rfl
    simp [requeues, ht] at hrequeue
  · have he : (if p.shared.now ≤ e then some { p.shared with now := e } else none) = some s' := he
    split at he
    · cases he
      exact ⟨hs.old, hs.rows⟩
    · cases he

/-- **A task is handed out three times at most** between two enqueues of its image, and not
again after the third time; when it has failed then, it stays failed until the image is
enqueued. -/
theorem handed_out_thrice (hrun : scanRuns.Run InTime p) :
    (∀ r ∈ p.shared.tasks, r.leases ≤ maxAttempts ∧ (r.leases = maxAttempts → r.status ≠ .queued)) ∧
    ∀ (p' : Pool ScanQueue Party) (r : ScanTask),
      scanRuns.Path (fun q m => InTime q m ∧ requeues r.digest q m = false) p p' →
      r ∈ p.shared.tasks → r.status = .failed → r.leases = maxAttempts →
      ∀ r' ∈ p'.shared.tasks, r'.id = r.id → r'.status = .failed := by
  have hcounted := (counted_outline.run hrun).shared
  refine ⟨fun r hr => ⟨(hcounted.rows r hr).bound, fun hleases hqueued => ?_⟩, ?_⟩
  · have hcount := (hcounted.rows r hr).counted
    have hlt := not_spent.mp ((hcounted.rows r hr).unspent hqueued)
    omega
  · intro p' r hpath hr hfailed hleases r' hr' hid
    have hspent : r.spent = true := by
      have hcount := (hcounted.rows r hr).counted
      exact decide_eq_true (by omega)
    have hended : Ended r.id r.digest p.shared := by
      refine ⟨hcounted.old r hr, fun x hx hxid => ?_⟩
      cases hcounted.ids.eq_of_key hx hr hxid
      exact ⟨hfailed, hspent, rfl⟩
    have hended' := hpath.invariant (Q := fun q => Ended r.id r.digest q.shared)
      (fun q m q' hq hc hs => ended_step hq hc.1 hc.2 hs) hended
    exact (hended'.rows r' hr' hid).1

/-! ## Two runs -/

/-- A worker reports that the scan failed, as the `i`th party. -/
def failImage (i : Nat) (name : String) : List (Move Party Reply Int) :=
  [.spawn (.report name 1 (.failure "out of memory") .check), .act i (.ok 0), .act i (.ok 0),
    .act i (.ok 0)]

/-- An image that no worker can scan fails three times, with a lease that expires in between;
ticks and workers that come later do not get it. -/
theorem handed_out_thrice_then_failed : ∃ p p' : Pool ScanQueue Party,
    (∀ r ∈ p.shared.tasks, r.leases ≤ maxAttempts ∧ (r.leases = maxAttempts → r.status ≠ .queued)) ∧
    (∀ r' ∈ p'.shared.tasks, r'.id = 1 → r'.status = .failed) ∧
    p'.shared.tasks.map (·.leases) = [3] := by
  obtain ⟨p, hp⟩ : ∃ p, scanRuns.replay InTime ⟨emptyQueue, []⟩
      (enqueueImage 0 ++ claimImage 1 "worker-1" ++ handImage 1 ++ failImage 2 "worker-1" ++
        [.env (seconds 100)] ++ claimImage 3 "worker-1" ++ handImage 3 ++
        [.env (seconds 2000)] ++ claimImage 4 "worker-2" ++ handImage 4 ++
        failImage 5 "worker-2" ++ [.act 5 (.ok 0)]) = some p := ⟨_, rfl⟩
  obtain ⟨p', hp'⟩ : ∃ p', scanRuns.replay
      (fun q m => InTime q m ∧ requeues "sha256:ab" q m = false) p
      ([.env (seconds 9000), .spawn (.dispatch .release), .act 6 (.ok 0), .act 6 (.active false),
        .act 6 (.ok 0)] ++ claimImage 7 "worker-1") = some p' := by
    cases hp
    exact ⟨_, rfl⟩
  have hthrice := handed_out_thrice (run_of_replay emptyQueue_init hp)
  refine ⟨p, p', hthrice.1, ?_, ?_⟩
  · have hpath := path_of_replay hp'
    cases hp
    exact hthrice.2 p' _ hpath (mem_singleton_self _) rfl rfl
  · cases hp
    cases hp'
    decide +kernel

/-- A worker that dies reports nothing: its lease expires, and the task is handed out a fourth
time. -/
theorem handed_out_four_times : ∃ p, scanRuns.Reachable p ∧
    ∃ r ∈ p.shared.tasks, maxAttempts < r.leases := by
  obtain ⟨p, hp⟩ : ∃ p, scanRuns.replay (fun _ _ => True) ⟨emptyQueue, []⟩
      (enqueueImage 0 ++ claimImage 1 "worker-1" ++ [.env (seconds 2000)] ++
        claimImage 2 "worker-2" ++ [.env (seconds 4000)] ++ claimImage 3 "worker-1" ++
        [.env (seconds 6000)] ++ claimImage 4 "worker-2") = some p := ⟨_, rfl⟩
  refine ⟨p, run_of_replay emptyQueue_init hp, ?_⟩
  cases hp
  decide +kernel

end Chicoree.Scans
