import Mathlib.Data.List.Perm.Basic
import Chicoree.Storage.Completeness

/-! # Dry runs

A dry run of a migration counts a blob as copied before it looks at the source. What a run
without errors does with a row is determined by what the backends have at its start, in whatever
order the workers take the rows; so a dry run and a real one can be compared row by row. -/

namespace Chicoree.Storage

open Transition Bool List

/-! ## What a run plans for a row -/

inductive Plan where
  /-- A digest the tools cannot verify, or an object that cannot be read. -/
  | fail
  | skip
  | copy (replace : Bool)

section plan

variable (S : Sha256) (job : Job) (b : Blob)

def plan : Plan :=
  if supportedDigest b.digest = false then .fail
  else
    match stat job job.target b.digest .done with
    | none => .fail
    | some none => .copy false
    | some (some size) =>
      if (size : Int) ≠ b.size then .copy true
      else if job.verify = false then .skip
      else
        match job.target.get b.digest with
        | none => .fail
        | some content => if S.digestOf content = b.digest then .skip else .copy true

def copyOutcome (replace : Bool) : Outcome :=
  if job.dryRun then .copied b.size replace
  else
    match job.source.get b.digest with
    | none => .problem .missing
    | some content =>
      if S.digestOf content = b.digest then .copied content.length replace
      else .problem .corrupt

def outcome : Outcome :=
  match plan S job b with
  | .fail => .problem .failed
  | .skip => .skipped
  | .copy replace => copyOutcome S job b replace

end plan

def Job.dry (job : Job) : Job := { job with dryRun := true }

def Job.real (job : Job) : Job := { job with dryRun := false }

/-- The dry run says what the real run does: that it is complete, and which blobs it copies. -/
def Predicts (S : Sha256) (job : Job) : Prop :=
  ∀ p q, (migrate S job.dry).machine.Run ErrorFree p → Finished p →
    (migrate S job.real).machine.Run ErrorFree q → Finished q →
      (p.shared.report.Complete ↔ q.shared.report.Complete) ∧
        ∀ b, b ∈ p.shared.copies ↔ b ∈ q.shared.copies

/-- The source has the content of every blob that is to be copied. -/
def Sourced (S : Sha256) (job : Job) : Prop :=
  ∀ b ∈ job.blobs, ∀ replace, plan S job b = .copy replace → Holds S job.source b.digest

def held (ts : List Worker) : List Blob := ts.filterMap Worker.row

def waiting (p : Pool Migration Worker) : List Blob :=
  p.shared.pending ++ (p.shared.channel ++ held p.tasks)

theorem held_set {ts : List Worker} {i : Nat} {t : Worker} (h : ts[i]? = some t) (t' : Worker) :
    (t.row.toList ++ held (ts.set i t')).Perm (t'.row.toList ++ held ts) := by
  obtain ⟨before, after, rfl, hset⟩ := exists_split h
  have hrow (t : Worker) : held (before ++ t :: after) =
      held before ++ (t.row.toList ++ held after) := by
    unfold held
    rw [filterMap_append, filterMap_cons]
    cases t.row <;> rfl
  rw [hset t', hrow t', hrow t]
  refine perm_iff_count.mpr fun b => ?_
  simp only [count_append]
  omega

/-! ## The ledger of a run -/

/-- What the report and the copies say of a settled row. -/
def Recorded (s : Migration) (b : Blob) : Outcome → Prop
  | .problem _ => ¬s.report.Complete
  | .skipped => True
  | .copied _ _ => b ∈ s.copies

/-- A run without errors: the rows that wait are each there once, with the target as it was, and
every other row is settled as planned. -/
structure Ledger (S : Sha256) (job : Job) (s : Migration) (rows : List Blob) : Prop where
  distinct : (rows.map Blob.digest).Nodup
  mem : ∀ b ∈ rows, b ∈ job.blobs
  untouched : ∀ b ∈ rows, supportedDigest b.digest = true →
    s.target.get b.digest = job.target.get b.digest
  settled : ∀ b ∈ job.blobs, b ∉ rows → Recorded s b (outcome S job b)
  problems : ¬s.report.Complete → ∃ b ∈ job.blobs, ∃ kind, outcome S job b = .problem kind
  copies : ∀ b ∈ s.copies, b ∈ job.blobs ∧ ∃ size replaced, outcome S job b = .copied size replaced
  going : ¬Failed s

/-- What a worker has found out is what was planned. -/
inductive Follows (S : Sha256) (job : Job) : Worker → Prop where
  | idle : Follows S job .idle
  | checking {b : Blob} (hsupported : supportedDigest b.digest = true) :
      Follows S job (.checking b)
  | hashing {b : Blob} {n : Nat} (hsupported : supportedDigest b.digest = true)
      (h : stat job job.target b.digest .done = some (some n)) (hn : (n : Int) = b.size)
      (hverify : job.verify = true) : Follows S job (.hashing b)
  | opening {b : Blob} {replace : Bool} (hsupported : supportedDigest b.digest = true)
      (hplan : outcome S job b = copyOutcome S job b replace) (hreal : job.dryRun = false) :
      Follows S job (.opening b replace)
  | putting {b : Blob} {replace : Bool} {content : List UInt8}
      (hsupported : supportedDigest b.digest = true)
      (hplan : outcome S job b = copyOutcome S job b replace) (hreal : job.dryRun = false)
      (hsource : job.source.get b.digest = some content) :
      Follows S job (.putting b replace content)

section ledger

variable {S : Sha256} {job : Job} {s s' : Migration} {rows rows' : List Blob} {b : Blob}
  {t t' : Worker} {target : Backend} {o : Outcome}

theorem Ledger.perm (h : Ledger S job s rows) (hrows : rows'.Perm rows) : Ledger S job s rows' where
  distinct := (hrows.map Blob.digest).nodup_iff.mpr h.distinct
  mem := fun b hb => h.mem b (hrows.mem_iff.mp hb)
  untouched := fun b hb => h.untouched b (hrows.mem_iff.mp hb)
  settled := fun b hb hnot => h.settled b hb fun hmem => hnot (hrows.mem_iff.mpr hmem)
  problems := h.problems
  copies := h.copies
  going := h.going

theorem Ledger.congr (h : Ledger S job s rows) (htarget : s'.target = s.target)
    (hreport : s'.report.Complete ↔ s.report.Complete) (hcopies : s'.copies = s.copies)
    (hgoing : ¬Failed s') : Ledger S job s' rows where
  distinct := h.distinct
  mem := h.mem
  untouched := htarget ▸ h.untouched
  settled := by
    intro b hb hnot
    have hold := h.settled b hb hnot
    cases ho : outcome S job b with
    | problem kind =>
      rw [ho] at hold
      exact fun hcomplete => hold (hreport.mp hcomplete)
    | skipped => exact True.intro
    | copied size replaced =>
      rw [ho] at hold
      show b ∈ s'.copies
      rw [hcopies]
      exact hold
  problems := fun hcomplete => h.problems fun hold => hcomplete (hreport.mpr hold)
  copies := hcopies ▸ h.copies
  going := hgoing

/-- A row is settled as planned. The rows that still wait have other digests, so that a put of
this one's content does not touch them. -/
theorem Ledger.settle (h : Ledger S job s (b :: rows))
    (htarget : target = s.target ∨ ∃ content, Puts S job s.target target b.digest content) :
    Ledger S job ({ s with target := target }.settle b (outcome S job b)) rows where
  distinct := (nodup_cons.mp h.distinct).2
  mem := fun c hc => h.mem c (mem_cons_of_mem _ hc)
  untouched := by
    intro c hc hsupported
    have hold := h.untouched c (mem_cons_of_mem _ hc) hsupported
    rw [settle_target]
    rcases htarget with rfl | ⟨content, hputs⟩
    · exact hold
    · rcases hputs.get hsupported with hsame | ⟨heq, _⟩
      · exact hsame.trans hold
      · have hmem := mem_map_of_mem (f := Blob.digest) hc
        rw [heq] at hmem
        exact absurd hmem (nodup_cons.mp h.distinct).1
  settled := by
    intro c hc hnot
    by_cases hcb : c = b
    · subst hcb
      cases ho : outcome S job c with
      | problem kind => exact problem_not_complete
      | skipped => exact True.intro
      | copied size replaced => exact mem_append_right _ mem_cons_self
    · have hold := h.settled c hc fun hmem => hnot ((mem_cons.mp hmem).resolve_left hcb)
      cases ho : outcome S job c with
      | problem kind =>
        rw [ho] at hold
        exact fun hcomplete => hold (settle_complete (s := { s with target := target }) hcomplete)
      | skipped => exact True.intro
      | copied size replaced =>
        rw [ho] at hold
        cases outcome S job b with
        | problem kind | skipped => exact hold
        | copied size' replaced' => exact mem_append_left _ hold
  problems := by
    intro hcomplete
    cases ho : outcome S job b with
    | problem kind => exact ⟨b, h.mem b mem_cons_self, kind, ho⟩
    | skipped | copied size replaced =>
      rw [ho] at hcomplete
      exact h.problems hcomplete
  copies := by
    intro c hc
    cases ho : outcome S job b with
    | problem kind | skipped =>
      rw [ho] at hc
      exact h.copies c hc
    | copied size replaced =>
      rw [ho] at hc
      rcases mem_append.mp hc with hc | hc
      · exact h.copies c hc
      · rw [mem_singleton.mp hc]
        exact ⟨h.mem b mem_cons_self, size, replaced, ho⟩
  going := by
    unfold Failed
    rw [settle_returned, settle_cancelled]
    exact h.going

theorem outcome_of_copy {replace : Bool} (h : plan S job b = .copy replace) :
    outcome S job b = copyOutcome S job b replace := by
  unfold outcome
  rw [h]

theorem stat_congr {digest : Text} (h : s.target.get digest = job.target.get digest) :
    stat job s.target digest .done = stat job job.target digest .done := by
  unfold stat
  rw [h]

theorem plan_of_needs {replace : Bool} (hsupported : supportedDigest b.digest = true)
    (hget : s.target.get b.digest = job.target.get b.digest)
    (h : Needs job s b .done replace) : plan S job b = .copy replace := by
  unfold plan
  rw [if_neg (by rw [hsupported]; exact false_ne_true.symm)]
  cases h with
  | absent hstat => rw [stat_congr hget] at hstat; simp only [hstat]
  | size hstat hne => rw [stat_congr hget] at hstat; simp only [hstat, if_pos hne]

theorem plan_of_hashing {n : Nat} (hsupported : supportedDigest b.digest = true)
    (h : stat job job.target b.digest .done = some (some n)) (hn : (n : Int) = b.size)
    (hverify : job.verify = true) : plan S job b =
      match job.target.get b.digest with
      | none => .fail
      | some content => if S.digestOf content = b.digest then .skip else .copy true := by
  unfold plan
  rw [if_neg (by rw [hsupported]; exact false_ne_true.symm)]
  simp only [h, if_neg (not_not.mpr hn), hverify, true_eq_false, if_false]

section

variable (h : Follows S job t)
  (huntouched : ∀ b, t.row = some b → supportedDigest b.digest = true → s.target.get b.digest = job.target.get b.digest)
include h huntouched

theorem Follows.goesOn (hstep : GoesOn S job s t .done t') : Follows S job t' := by
  cases h with
  | idle | putting => cases hstep
  | @checking b hsupported =>
    have hget := huntouched b rfl hsupported
    cases hstep with
    | hash hstat hn hverify =>
      exact .hashing hsupported ((stat_congr hget).symm.trans hstat) hn hverify
    | «open» hneeds hreal =>
      exact .opening hsupported (outcome_of_copy (plan_of_needs hsupported hget hneeds)) hreal
  | @hashing b n hsupported hstat hn hverify =>
    have hget := huntouched b rfl hsupported
    cases hstep with
    | replace hcontent hne hreal =>
      refine .opening hsupported (outcome_of_copy ?_) hreal
      rw [plan_of_hashing hsupported hstat hn hverify, ← hget, hcontent]
      exact if_neg hne
  | opening hsupported hplan hreal =>
    cases hstep with
    | put hsource => exact .putting hsupported hplan hreal hsource

theorem Follows.ends (hstep : Ends S job s t .done b target o) :
    o = outcome S job b ∧
      (target = s.target ∨ ∃ content, Puts S job s.target target b.digest content) := by
  cases h with
  | idle => cases hstep
  | checking hsupported =>
    have hget := huntouched _ rfl hsupported
    cases hstep with
    | statFails hfails => exact absurd rfl hfails
    | trusted hstat hn hverify =>
      rw [stat_congr hget] at hstat
      refine ⟨?_, .inl rfl⟩
      unfold outcome plan
      rw [if_neg (by rw [hsupported]; exact false_ne_true.symm)]
      simp only [hstat, if_neg (not_not.mpr hn), hverify, if_true]
    | plan hneeds hdry =>
      refine ⟨?_, .inl rfl⟩
      rw [outcome_of_copy (plan_of_needs hsupported hget hneeds)]
      unfold copyOutcome
      rw [if_pos hdry]
  | hashing hsupported hstat hn hverify =>
    have hget := huntouched _ rfl hsupported
    have hplan := plan_of_hashing (S := S) hsupported hstat hn hverify
    rw [← hget] at hplan
    cases hstep with
    | hashFails hfails =>
      rw [hfails.resolve_left (not_not.mpr rfl)] at hplan
      refine ⟨?_, .inl rfl⟩
      unfold outcome
      rw [hplan]
    | verified hcontent heq =>
      rw [hcontent] at hplan
      simp only [if_pos heq] at hplan
      refine ⟨?_, .inl rfl⟩
      unfold outcome
      rw [hplan]
    | replan hcontent hne hdry =>
      rw [hcontent] at hplan
      simp only [if_neg hne] at hplan
      refine ⟨?_, .inl rfl⟩
      rw [outcome_of_copy hplan]
      unfold copyOutcome
      rw [if_pos hdry]
  | opening hsupported hplan hreal =>
    cases hstep with
    | missing hnone =>
      refine ⟨?_, .inl rfl⟩
      rw [hplan]
      unfold copyOutcome
      simp only [hreal, false_eq_true, if_false, hnone]
    | openFails hfails => exact absurd rfl hfails
  | putting hsupported hplan hreal hsource =>
    cases hstep with
    | stored heq =>
      refine ⟨?_, .inr ⟨_, rfl, heq, hsource⟩⟩
      rw [hplan]
      unfold copyOutcome
      simp only [hreal, false_eq_true, if_false, hsource, if_pos heq]
    | mismatch hne =>
      refine ⟨?_, .inl rfl⟩
      rw [hplan]
      unfold copyOutcome
      simp only [hreal, false_eq_true, if_false, hsource, if_neg hne]
    | putFails hfails => exact absurd rfl hfails

end

end ledger

/-! ## Runs without errors -/

section run

variable {S : Sha256} {job : Job} {p : Pool Migration Worker}

/-- The ledger of the rows that wait, and workers that follow the plan. -/
structure Tracked (S : Sha256) (job : Job) (p : Pool Migration Worker) : Prop where
  ledger : Ledger S job p.shared (waiting p)
  workers : ∀ t ∈ p.tasks, Follows S job t

theorem Tracked.untouched (h : Tracked S job p) {t : Worker} (ht : t ∈ p.tasks) {b : Blob}
    (hrow : t.row = some b) (hsupported : supportedDigest b.digest = true) :
    p.shared.target.get b.digest = job.target.get b.digest := by
  refine h.ledger.untouched b ?_ hsupported
  have hheld : b ∈ held p.tasks := mem_filterMap.mpr ⟨t, ht, hrow⟩
  exact mem_append_right _ (mem_append_right _ hheld)

theorem Tracked.set {t' : Worker} (h : Tracked S job p) (i : Nat) (hfollows : Follows S job t') :
    ∀ q ∈ p.tasks.set i t', Follows S job q := by
  intro q hq
  rcases mem_or_eq_of_mem_set hq with hq | rfl
  · exact h.workers q hq
  · exact hfollows

theorem tracked (hdistinct : (job.blobs.map Blob.digest).Nodup)
    (hrun : (migrate S job).machine.Run ErrorFree p) : Tracked S job p := by
  refine Machine.Run.invariant (I := Tracked S job) ?_ (fun p m p' _ h hfree hstep => ?_) hrun
  · rintro ⟨s, ts⟩ ⟨rfl, rfl⟩
    refine ⟨?_, fun t ht => nomatch ht⟩
    have hrows : waiting ⟨job.start, []⟩ = job.blobs := append_nil _
    rw [hrows]
    exact
      { distinct := hdistinct
        mem := fun b hb => hb
        untouched := fun b _ _ => rfl
        settled := fun b hb hnot => absurd hb hnot
        problems := fun hnot => absurd ⟨rfl, rfl, rfl⟩ hnot
        copies := fun b hb => nomatch hb
        going := fun hfailed => hfailed.elim (nomatch ·) (nomatch ·) }
  rcases Program.step_cases hstep with ⟨t, rfl, hfresh, rfl⟩ |
      ⟨i, choice, t, s', t', rfl, ht, hact, rfl⟩ | ⟨e, s', rfl, he, rfl⟩
  · have ht : t = .idle := of_decide_eq_true hfresh
    subst ht
    have hrows : waiting ⟨p.shared, p.tasks ++ [.idle]⟩ = waiting p := by
      unfold waiting held
      rw [filterMap_append]
      exact congrArg (fun rows => p.shared.pending ++ (p.shared.channel ++ rows)) (append_nil _)
    refine ⟨hrows ▸ h.ledger, fun q hq => ?_⟩
    rcases mem_append.mp hq with hq | hq
    · exact h.workers q hq
    · rw [mem_singleton.mp hq]
      exact .idle
  · have hdone : choice = .done := hfree
    subst hdone
    have hmem := mem_of_getElem? ht
    have hfollows := h.workers t hmem
    have hheld := held_set ht t'
    have hgoing : p.shared.cancelled = false :=
      eq_false_iff.mpr fun hcancelled => h.ledger.going (.inr hcancelled)
    cases workerStep_cases hact with
    | drops _ hcancelled =>
      rw [hgoing] at hcancelled
      cases hcancelled
    | @takes choice b rest hchannel _ hsupported =>
      refine ⟨?_, h.set i (.checking hsupported)⟩
      have hperm : (waiting ⟨{ p.shared with channel := rest, report := p.shared.report.seen b },
          p.tasks.set i (.checking b)⟩).Perm (waiting p) := by
        unfold waiting
        rw [hchannel]
        refine List.Perm.append_left _ ((List.Perm.append_left rest hheld).trans ?_)
        exact perm_middle
      exact (h.ledger.perm hperm).congr rfl Iff.rfl rfl h.ledger.going
    | @refuses choice b rest hchannel _ hsupported =>
      refine ⟨?_, h.set i .idle⟩
      have hperm : (b :: waiting ⟨{ p.shared with channel := rest }, p.tasks.set i .idle⟩).Perm
          (waiting p) := by
        unfold waiting
        rw [hchannel]
        refine perm_middle.symm.trans (List.Perm.append_left _ ?_)
        exact List.Perm.cons b (List.Perm.append_left rest hheld)
      have hplanned : outcome S job b = .problem .failed := by
        unfold outcome plan
        rw [if_pos hsupported]
      let seen : Migration := { p.shared with channel := rest, report := p.shared.report.seen b }
      have hseen : Ledger S job seen (b :: waiting ⟨seen, p.tasks.set i .idle⟩) :=
        (h.ledger.perm hperm).congr rfl Iff.rfl rfl h.ledger.going
      have hsettled := hseen.settle (.inl rfl)
      rw [hplanned] at hsettled
      exact hsettled
    | @goesOn t t' choice hgoes =>
      refine ⟨?_, h.set i (hfollows.goesOn (fun b => h.untouched hmem) hgoes)⟩
      have hperm : (held (p.tasks.set i t')).Perm (held p.tasks) := by
        rw [hgoes.row] at hheld
        exact (perm_append_left_iff _).mp hheld
      exact h.ledger.perm (List.Perm.append_left _ (List.Perm.append_left _ hperm))
    | @ends t choice b target o hends =>
      refine ⟨?_, h.set i .idle⟩
      obtain ⟨rfl, htarget⟩ := hfollows.ends (fun b => h.untouched hmem) hends
      rw [hends.row] at hheld
      have hperm : (b :: waiting ⟨p.shared, p.tasks.set i .idle⟩).Perm (waiting p) := by
        refine perm_middle.symm.trans (List.Perm.append_left _ ?_)
        exact perm_middle.symm.trans (List.Perm.append_left _ hheld)
      have hsettled := (h.ledger.perm hperm).settle htarget
      have hrows : waiting ⟨{ p.shared with target := target }.settle b (outcome S job b),
          p.tasks.set i .idle⟩ = waiting ⟨p.shared, p.tasks.set i .idle⟩ := by
        unfold waiting
        rw [settle_pending, settle_channel]
      rw [hrows]
      exact hsettled
  · cases surroundings_cases he with
    | @feed b rest hpending =>
      have hperm : (waiting ⟨{ p.shared with pending := rest, channel := p.shared.channel ++ [b] },
          p.tasks⟩).Perm (waiting p) := by
        unfold waiting
        rw [hpending]
        refine perm_iff_count.mpr fun c => ?_
        simp only [count_append, count_cons, count_nil]
        omega
      exact ⟨(h.ledger.perm hperm).congr rfl Iff.rfl rfl h.ledger.going, h.workers⟩
    | @returns err =>
      have herr : err = false := hfree
      refine ⟨h.ledger.congr rfl Iff.rfl rfl ?_, h.workers⟩
      rintro (hreturned | hcancelled)
      · rw [herr] at hreturned
        cases hreturned
      · exact h.ledger.going (.inr hcancelled)
    | cancels => exact False.elim hfree

/-- **What a run without errors comes to** is determined by the backends at its start. -/
theorem Finished.determined (hdistinct : (job.blobs.map Blob.digest).Nodup)
    (hrun : (migrate S job).machine.Run ErrorFree p) (hfinished : Finished p) :
    (p.shared.report.Complete ↔ ∀ b ∈ job.blobs, ∀ kind, outcome S job b ≠ .problem kind) ∧
      ∀ b, b ∈ p.shared.copies ↔
        b ∈ job.blobs ∧ ∃ size replaced, outcome S job b = .copied size replaced := by
  have h := (tracked hdistinct hrun).ledger
  have hreturned : p.shared.returned = some false := by
    cases hr : p.shared.returned with
    | none => exact absurd hr hfinished.returned
    | some err =>
      cases err with
      | true => exact absurd (.inl hr) h.going
      | false => rfl
  have hnone : waiting p = [] := by
    have hpending := ((outline S job _).run hrun).shared.drained hreturned
    have hheld : held p.tasks = [] := by
      refine filterMap_eq_nil_iff.mpr fun t ht => ?_
      rw [hfinished.workers t ht]
      rfl
    unfold waiting
    rw [hpending, hfinished.channel, hheld]
    rfl
  rw [hnone] at h
  refine ⟨⟨fun hcomplete b hb kind ho => ?_, fun hall => ?_⟩, fun b => ⟨h.copies b, ?_⟩⟩
  · have hrecorded := h.settled b hb (not_mem_nil)
    rw [ho] at hrecorded
    exact hrecorded hcomplete
  · by_contra hnot
    obtain ⟨b, hb, kind, ho⟩ := h.problems hnot
    exact hall b hb kind ho
  · rintro ⟨hb, size, replaced, ho⟩
    have hrecorded := h.settled b hb (not_mem_nil)
    rw [ho] at hrecorded
    exact hrecorded

end run

/-! ## A run without errors comes to its end -/

section ending

variable {S : Sha256} {job : Job} {s s' : Migration} {t t' : Worker}

def Worker.rank : Worker → Nat
  | .idle => 0
  | .putting _ _ _ => 1
  | .opening _ _ => 2
  | .hashing _ => 3
  | .checking _ => 4

theorem GoesOn.rank (h : GoesOn S job s t .done t') : t'.rank < t.rank := by
  cases h <;> simp [Worker.rank]

theorem exists_workerStep (ht : t ≠ .idle) : ∃ s' t', workerStep S job s t .done = some (s', t') := by
  cases t with
  | idle => exact absurd rfl ht
  | checking b | hashing b | opening b replace | putting b replace content => exact ⟨_, _, rfl⟩

/-- Besides the target, the report and the copies a state is as another one. -/
structure SameQueue (s' s : Migration) : Prop where
  pending : s'.pending = s.pending
  channel : s'.channel = s.channel
  returned : s'.returned = s.returned
  cancelled : s'.cancelled = s.cancelled

theorem step_worker (h : workerStep S job s t .done = some (s', t')) :
    (migrate S job).machine.step ⟨s, [t]⟩ (.act 0 .done) = some ⟨s', [t']⟩ := by
  have hact : (migrate S job).act s 0 t .done = some (s', t') := h
  show (migrate S job).step ⟨s, [t]⟩ (.act 0 .done) = _
  simp only [Program.step, getElem?_cons_zero, hact, set_cons_zero]

theorem step_event {e : Event} (h : surroundings job s e = some s') :
    (migrate S job).machine.step ⟨s, [t]⟩ (.env e) = some ⟨s', [t]⟩ := by
  have henv : (migrate S job).env s e = some s' := h
  show (migrate S job).step ⟨s, [t]⟩ (.env e) = _
  simp only [Program.step, henv]

theorem exists_row_end (n : Nat) : ∀ {s : Migration} {t : Worker}, t.rank ≤ n →
    (migrate S job).machine.Run ErrorFree ⟨s, [t]⟩ →
      ∃ s', (migrate S job).machine.Run ErrorFree ⟨s', [.idle]⟩ ∧ SameQueue s' s := by
  induction n with
  | zero =>
    intro s t hrank hrun
    cases t with
    | idle => exact ⟨s, hrun, rfl, rfl, rfl, rfl⟩
    | checking | hashing | opening | putting => exact absurd hrank (Nat.not_succ_le_zero _)
  | succ n ih =>
    intro s t hrank hrun
    by_cases ht : t = .idle
    · subst ht
      exact ⟨s, hrun, rfl, rfl, rfl, rfl⟩
    · obtain ⟨s', t', hstep⟩ := exists_workerStep (S := S) (s := s) ht
      have hrun' : (migrate S job).machine.Run ErrorFree ⟨s', [t']⟩ :=
        .step hrun (show ErrorFree _ (.act 0 .done) from rfl) (step_worker hstep)
      cases workerStep_cases hstep with
      | drops | takes | refuses => exact absurd rfl ht
      | goesOn h =>
        have hlt := h.rank
        exact ih (by omega) hrun'
      | ends h =>
        refine ⟨_, hrun', ?_, ?_, ?_, ?_⟩
        · exact settle_pending _ _ _
        · exact settle_channel _ _ _
        · exact settle_returned _ _ _
        · exact settle_cancelled _ _ _

theorem capacity_pos (job : Job) : 0 < job.capacity := by
  unfold Job.capacity defaultWorkers
  split <;> omega

theorem exists_rows_end (rows : List Blob) : ∀ {s : Migration}, s.pending = rows →
    s.channel = [] → s.returned = none → s.cancelled = false →
      (migrate S job).machine.Run ErrorFree ⟨s, [.idle]⟩ →
        ∃ s', (migrate S job).machine.Run ErrorFree ⟨s', [.idle]⟩ ∧ s'.pending = [] ∧
          s'.channel = [] ∧ s'.returned = none := by
  induction rows with
  | nil => exact fun hpending hchannel hreturned _ hrun => ⟨_, hrun, hpending, hchannel, hreturned⟩
  | cons b rows ih =>
    intro s hpending hchannel hreturned hcancelled hrun
    let fed : Migration := { s with pending := rows, channel := [b] }
    have hfeed : (migrate S job).machine.step ⟨s, [.idle]⟩ (.env .feed) = some ⟨fed, [.idle]⟩ := by
      have hcapacity := capacity_pos job
      have hroom : s.returned = none ∧ (s.channel.length : Int) < job.capacity := by
        rw [hchannel]
        exact ⟨hreturned, hcapacity⟩
      have hfed : surroundings job s .feed = some fed := by
        unfold surroundings
        simp only [hpending]
        rw [if_pos hroom, hchannel]
        rfl
      exact step_event hfed
    have hrun : (migrate S job).machine.Run ErrorFree ⟨fed, [.idle]⟩ :=
      .step hrun (show ErrorFree _ (.env .feed) from True.intro) hfeed
    obtain ⟨taken, t, htake⟩ : ∃ s' t', workerStep S job fed .idle .done = some (s', t') :=
      ⟨_, _, rfl⟩
    have hrun' : (migrate S job).machine.Run ErrorFree ⟨taken, [t]⟩ :=
      .step hrun (show ErrorFree _ (.act 0 .done) from rfl) (step_worker htake)
    have htaken : SameQueue taken { fed with channel := [] } := by
      cases workerStep_cases htake with
      | drops hfed hgoes =>
        rw [show fed.cancelled = false from hcancelled] at hgoes
        cases hgoes
      | takes hfed _ _ => cases hfed; exact ⟨rfl, rfl, rfl, rfl⟩
      | refuses hfed _ _ =>
        cases hfed
        exact ⟨settle_pending _ _ _, settle_channel _ _ _, settle_returned _ _ _,
          settle_cancelled _ _ _⟩
      | goesOn h | ends h => cases h
    obtain ⟨s', hrun', hsame⟩ := exists_row_end t.rank (Nat.le_refl _) hrun'
    exact ih (hsame.pending.trans htaken.pending) (hsame.channel.trans htaken.channel)
      ((hsame.returned.trans htaken.returned).trans hreturned)
      ((hsame.cancelled.trans htaken.cancelled).trans hcancelled) hrun'

theorem exists_finished (S : Sha256) (job : Job) :
    ∃ p, (migrate S job).machine.Run ErrorFree p ∧ Finished p := by
  have hinit : (migrate S job).machine.init ⟨job.start, []⟩ := ⟨rfl, rfl⟩
  have hstart : (migrate S job).machine.Run ErrorFree ⟨job.start, [.idle]⟩ :=
    .step (.init hinit) (show ErrorFree _ (.spawn .idle) from True.intro) rfl
  obtain ⟨s, hrun, hpending, hchannel, hreturned⟩ :=
    exists_rows_end job.blobs rfl rfl rfl rfl hstart
  have hreturns : (migrate S job).machine.step ⟨s, [.idle]⟩ (.env (.sourceReturns false)) =
      some ⟨{ s with returned := some false }, [.idle]⟩ := by
    exact step_event (if_pos ⟨hreturned, .inr hpending⟩)
  have hend : (migrate S job).machine.Run ErrorFree
      ⟨{ s with returned := some false }, [.idle]⟩ :=
    .step hrun (show ErrorFree _ (.env (.sourceReturns false)) from rfl) hreturns
  exact ⟨_, hend, nofun, hchannel, fun t ht => mem_singleton.mp ht⟩

end ending

/-! ## Dry and real -/

section predicts

variable {S : Sha256} {job : Job} {b : Blob} {replace : Bool}

theorem outcome_dry : outcome S job.dry b =
    match plan S job b with
    | .fail => .problem .failed
    | .skip => .skipped
    | .copy replace => .copied b.size replace := by
  show (match plan S job b with
    | .fail => Outcome.problem .failed
    | .skip => .skipped
    | .copy replace => copyOutcome S job.dry b replace) = _
  cases plan S job b <;> rfl

theorem outcome_real : outcome S job.real b =
    match plan S job b with
    | .fail => .problem .failed
    | .skip => .skipped
    | .copy replace =>
      match job.source.get b.digest with
      | none => .problem .missing
      | some content =>
        if S.digestOf content = b.digest then .copied content.length replace
        else .problem .corrupt := by
  show (match plan S job b with
    | .fail => Outcome.problem .failed
    | .skip => .skipped
    | .copy replace => copyOutcome S job.real b replace) = _
  cases plan S job b <;> rfl

theorem real_copied_iff (hplan : plan S job b = .copy replace) :
    (∃ size replaced, outcome S job.real b = .copied size replaced) ↔
      Holds S job.source b.digest := by
  rw [outcome_real, hplan]
  unfold Holds
  cases hsource : job.source.get b.digest with
  | none => exact iff_of_false (fun ⟨_, _, h⟩ => nomatch h) (fun ⟨_, h, _⟩ => nomatch h)
  | some content =>
    by_cases heq : S.digestOf content = b.digest
    · simp only [if_pos heq]
      exact iff_of_true ⟨_, _, rfl⟩ ⟨content, rfl, heq⟩
    · simp only [if_neg heq]
      exact iff_of_false (fun ⟨_, _, h⟩ => nomatch h)
        (fun ⟨found, h, hhash⟩ => heq (Option.some.inj h ▸ hhash))

theorem real_problem_iff (hplan : plan S job b = .copy replace) :
    (∃ kind, outcome S job.real b = .problem kind) ↔ ¬Holds S job.source b.digest := by
  rw [← real_copied_iff hplan, outcome_real, hplan]
  cases job.source.get b.digest with
  | none => exact iff_of_true ⟨_, rfl⟩ (fun ⟨_, _, h⟩ => nomatch h)
  | some content =>
    by_cases heq : S.digestOf content = b.digest
    · simp only [if_pos heq]
      exact iff_of_false (fun ⟨_, h⟩ => nomatch h) (fun hnot => hnot ⟨_, _, rfl⟩)
    · simp only [if_neg heq]
      exact iff_of_true ⟨_, rfl⟩ (fun ⟨_, _, h⟩ => nomatch h)

theorem outcomes_agree (hsourced : Sourced S job) (hb : b ∈ job.blobs) :
    ((∃ kind, outcome S job.dry b = .problem kind) ↔ ∃ kind, outcome S job.real b = .problem kind) ∧
      ((∃ size replaced, outcome S job.dry b = .copied size replaced) ↔
        ∃ size replaced, outcome S job.real b = .copied size replaced) := by
  cases hplan : plan S job b with
  | fail | skip => rw [outcome_dry, outcome_real, hplan]; exact ⟨Iff.rfl, Iff.rfl⟩
  | copy replace =>
    have hholds := hsourced b hb replace hplan
    rw [real_problem_iff hplan, real_copied_iff hplan, outcome_dry, hplan]
    exact ⟨iff_of_false (fun ⟨_, h⟩ => nomatch h) (fun hnot => hnot hholds),
      iff_of_true ⟨_, _, rfl⟩ hholds⟩

end predicts

/-- A dry run predicts the real one exactly if the source has, uncorrupted, every blob that is to
be copied. -/
theorem dryRun_predicts_iff (S : Sha256) (job : Job)
    (hdistinct : (job.blobs.map Blob.digest).Nodup) : Predicts S job ↔ Sourced S job := by
  have hdry : (job.dry.blobs.map Blob.digest).Nodup := hdistinct
  have hreal : (job.real.blobs.map Blob.digest).Nodup := hdistinct
  constructor
  · intro hpredicts b hb replace hplan
    obtain ⟨p, hp, hpend⟩ := exists_finished S job.dry
    obtain ⟨q, hq, hqend⟩ := exists_finished S job.real
    have hcopies := (hpredicts p q hp hpend hq hqend).2 b
    have hcounted : b ∈ p.shared.copies := by
      refine ((hpend.determined hdry hp).2 b).mpr ⟨hb, b.size, replace, ?_⟩
      rw [outcome_dry, hplan]
    have hcopied := (((hqend.determined hreal hq).2 b).mp (hcopies.mp hcounted)).2
    exact (real_copied_iff hplan).mp hcopied
  · intro hsourced p q hp hpend hq hqend
    obtain ⟨hpcomplete, hpcopies⟩ := hpend.determined hdry hp
    obtain ⟨hqcomplete, hqcopies⟩ := hqend.determined hreal hq
    refine ⟨?_, fun b => ?_⟩
    · rw [hpcomplete, hqcomplete]
      refine forall₂_congr fun b hb => ?_
      have hagree := not_congr (outcomes_agree hsourced hb).1
      rw [not_exists, not_exists] at hagree
      exact hagree
    · rw [hpcopies, hqcopies]
      exact and_congr_right fun hb => (outcomes_agree hsourced hb).2

theorem dryRun_predicts_twoBlobs : Predicts emptySha256 twoBlobJob := by
  refine (dryRun_predicts_iff emptySha256 twoBlobJob (by decide +kernel)).mpr fun b hb _ _ => ?_
  have hholds : ∀ b ∈ twoBlobJob.blobs, ∃ content ∈ [[], [0]],
      twoBlobJob.source.get b.digest = some content ∧ emptySha256.digestOf content = b.digest := by
    decide +kernel
  obtain ⟨content, -, hcontent⟩ := hholds b hb
  exact ⟨content, hcontent⟩

def lostBlobJob : Job := { emptyBlobJob with source := emptyBlobJob.target }

/-- The dry run counts the lost blob as one to copy and calls the migration complete. -/
theorem dryRun_lostBlob : ¬Predicts emptySha256 lostBlobJob := by
  intro hpredicts
  obtain ⟨p, hp, hpend⟩ := exists_finished emptySha256 lostBlobJob.dry
  obtain ⟨q, hq, hqend⟩ := exists_finished emptySha256 lostBlobJob.real
  have hdry : (lostBlobJob.dry.blobs.map Blob.digest).Nodup := by decide
  have hreal : (lostBlobJob.real.blobs.map Blob.digest).Nodup := by decide
  have hcomplete : p.shared.report.Complete := by
    refine ((hpend.determined hdry hp).1).mpr fun b hb kind => ?_
    rw [mem_singleton.mp hb]
    have hcopied : outcome emptySha256 lostBlobJob.dry ⟨emptySha256.digestOf [], 0⟩ =
        .copied 0 false := by decide +kernel
    rw [hcopied]
    exact nofun
  have hincomplete : ¬q.shared.report.Complete := by
    intro hcomplete
    have hmissing : outcome emptySha256 lostBlobJob.real ⟨emptySha256.digestOf [], 0⟩ =
        .problem .missing := by decide +kernel
    exact ((hqend.determined hreal hq).1).mp hcomplete _ mem_cons_self _ hmissing
  exact hincomplete ((hpredicts p q hp hpend hq hqend).1.mp hcomplete)

end Chicoree.Storage
