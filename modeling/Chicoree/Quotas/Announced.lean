import Chicoree.Quotas.BreachRuns

/-! # Nothing is pruned unannounced

A row of `quota_breaches` is as good as the notices behind it: with its first date a first
notice was sent, with its second a reminder after that, and both since the target was last
found within its limit. -/

namespace Chicoree.Quotas

open Transition List Option Table
open Registryd (OrgId)

/-! ## Rows and notices -/

variable {o : EnforceOpts} {n : Notice} {t : Target}

section told

variable {bound bound' : Nat} {log : List Entry} {r r' : BreachRow} {t : Target} {e : Entry}

/-- The first notice to the target, with the date of a row that began then. -/
def FirstNotice (bound : Nat) (t : Target) (firstOverAt : Int) (log : List Entry) : Prop :=
  ∃ n d g, .notice n t .first d g ∈ log ∧ n < bound ∧ d = firstOverAt + (g : Nat)

def Reminder (bound : Nat) (t : Target) (firstOverAt : Int) (log : List Entry) : Prop :=
  ∃ post mid n d g, log = post ++ .notice n t .reminder d g :: mid ∧
    d = firstOverAt + (g : Nat) ∧ FirstNotice bound t firstOverAt mid

/-- The notices that the dates of a row stand for. -/
structure RowTold (bound : Nat) (log : List Entry) (r : BreachRow) : Prop where
  notified : r.notifiedAt.isSome → FirstNotice bound r.target r.firstOverAt
    (sinceWithin r.target log)
  reminded : r.finalNoticeAt.isSome → Reminder bound r.target r.firstOverAt
    (sinceWithin r.target log)

variable {firstOverAt : Int}

theorem FirstNotice.mono (hle : bound ≤ bound')
    (h : FirstNotice bound t firstOverAt log) : FirstNotice bound' t firstOverAt log := by
  obtain ⟨n, d, g, hmem, hn, hd⟩ := h
  exact ⟨n, d, g, hmem, by omega, hd⟩

theorem RowTold.mono (hle : bound ≤ bound') (h : RowTold bound log r) : RowTold bound' log r := by
  constructor
  · intro hsome
    exact (h.notified hsome).mono hle
  · intro hsome
    obtain ⟨post, mid, n, d, g, hlog, hd, hfirst⟩ := h.reminded hsome
    exact ⟨post, mid, n, d, g, hlog, hd, hfirst.mono hle⟩

theorem FirstNotice.cons (h : FirstNotice bound t firstOverAt log) :
    FirstNotice bound t firstOverAt (e :: log) := by
  obtain ⟨n, d, g, hmem, hn, hd⟩ := h
  exact ⟨n, d, g, mem_cons_of_mem _ hmem, hn, hd⟩

theorem Reminder.cons (h : Reminder bound t firstOverAt log) :
    Reminder bound t firstOverAt (e :: log) := by
  obtain ⟨post, mid, n, d, g, hlog, hd, hfirst⟩ := h
  exact ⟨e :: post, mid, n, d, g, by rw [hlog]; rfl, hd, hfirst⟩

theorem sinceWithin_cons (h : e.within t = false) :
    sinceWithin t (e :: log) = e :: sinceWithin t log := by
  unfold sinceWithin
  rw [takeWhile_cons_of_pos]
  rw [h]
  rfl

theorem RowTold.cons (he : e.within r.target = false) (h : RowTold bound log r) :
    RowTold bound (e :: log) r := by
  constructor
  · intro hsome
    rw [sinceWithin_cons he]
    exact (h.notified hsome).cons
  · intro hsome
    rw [sinceWithin_cons he]
    exact (h.reminded hsome).cons

theorem RowTold.new (hfirst : r.notifiedAt = none) (hreminder : r.finalNoticeAt = none) :
    RowTold bound log r := by
  constructor
  · intro hsome
    rw [hfirst] at hsome
    cases hsome
  · intro hsome
    rw [hreminder] at hsome
    cases hsome

def Sent (bound : Nat) (t : Target) (firstOverAt : Int) (log : List Entry) : Notice → Prop
  | .first => FirstNotice bound t firstOverAt (sinceWithin t log)
  | .reminder => Reminder bound t firstOverAt (sinceWithin t log)

theorem RowTold.noted (h : RowTold bound log r) (hsent : Sent bound r.target r.firstOverAt log n) :
    RowTold bound log (o.notedRow n r) := by
  cases n with
  | first => exact ⟨fun _ => hsent, h.reminded⟩
  | reminder => exact ⟨h.notified, fun _ => hsent⟩

/-- A row is told of what its dates came from, so the date of each notice has come with that
of the row, if the grace period has not become shorter. -/
theorem RowTold.announced (h : RowTold bound log r)
    (hfinal : r.finalNoticeAt.isSome) (hgrace : graceKept r.target o.grace log = true)
    (hdue : o.pruneAt r ≤ o.now) : AnnouncedTo r.target o.now bound log := by
  obtain ⟨post, mid, n, d, g, hlog, hd, n', d', g', hmem, hn', hd'⟩ := h.reminded hfinal
  have hkept (k : Nat) (kind : Notice) (x : Int) (y : Nat)
      (hin : .notice k r.target kind x y ∈ sinceWithin r.target log) : y ≤ o.grace := by
    have hall := all_eq_true.mp hgrace _ hin
    exact of_decide_eq_true hall rfl
  have hg : g ≤ o.grace := hkept n .reminder d g (by rw [hlog]; simp)
  have hg' : g' ≤ o.grace := by
    refine hkept n' .first d' g' ?_
    rw [hlog]
    exact mem_append_right _ (mem_cons_of_mem _ hmem)
  unfold EnforceOpts.pruneAt at hdue
  exact ⟨post, mid, n, d, g, n', d', g', hlog, hmem, hn', by omega, by omega⟩

end told

/-! ## What a run knows -/

section stages

variable {localeCompare : String → String → Ordering} {s s' : EnforceState} {run : EnforceRun}
  {number : Nat} {known : List BreachRow} {b : Breach} {row : BreachRow} {todo : List Breach}

/-- Rows of one target began at one time. -/
def SameStart (rows known : List BreachRow) : Prop :=
  ∀ r ∈ rows, ∀ k ∈ known, r.target = k.target → r.firstOverAt = k.firstOverAt

/-- What a real run relies on for the breaches that are left. -/
structure Ready (rows : List BreachRow) (log : List Entry) (number : Nat)
    (known : List BreachRow) (todo : List Breach) : Prop where
  told : ∀ k ∈ known, ∀ b ∈ todo, k.target = b.target → RowTold number log k
  agree : SameStart rows known

structure AtRow (rows : List BreachRow) (log : List Entry) (number : Nat) (b : Breach)
    (row : BreachRow) : Prop where
  target : row.target = b.target
  told : RowTold number log row
  agree : ∀ r ∈ rows, r.target = b.target → r.firstOverAt = row.firstOverAt

def EnforceStage.writes : EnforceStage → Bool
  | .notify _ _ _ _ _ | .noted _ _ _ _ _ | .prune _ _ _ _ _ | .pruned _ _ _ => true
  | _ => false

def StageOk (rows : List BreachRow) (log : List Entry) (number : Nat) (o : EnforceOpts) :
    EnforceStage → Prop
  | .findBreaches => ∀ r ∈ rows, RowTold number log r
  | .findKnown organizations _ =>
    organizations.isSome = o.organizationSlug.isSome ∧ ∀ r ∈ rows, RowTold number log r
  | .forget organizations breaches known todo =>
    organizations.isSome = o.organizationSlug.isSome ∧
      (∀ k ∈ known, RowTold number log k) ∧ SameStart rows known ∧
        ∀ r ∈ rows, r.target ∈ todo.map BreachRow.target ∨ o.forgets breaches r = false
  | .breach known todo => o.dryRun = false → Ready rows log number known todo
  | .notify known b row n todo =>
    Ready rows log number known todo ∧ AtRow rows log number b row ∧ o.noticeDue row = some n
  | .noted known b row n todo =>
    Ready rows log number known todo ∧ AtRow rows log number b row ∧
      Sent (number + 1) b.target row.firstOverAt log n
  | .loadScope known b row todo =>
    o.pruneAt row ≤ o.now ∧
      (o.dryRun = false → Ready rows log number known todo ∧ AtRow rows log number b row)
  | .prune known b _ _ todo =>
    Ready rows log number known todo ∧ AnnouncedTo b.target o.now number log
  | .pruned known _ todo => Ready rows log number known todo

structure Inv (s : EnforceState) : Prop where
  keyed : Table.Keyed BreachRow.target s.rows
  told : ∀ r ∈ s.rows, RowTold s.begun s.log r
  active : ∀ run, s.active = some run → run.number < s.begun ∧
    StageOk s.rows s.log run.number run.opts run.stage ∧
    (run.stage.writes = true → run.opts.dryRun = false)

variable {organizations : Option (List OrgId)} {breaches : List Breach} {r : BreachRow}

theorem not_within_of_kept (hscope : organizations.isSome =
      o.organizationSlug.isSome) (hreal : o.dryRun = false)
    (hkept : o.forgets breaches r = false) :
    (Entry.looked organizations (breaches.map Breach.target)).within r.target = false := by
  unfold EnforceOpts.forgets at hkept
  simp only [hreal, Bool.not_false, Bool.and_true, Bool.and_eq_false_iff, Bool.not_eq_false',
    Bool.and_eq_true] at hkept
  show (covers organizations r.target && !(breaches.map Breach.target).contains r.target) = false
  rcases hkept with ⟨hslug, htype⟩ | hover
  · rw [hslug] at hscope
    obtain ⟨ids, rfl⟩ := isSome_iff_exists.mp hscope
    have hne : r.target.1 ≠ .organization := of_decide_eq_true htype
    simp [covers, hne]
  · rw [hover]
    simp

theorem forgets_congr {k : BreachRow}
    (h : r.target = k.target) : o.forgets breaches r = o.forgets breaches k := by
  have htype : r.targetType = k.targetType := congrArg Prod.fst h
  unfold EnforceOpts.forgets
  rw [htype, h]

variable {rows : List BreachRow}

variable {f : BreachRow → BreachRow}

theorem SameStart.update (h : SameStart rows known) (htarget : ∀ r, (f r).target = r.target)
    (hfirst : ∀ r, (f r).firstOverAt = r.firstOverAt) :
    SameStart (Table.update BreachRow.target t f rows) known := by
  intro r hr k hk heq
  rcases mem_update hr with ⟨hr, -⟩ | ⟨q, hq, -, rfl⟩
  · exact h r hr k hk heq
  · rw [hfirst]
    exact h q hq k hk (htarget q ▸ heq)

variable {bound : Nat} {log : List Entry}

theorem told_update (h : ∀ r ∈ rows, RowTold bound log r)
    (hf : ∀ r ∈ rows, r.target = t → RowTold bound log (f r)) :
    ∀ r ∈ Table.update BreachRow.target t f rows, RowTold bound log r := by
  intro r hr
  rcases mem_update hr with ⟨hr, -⟩ | ⟨q, hq, hqt, rfl⟩
  · exact h r hr
  · exact hf q hq hqt

theorem keyed_update (h : Table.Keyed BreachRow.target rows)
    (htarget : ∀ r, (f r).target = r.target) :
    Table.Keyed BreachRow.target (Table.update BreachRow.target t f rows) := by
  unfold Table.Keyed
  rw [keys_update htarget]
  exact h

theorem notedRow_target (o : EnforceOpts) (n : Notice) (r : BreachRow) :
    (o.notedRow n r).target = r.target ∧ (o.notedRow n r).firstOverAt = r.firstOverAt := by
  cases n with
  | first | reminder => exact ⟨rfl, rfl⟩

theorem AtRow.update (h : AtRow rows log number b row)
    (hfirst : ∀ r, (f r).firstOverAt = r.firstOverAt) :
    AtRow (Table.update BreachRow.target b.target f rows) log number b row := by
  refine ⟨h.target, h.told, fun r hr heq => ?_⟩
  rcases mem_update hr with ⟨hr, -⟩ | ⟨q, hq, hqt, rfl⟩
  · exact h.agree r hr heq
  · rw [hfirst]
    exact h.agree q hq hqt

theorem Ready.update (h : Ready rows log number known todo) (htarget : ∀ r, (f r).target = r.target)
    (hfirst : ∀ r, (f r).firstOverAt = r.firstOverAt) :
    Ready (Table.update BreachRow.target t f rows) log number known todo :=
  ⟨h.told, h.agree.update htarget hfirst⟩

theorem Ready.rest (h : Ready rows log number known (b :: todo)) :
    Ready rows log number known todo :=
  ⟨fun k hk x hx heq => h.told k hk x (mem_cons_of_mem _ hx) heq, h.agree⟩

section

variable {log : List Entry}
  (h : run.opts.dryRun = false → Ready rows log run.number known todo ∧ AtRow rows log run.number b row)
include h

theorem stageOk_afterNotices :
    StageOk rows log run.number run.opts (run.opts.afterNotices known b row todo) ∧
      (run.opts.afterNotices known b row todo).writes = false := by
  unfold EnforceOpts.afterNotices
  split
  · exact ⟨fun hreal => (h hreal).1, rfl⟩
  · rename_i hdue
    exact ⟨⟨Int.not_lt.mp hdue, h⟩, rfl⟩

theorem stageOk_afterRow :
    StageOk rows log run.number run.opts (run.opts.afterRow known b row todo) ∧
      ((run.opts.afterRow known b row todo).writes = true → run.opts.dryRun = false) := by
  obtain ⟨hafter, hreads⟩ := stageOk_afterNotices h
  have hstays : (run.opts.afterNotices known b row todo).writes = true →
      run.opts.dryRun = false := by
    intro hwrites
    rw [hreads] at hwrites
    cases hwrites
  unfold EnforceOpts.afterRow
  split
  · rename_i n hnotice
    split
    · exact ⟨hafter, hstays⟩
    · rename_i hreal
      have hreal : run.opts.dryRun = false := Bool.not_eq_true _ ▸ hreal
      obtain ⟨hready, hrow⟩ := h hreal
      exact ⟨⟨hready, hrow, hnotice⟩, fun _ => hreal⟩
  · exact ⟨hafter, hstays⟩

end

/-! ### One step -/

/-- What a step leaves: the rows are told, and the stage it comes to is right. -/
structure After (s' : EnforceState) (run : EnforceRun) (next : Option EnforceStage) : Prop where
  keyed : Table.Keyed BreachRow.target s'.rows
  told : ∀ r ∈ s'.rows, RowTold s'.begun s'.log r
  stage : ∀ stage, next = some stage → StageOk s'.rows s'.log run.number run.opts stage ∧
    (stage.writes = true → run.opts.dryRun = false)

theorem RowTold.seen (h : RowTold bound log r) : RowTold bound log (o.seenRow b r) :=
  ⟨h.notified, h.reminded⟩

theorem RowTold.pruned (h : RowTold bound log r) : RowTold bound log (o.prunedRow r) :=
  ⟨h.notified, h.reminded⟩

variable {ok : Bool}

theorem forget_after {todo : List BreachRow} (hinv : Inv s)
    (h : StageOk s.rows s.log run.number run.opts (.forget organizations breaches known todo))
    (hstage : run.stage = .forget organizations breaches known todo) :
    After (enforceStep localeCompare s run ok).1 run
      (enforceStep localeCompare s run ok).2 := by
  obtain ⟨hscope, hknown, hagree, hrows⟩ := h
  unfold enforceStep
  rw [hstage]
  cases todo with
  | nil =>
    have hkept (r : BreachRow) (hr : r ∈ s.rows) : run.opts.forgets breaches r = false :=
      (hrows r hr).resolve_left nofun
    cases hreal : run.opts.dryRun with
    | true =>
      simp only [hreal, if_true]
      refine ⟨hinv.keyed, hinv.told, fun stage heq => ?_⟩
      cases heq
      refine ⟨fun hno => ?_, nofun⟩
      rw [hreal] at hno
      cases hno
    | false =>
      simp only [hreal, Bool.false_eq_true, if_false]
      refine ⟨hinv.keyed, fun r hr => ?_, fun stage heq => ?_⟩
      · exact (hinv.told r hr).cons (not_within_of_kept hscope hreal (hkept r hr))
      · cases heq
        refine ⟨fun _ => ⟨fun k hk b hb heq => ?_, hagree⟩, nofun⟩
        have hover : (breaches.map Breach.target).contains k.target = true := by
          rw [heq, contains_iff_mem]
          exact mem_map_of_mem hb
        refine (hknown k hk).cons ?_
        show (covers organizations k.target &&
          !(breaches.map Breach.target).contains k.target) = false
        rw [hover]
        simp
  | cons k todo =>
    simp only
    cases hforgets : run.opts.forgets breaches k with
    | true =>
      simp only [if_true]
      refine ⟨hinv.keyed.filter _, fun r hr => ?_, fun stage heq => ?_⟩
      · exact hinv.told r (mem_filter.mp hr).1
      · cases heq
        refine ⟨⟨hscope, hknown, ?_, fun r hr => ?_⟩, nofun⟩
        · exact fun r hr => hagree r (mem_filter.mp hr).1
        · obtain ⟨hr, hne⟩ := mem_filter.mp hr
          rcases hrows r hr with hmem | hkept
          · rcases mem_cons.mp hmem with heq | hmem
            · exact absurd heq (of_decide_eq_true hne)
            · exact .inl hmem
          · exact .inr hkept
    | false =>
      simp only [Bool.false_eq_true, if_false]
      refine ⟨hinv.keyed, hinv.told, fun stage heq => ?_⟩
      cases heq
      refine ⟨⟨hscope, hknown, hagree, fun r hr => ?_⟩, nofun⟩
      rcases hrows r hr with hmem | hkept
      · rcases mem_cons.mp hmem with heq | hmem
        · exact .inr ((forgets_congr heq).trans hforgets)
        · exact .inl hmem
      · exact .inr hkept

theorem breach_after (hinv : Inv s)
    (h : StageOk s.rows s.log run.number run.opts (.breach known todo))
    (hstage : run.stage = .breach known todo) :
    After (enforceStep localeCompare s run ok).1 run
      (enforceStep localeCompare s run ok).2 := by
  unfold enforceStep
  rw [hstage]
  cases todo with
  | nil => exact ⟨hinv.keyed, hinv.told, fun stage heq => by cases heq⟩
  | cons b todo =>
    simp only
    cases hfind : Table.find BreachRow.target b.target known with
    | none =>
      have hnone (k : BreachRow) (hk : k ∈ known) : k.target ≠ b.target := find_none hfind hk
      cases hreal : run.opts.dryRun with
      | true =>
        simp only [if_true]
        refine ⟨hinv.keyed, hinv.told, fun stage heq => ?_⟩
        cases heq
        refine stageOk_afterRow fun hno => ?_
        rw [hreal] at hno
        cases hno
      | false =>
        simp only [Bool.false_eq_true, if_false]
        split
        · exact ⟨hinv.keyed, hinv.told, fun stage heq => by cases heq⟩
        · rename_i hthere
          have hother (r : BreachRow) (hr : r ∈ s.rows) : r.target ≠ b.target := by
            intro heq
            exact hthere (any_eq_true.mpr ⟨r, hr, decide_eq_true heq⟩)
          have hnew : (run.opts.newRow b).target = b.target := rfl
          refine ⟨hinv.keyed.append hother, fun r hr => ?_, fun stage heq => ?_⟩
          · rcases mem_append.mp hr with hr | hr
            · exact hinv.told r hr
            · rw [mem_singleton.mp hr]
              exact .new rfl rfl
          · cases heq
            refine stageOk_afterRow fun hno => ?_
            obtain ⟨htold, hagree⟩ := (h hno).rest
            refine ⟨⟨htold, fun r hr k hk heq => ?_⟩, hnew, .new rfl rfl, fun r hr heq => ?_⟩
            · rcases mem_append.mp hr with hr | hr
              · exact hagree r hr k hk heq
              · rw [mem_singleton.mp hr] at heq
                exact absurd (heq.symm.trans hnew) (hnone k hk)
            · rcases mem_append.mp hr with hr | hr
              · exact absurd heq (hother r hr)
              · rw [mem_singleton.mp hr]
    | some row =>
      obtain ⟨hmem, htarget⟩ := find_some hfind
      have hrow (hno : run.opts.dryRun = false) : AtRow s.rows s.log run.number b row :=
        ⟨htarget, (h hno).told row hmem b (mem_cons_self ..) htarget,
          fun r hr heq => (h hno).agree r hr row hmem (heq.trans htarget.symm)⟩
      cases hreal : run.opts.dryRun with
      | true =>
        simp only [if_true]
        refine ⟨hinv.keyed, hinv.told, fun stage heq => ?_⟩
        cases heq
        refine stageOk_afterRow fun hno => ?_
        rw [hreal] at hno
        cases hno
      | false =>
        simp only [Bool.false_eq_true, if_false]
        refine ⟨keyed_update hinv.keyed fun _ => rfl, ?_, fun stage heq => ?_⟩
        · exact told_update hinv.told fun r hr _ => (hinv.told r hr).seen
        · cases heq
          refine stageOk_afterRow fun hno => ?_
          exact ⟨(h hno).rest.update (fun _ => rfl) fun _ => rfl, (hrow hno).update fun _ => rfl⟩

variable {e : Entry}

theorem Ready.cons (h : Ready rows log number known todo) (he : ∀ t, e.within t = false) :
    Ready rows (e :: log) number known todo :=
  ⟨fun k hk b hb heq => (h.told k hk b hb heq).cons (he _), h.agree⟩

theorem AtRow.cons (h : AtRow rows log number b row) (he : ∀ t, e.within t = false) :
    AtRow rows (e :: log) number b row :=
  ⟨h.target, h.told.cons (he _), h.agree⟩

theorem AtRow.sent (h : AtRow s.rows s.log run.number b row)
    (hdue : run.opts.noticeDue row = some n) :
    Sent (run.number + 1) b.target row.firstOverAt
      (.notice run.number b.target n (run.opts.pruneAt row) run.opts.grace :: s.log) n := by
  have hsince : sinceWithin b.target
      (.notice run.number b.target n (run.opts.pruneAt row) run.opts.grace :: s.log) =
        .notice run.number b.target n (run.opts.pruneAt row) run.opts.grace ::
          sinceWithin b.target s.log := sinceWithin_cons rfl
  cases n with
  | first =>
    show FirstNotice _ _ _ (sinceWithin _ _)
    rw [hsince]
    exact ⟨_, _, _, mem_cons_self .., Nat.lt_succ_self _, rfl⟩
  | reminder =>
    have hnotified : row.notifiedAt.isSome := by
      unfold EnforceOpts.noticeDue at hdue
      split at hdue
      · cases hdue
      · rename_i hsome
        exact isSome_iff_ne_none.mpr (by simpa using hsome)
    show Reminder _ _ _ (sinceWithin _ _)
    rw [hsince]
    have hfirst := (h.told.notified hnotified).mono (Nat.le_succ _)
    rw [h.target] at hfirst
    exact ⟨[], _, _, _, _, rfl, rfl, hfirst⟩

theorem notify_after (hinv : Inv s)
    (h : StageOk s.rows s.log run.number run.opts (.notify known b row n todo))
    (hstage : run.stage = .notify known b row n todo) (hreal : run.opts.dryRun = false) :
    After (enforceStep localeCompare s run true).1 run
      (enforceStep localeCompare s run true).2 := by
  obtain ⟨hready, hrow, hdue⟩ := h
  unfold enforceStep
  rw [hstage]
  simp only [if_true]
  refine ⟨hinv.keyed, fun r hr => (hinv.told r hr).cons rfl, fun stage heq => ?_⟩
  cases heq
  exact ⟨⟨hready.cons fun _ => rfl, hrow.cons fun _ => rfl, hrow.sent hdue⟩, fun _ => hreal⟩

theorem noted_after (hinv : Inv s)
    (h : StageOk s.rows s.log run.number run.opts (.noted known b row n todo))
    (hstage : run.stage = .noted known b row n todo) (hlt : run.number < s.begun) :
    After (enforceStep localeCompare s run ok).1 run
      (enforceStep localeCompare s run ok).2 := by
  obtain ⟨hready, hrow, hsent⟩ := h
  have hfirst (r : BreachRow) : (run.opts.notedRow n r).firstOverAt = r.firstOverAt :=
    (notedRow_target run.opts n r).2
  have htarget (r : BreachRow) : (run.opts.notedRow n r).target = r.target :=
    (notedRow_target run.opts n r).1
  unfold enforceStep
  rw [hstage]
  refine ⟨keyed_update hinv.keyed htarget, ?_, fun stage heq => ?_⟩
  · refine told_update hinv.told fun r hr heq => (hinv.told r hr).noted ?_
    rw [hrow.agree r hr heq, heq]
    cases n with
    | first => exact FirstNotice.mono hlt hsent
    | reminder =>
      obtain ⟨post, mid, k, d, g, hlog, hd, hmid⟩ := hsent
      exact ⟨post, mid, k, d, g, hlog, hd, hmid.mono hlt⟩
  · cases heq
    obtain ⟨hok, hreads⟩ := stageOk_afterNotices fun _ =>
      ⟨hready.update htarget hfirst, hrow.update hfirst⟩
    refine ⟨hok, fun hwrites => ?_⟩
    rw [hreads] at hwrites
    cases hwrites

theorem loadScope_after (hinv : Inv s)
    (h : StageOk s.rows s.log run.number run.opts (.loadScope known b row todo))
    (hstage : run.stage = .loadScope known b row todo)
    (hok : run.opts.dryRun = false →
      row.finalNoticeAt.isSome ∧ graceKept b.target run.opts.grace s.log = true) :
    After (enforceStep localeCompare s run ok).1 run
      (enforceStep localeCompare s run ok).2 := by
  obtain ⟨hdue, hreads⟩ := h
  unfold enforceStep
  rw [hstage]
  simp only
  split
  · exact ⟨hinv.keyed, hinv.told, fun stage heq => by cases heq⟩
  · split
    · refine ⟨hinv.keyed, hinv.told, fun stage heq => ?_⟩
      cases heq
      exact ⟨fun hreal => (hreads hreal).1, nofun⟩
    · rename_i hsteps
      have hreal : run.opts.dryRun = false := by
        simp only [not_or, Bool.not_eq_true] at hsteps
        exact hsteps.1
      refine ⟨hinv.keyed, hinv.told, fun stage heq => ?_⟩
      cases heq
      obtain ⟨hready, hrow⟩ := hreads hreal
      obtain ⟨hfinal, hgrace⟩ := hok hreal
      rw [← hrow.target] at hgrace
      refine ⟨⟨hready, ?_⟩, fun _ => hreal⟩
      rw [← hrow.target]
      exact hrow.told.announced hfinal hgrace hdue

theorem prune_after {steps : List Images.PruneStep} (hinv : Inv s)
    (h : StageOk s.rows s.log run.number run.opts (.prune known b row steps todo))
    (hstage : run.stage = .prune known b row steps todo) (hreal : run.opts.dryRun = false) :
    After (enforceStep localeCompare s run ok).1 run
      (enforceStep localeCompare s run ok).2 := by
  unfold enforceStep
  rw [hstage]
  cases steps with
  | nil =>
    refine ⟨hinv.keyed, hinv.told, fun stage heq => ?_⟩
    cases heq
    exact ⟨h.1, fun _ => hreal⟩
  | cons step steps =>
    refine ⟨hinv.keyed, hinv.told, fun stage heq => ?_⟩
    cases heq
    exact ⟨h, fun _ => hreal⟩

/-- **One statement** of a run that meets the condition. -/
theorem enforceStep_after (hinv : Inv s) (hactive : s.active = some run)
    (hc : Announces s (.step ok)) :
    After (enforceStep localeCompare s run ok).1 run
      (enforceStep localeCompare s run ok).2 := by
  obtain ⟨hlt, hstage, hwrites⟩ := hinv.active run hactive
  unfold Announces announces at hc
  simp only [hactive, all_some] at hc
  cases heq : run.stage with
  | findBreaches =>
    rw [heq] at hstage
    unfold enforceStep
    rw [heq]
    refine ⟨hinv.keyed, hinv.told, fun stage hnext => ?_⟩
    cases hnext
    refine ⟨⟨?_, hstage⟩, nofun⟩
    rw [isSome_map]
  | findKnown organizations breaches =>
    rw [heq] at hstage
    unfold enforceStep
    rw [heq]
    refine ⟨hinv.keyed, hinv.told, fun stage hnext => ?_⟩
    cases hnext
    refine ⟨⟨hstage.1, hstage.2, fun r hr k hk hsame => ?_, fun r hr => ?_⟩,
      nofun⟩
    · rw [hinv.keyed.eq_of_key hr hk hsame]
    · exact .inl (mem_map_of_mem hr)
  | forget organizations breaches known todo =>
    rw [heq] at hstage
    exact forget_after hinv hstage heq
  | breach known todo =>
    rw [heq] at hstage
    exact breach_after hinv hstage heq
  | notify known b row n todo =>
    rw [heq] at hstage hwrites
    simp only [heq] at hc
    subst hc
    exact notify_after hinv hstage heq (hwrites rfl)
  | noted known b row n todo =>
    rw [heq] at hstage
    exact noted_after hinv hstage heq hlt
  | loadScope known b row todo =>
    rw [heq] at hstage
    simp only [heq, Bool.or_eq_true, Bool.and_eq_true] at hc
    refine loadScope_after hinv hstage heq fun hreal => ?_
    rw [hreal] at hc
    exact hc.resolve_left nofun
  | prune known b row steps todo =>
    rw [heq] at hstage hwrites
    exact prune_after hinv hstage heq (hwrites rfl)
  | pruned known b todo =>
    rw [heq] at hstage
    unfold enforceStep
    rw [heq]
    refine ⟨keyed_update hinv.keyed fun _ => rfl, ?_, fun stage hnext => ?_⟩
    · exact told_update hinv.told fun r hr _ => (hinv.told r hr).pruned
    · cases hnext
      have hready : Ready s.rows s.log run.number known todo := hstage
      exact ⟨fun _ => hready.update (fun _ => rfl) fun _ => rfl, nofun⟩

end stages

section runs

variable {localeCompare : String → String → Ordering} {s s' : EnforceState}

theorem enforceStep_begun (run : EnforceRun) (ok : Bool) :
    (enforceStep localeCompare s run ok).1.begun = s.begun := by
  unfold enforceStep
  cases run.stage with
  | findBreaches | findKnown organizations breaches | notify known b row n todo
  | noted known b row n todo | pruned known b todo => rfl
  | forget organizations breaches known todo =>
    cases todo with
    | nil => rfl
    | cons k todo =>
      simp only
      split <;> rfl
  | breach known todo =>
    cases todo with
    | nil => rfl
    | cons b todo =>
      simp only
      split
      · split
        · rfl
        · split <;> rfl
      · split <;> rfl
  | loadScope known b row todo =>
    simp only
    split
    · rfl
    · split <;> rfl
  | prune known b row steps todo =>
    cases steps with
    | nil | cons step steps => rfl

theorem inv_run (h : (enforceMachine localeCompare).Run Announces s) : Inv s := by
  refine Machine.Run.invariant (I := fun s => Inv s) ?_ ?_ h
  · rintro s ⟨hrows, -, -, hactive⟩
    refine ⟨by rw [hrows]; exact nodup_nil, fun r hr => ?_, fun run hrun => ?_⟩
    · rw [hrows] at hr
      cases hr
    · rw [hactive] at hrun
      cases hrun
  · intro s e s' _ hinv hc hstep
    cases e with
    | change accounts content =>
      cases hstep
      exact ⟨hinv.keyed, hinv.told, hinv.active⟩
    | start opts =>
      simp only [enforceMachine, enforceMachineStep] at hstep
      split at hstep
      · cases hstep
      · cases hstep
        refine ⟨hinv.keyed, fun r hr => (hinv.told r hr).mono (Nat.le_succ _), fun run hrun => ?_⟩
        cases hrun
        exact ⟨Nat.lt_succ_self _, hinv.told, nofun⟩
    | step ok =>
      obtain ⟨run, hactive, rfl⟩ := map_eq_some_iff.mp hstep
      obtain ⟨hkeyed, htold, hstage⟩ : After (enforceStep localeCompare s run ok).1 run
        (enforceStep localeCompare s run ok).2 := enforceStep_after hinv hactive hc
      refine ⟨hkeyed, htold, fun next hnext => ?_⟩
      obtain ⟨stage, hsome, rfl⟩ := map_eq_some_iff.mp hnext
      obtain ⟨hok, hwrites⟩ := hstage stage hsome
      refine ⟨?_, ?_, hwrites⟩
      · rw [enforceStep_begun]
        exact (hinv.active run hactive).1
      · exact hok
    | stop =>
      cases hstep
      exact ⟨hinv.keyed, hinv.told, fun run hrun => by cases hrun⟩

/-! ### Dry runs -/

theorem afterNotices_reads (o : EnforceOpts) (known : List BreachRow) (b : Breach)
    (row : BreachRow) (todo : List Breach) :
    (o.afterNotices known b row todo).writes = false := by
  unfold EnforceOpts.afterNotices
  split <;> rfl

theorem afterRow_reads (hdry : o.dryRun = true) (known : List BreachRow)
    (b : Breach) (row : BreachRow) (todo : List Breach) :
    (o.afterRow known b row todo).writes = false := by
  unfold EnforceOpts.afterRow
  split
  · rw [if_pos hdry]
    exact afterNotices_reads ..
  · exact afterNotices_reads ..

theorem dryRun_step (run : EnforceRun) (ok : Bool) (hdry : run.opts.dryRun = true)
    (hreads : run.stage.writes = false) :
    (enforceStep localeCompare s run ok).1.rows = s.rows ∧
      ∀ stage, (enforceStep localeCompare s run ok).2 = some stage → stage.writes = false := by
  have hstays {next : EnforceStage} (hnext : next.writes = false) :
      s.rows = s.rows ∧ ∀ stage, some next = some stage → stage.writes = false := by
    refine ⟨rfl, fun stage heq => ?_⟩
    cases heq
    exact hnext
  have hends : s.rows = s.rows ∧ ∀ stage : EnforceStage, none = some stage → stage.writes = false :=
    ⟨rfl, fun stage heq => by cases heq⟩
  unfold enforceStep
  cases hstage : run.stage with
  | findBreaches | findKnown organizations breaches => exact hstays rfl
  | forget organizations breaches known todo =>
    cases todo with
    | nil => exact hstays rfl
    | cons k todo =>
      have hkeeps : run.opts.forgets breaches k = false := by
        unfold EnforceOpts.forgets
        rw [hdry]
        simp
      simp only
      split
      · rename_i hforgets
        rw [hkeeps] at hforgets
        cases hforgets
      · exact hstays rfl
  | breach known todo =>
    cases todo with
    | nil => exact hends
    | cons b todo =>
      simp only [hdry, if_true]
      split <;> exact hstays (afterRow_reads hdry ..)
  | loadScope known b row todo =>
    simp only
    split
    · exact hends
    · rw [if_pos (.inl hdry)]
      exact hstays rfl
  | notify known b row n todo | noted known b row n todo | prune known b row steps todo
  | pruned known b todo =>
    rw [hstage] at hreads
    cases hreads

theorem dryRun_reads (h : (enforceMachine localeCompare).Reachable s) :
    ∀ run, s.active = some run → run.opts.dryRun = true → run.stage.writes = false := by
  refine Machine.Run.invariant (I := fun s => ∀ run, s.active = some run →
    run.opts.dryRun = true → run.stage.writes = false) ?_ ?_ h
  · rintro s ⟨-, -, -, hactive⟩ run hrun
    rw [hactive] at hrun
    cases hrun
  · intro s e s' _ hreads _ hstep
    cases e with
    | change accounts content =>
      cases hstep
      exact hreads
    | start opts =>
      simp only [enforceMachine, enforceMachineStep] at hstep
      split at hstep
      · cases hstep
      · cases hstep
        intro run hrun _
        cases hrun
        rfl
    | step ok =>
      obtain ⟨run, hactive, rfl⟩ := map_eq_some_iff.mp hstep
      intro next hnext hdry
      obtain ⟨stage, hsome, rfl⟩ := map_eq_some_iff.mp hnext
      exact (dryRun_step run ok hdry (hreads run hactive hdry)).2 stage hsome
    | stop =>
      cases hstep
      intro run hrun
      cases hrun

theorem dryRun_keeps {e : EnforceEvent} (h : (enforceMachine localeCompare).Reachable s)
    (hstep : (enforceMachine localeCompare).step s e = some s') : DryRunKeeps s s' := by
  intro run hactive hdry
  cases e with
  | change accounts content | stop =>
    cases hstep
    rfl
  | start opts =>
    simp only [enforceMachine, enforceMachineStep] at hstep
    rw [hactive] at hstep
    cases hstep
  | step ok =>
    obtain ⟨run', hactive', rfl⟩ := map_eq_some_iff.mp hstep
    rw [hactive] at hactive'
    cases hactive'
    exact (dryRun_step run ok hdry (dryRun_reads h run hactive hdry)).1

end runs

/-- **Nothing is pruned unannounced** in a history that meets the condition, and a dry run
changes no row in any. -/
theorem prunes_announced (localeCompare : String → String → Ordering) :
    (∀ s, (enforceMachine localeCompare).Run Announces s → PrunesAnnounced s) ∧
      ∀ s e s', (enforceMachine localeCompare).Reachable s →
        (enforceMachine localeCompare).step s e = some s' → DryRunKeeps s s' := by
  constructor
  · intro s hrun run known b row steps todo hactive hstage
    obtain ⟨-, hok, hwrites⟩ := (inv_run hrun).active run hactive
    rw [hstage] at hok hwrites
    exact ⟨hwrites rfl, hok.2⟩
  · intro s e s' hrun hstep
    exact dryRun_keeps hrun hstep

def overLimit : EnforceState where
  accounts :=
    { members := []
      limits := { organizationLimits := [⟨"o1", none, none, some 5, none⟩] } }
  content :=
    { tables :=
        { organizations := [⟨"o1", "acme"⟩]
          repositories := [⟨"r1", "o1", "app", .«private»⟩]
          issued := ["r1"]
          manifests := [⟨"r1", "sha256:one", none, 0⟩]
          manifestRefs := [⟨"r1", "sha256:one", "sha256:base"⟩]
          blobs := [⟨"sha256:base", 10⟩] }
      links := [⟨"r1", "sha256:base", 0⟩] }
  rows := []
  log := []
  begun := 0
  active := none

theorem overLimit_init : (enforceMachine compare).init overLimit := ⟨rfl, rfl, rfl, rfl⟩

/-- A real run on a day, with as many steps and a grace period of two weeks. -/
def runOn (days : Nat) (steps : Nat) : List EnforceEvent :=
  .start ⟨days * day, 14 * 86400000, false, none⟩ :: List.replicate steps (.step true)

/-- The target a run prunes, and how many steps of its plan are left. -/
def EnforceStage.pruneLeft : EnforceStage → Option (Target × Nat)
  | .prune _ b _ steps _ => some (b.target, steps.length)
  | _ => none

theorem prune_of_left {run : EnforceRun} {n : Nat} (h : run.stage.pruneLeft = some (t, n)) :
    ∃ known b row steps todo, run.stage = .prune known b row steps todo ∧ b.target = t ∧
      steps.length = n := by
  cases hstage : run.stage with
  | prune known b row steps todo =>
    rw [hstage] at h
    cases h
    exact ⟨known, b, row, steps, todo, rfl, rfl, rfl⟩
  | _ =>
    rw [hstage] at h
    cases h

/-- A run a day before the end sends the reminder, and the next one prunes. -/
theorem prunes_announced_overLimit : ∃ s run,
    (enforceMachine compare).Run Announces s ∧ s.active = some run ∧
      run.stage.pruneLeft = some ((.organization, "o1"), 1) ∧
        AnnouncedTo (.organization, "o1") run.opts.now run.number s.log := by
  have hfacts : (((enforceMachine compare).replay Announces overLimit
      (runOn 0 7 ++ runOn 13 8 ++ runOn 14 6)).map fun s =>
        s.active.map fun run => run.stage.pruneLeft) =
      some (some (some ((.organization, "o1"), 1))) := by
    decide +kernel
  obtain ⟨s, hs, hactive⟩ := map_eq_some_iff.mp hfacts
  obtain ⟨run, hrun, hleft⟩ := map_eq_some_iff.mp hactive
  obtain ⟨known, b, row, steps, todo, hstage, htarget, -⟩ := prune_of_left hleft
  have hreach := Machine.run_of_replay (M := enforceMachine compare) overLimit_init hs
  obtain ⟨-, htold⟩ := (prunes_announced compare).1 s hreach run known b row steps todo hrun
    hstage
  rw [htarget] at htold
  exact ⟨s, run, hreach, hrun, hleft, htold⟩

def Entry.atMostFirst : Entry → Bool
  | .looked _ _ => true
  | .notice _ _ n _ _ => decide (n = .first)

/-- Runs two weeks apart send no reminder, and the second one prunes. -/
theorem prunes_unannounced : ¬ ∀ s, (enforceMachine compare).Reachable s → PrunesAnnounced s := by
  intro hall
  have hfacts : (((enforceMachine compare).replay (fun _ _ => True) overLimit
      (runOn 0 7 ++ runOn 14 6)).map fun s =>
        (s.active.map fun run => run.stage.pruneLeft, s.log.all Entry.atMostFirst)) =
      some (some (some ((.organization, "o1"), 1)), true) := by
    decide +kernel
  obtain ⟨s, hs, hpair⟩ := map_eq_some_iff.mp hfacts
  obtain ⟨hactive, hfirst⟩ := Prod.mk.inj hpair
  obtain ⟨run, hrun, hleft⟩ := map_eq_some_iff.mp hactive
  obtain ⟨known, b, row, steps, todo, hstage, -, -⟩ := prune_of_left hleft
  have hreach := Machine.run_of_replay (M := enforceMachine compare) overLimit_init hs
  obtain ⟨-, post, mid, n, d, g, n', d', g', hlog, -⟩ :=
    hall s hreach run known b row steps todo hrun hstage
  have hmem : .notice n b.target .reminder d g ∈ s.log := by
    refine (takeWhile_sublist _).subset (?_ : _ ∈ sinceWithin b.target s.log)
    rw [hlog]
    simp
  have hno : Entry.atMostFirst (.notice n b.target .reminder d g) = true :=
    all_eq_true.mp hfirst _ hmem
  cases hno

end Chicoree.Quotas
