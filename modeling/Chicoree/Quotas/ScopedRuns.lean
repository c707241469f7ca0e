import Chicoree.Quotas.BreachRuns

/-! # A run for one organization

The enforcement job can be run for one organization. Such a run finds the breach of that
organization only, and it forgets the targets it did not find: accounts are left out of this,
other organizations are not. -/

namespace Chicoree.Quotas

open Transition List
open Images (planPruneToFit loadedScope)

def EnforceState.rowsOf (s : EnforceState) (t : Target) : List BreachRow :=
  s.rows.filter fun r => decide (r.target = t)

def EnforceState.InScope (s : EnforceState) (slug : String) (t : Target) : Prop :=
  ∃ o ∈ s.content.tables.organizations, o.slug = slug ∧ t = (.organization, o.id)

def singleRun (localeCompare : String → String → Ordering) (s₀ : EnforceState)
    (opts : EnforceOpts) : Machine EnforceState EnforceEvent where
  init s := ∃ s₁, enforceMachineStep localeCompare s₀ (.start opts) = some s₁ ∧
    enforceMachineStep localeCompare s₁ (.step true) = some s
  step s
    | .start _ => none
    | e => enforceMachineStep localeCompare s e

def LeavesOthers (s₀ : EnforceState) (slug : String) (s : EnforceState) : Prop :=
  ∀ t : Target, ¬ s₀.InScope slug t → s.rowsOf t = s₀.rowsOf t

/-! ## Rows out of scope -/

section rows

variable {rows : List BreachRow} {t u : Target} {f : BreachRow → BreachRow}

theorem filter_update (hf : ∀ r : BreachRow, (f r).target = r.target) (hne : t ≠ u) :
    (Table.update BreachRow.target u f rows).filter (fun r => decide (r.target = t)) =
      rows.filter fun r => decide (r.target = t) := by
  induction rows with
  | nil => rfl
  | cons r rows ih =>
    show ((if r.target = u then f r else r) :: Table.update BreachRow.target u f rows).filter _ = _
    by_cases hu : r.target = u
    · have hmoved : ¬ (f r).target = t := by
        rw [hf, hu]
        exact hne.symm
      have hself : ¬ r.target = t := by
        rw [hu]
        exact hne.symm
      rw [if_pos hu, filter_cons_of_neg (by simpa using hmoved),
        filter_cons_of_neg (by simpa using hself), ih]
    · rw [if_neg hu, filter_cons, filter_cons, ih]

theorem filter_forget (hne : t ≠ u) :
    (rows.filter fun r => decide (r.target ≠ u)).filter (fun r => decide (r.target = t)) =
      rows.filter fun r => decide (r.target = t) := by
  rw [filter_filter]
  refine filter_congr fun r _ => ?_
  by_cases ht : r.target = t
  · simp [ht, hne]
  · simp [ht]

theorem filter_append {row : BreachRow} (hne : t ≠ row.target) :
    (rows ++ [row]).filter (fun r => decide (r.target = t)) =
      rows.filter fun r => decide (r.target = t) := by
  rw [List.filter_append, filter_cons_of_neg (by simpa using hne.symm), filter_nil, append_nil]

end rows

/-! ## What a run works on -/

def EnforceStage.breaches : EnforceStage → List Breach
  | .findBreaches => []
  | .findKnown _ breaches => breaches
  | .forget _ breaches _ _ => breaches
  | .breach _ todo => todo
  | .notify _ b _ _ todo => b :: todo
  | .noted _ b _ _ todo => b :: todo
  | .loadScope _ b _ todo => b :: todo
  | .prune _ b _ _ todo => b :: todo
  | .pruned _ b todo => b :: todo

def EnforceStage.known : EnforceStage → List BreachRow
  | .forget _ _ _ todo => todo
  | _ => []

theorem mem_findBreaches_scoped {a : Accounts} {c : Content} {slug : String} {b : Breach}
    (hb : b ∈ findBreaches a c.db (some slug)) :
    ∃ o ∈ c.tables.organizations, o.slug = slug ∧ b.target = (.organization, o.id) := by
  unfold findBreaches at hb
  simp only [Option.isSome_some, if_true] at hb
  obtain ⟨row, -, hrow⟩ := mem_filterMap.mp hb
  cases hfind : Table.find Registryd.Organization.id row.organizationId c.db.organizations with
  | none => simp [hfind] at hrow
  | some o =>
    cases hlimit : row.maxStorageBytes with
    | none => simp [hfind, hlimit] at hrow
    | some limit =>
      simp only [hfind, hlimit] at hrow
      split at hrow
      · rename_i hover
        cases hrow
        exact ⟨o, (Table.find_some hfind).1, hover.2.2 slug rfl, rfl⟩
      · cases hrow

structure StageInScope (inScope : Target → Prop) (o : EnforceOpts) (stage : EnforceStage) :
    Prop where
  begun : stage ≠ .findBreaches
  breaches : ∀ b ∈ stage.breaches, inScope b.target
  known : ∀ k ∈ stage.known, o.forgets stage.breaches k = true → inScope k.target

variable {number : Nat} {organizations : Option (List Registryd.OrgId)} {breaches : List Breach}

section steps

variable {localeCompare : String → String → Ordering} {inScope : Target → Prop}
  {s : EnforceState} {run : EnforceRun} {known : List BreachRow} {b : Breach} {row : BreachRow}
  {todo : List Breach} {o : EnforceOpts}

structure StepInScope (inScope : Target → Prop) (s s' : EnforceState) (o : EnforceOpts)
    (next : Option EnforceStage) : Prop where
  rows : ∀ t, ¬ inScope t → s'.rowsOf t = s.rowsOf t
  stage : ∀ stage, next = some stage → StageInScope inScope o stage

variable {stage : EnforceStage}

theorem stageInScope_of (h : ∀ b ∈ stage.breaches, inScope b.target)
    (hbegun : stage ≠ .findBreaches) (hknown : stage.known = []) :
    StageInScope inScope o stage := by
  refine ⟨hbegun, h, fun k hk => ?_⟩
  rw [hknown] at hk
  cases hk

variable {s' : EnforceState}

theorem stepInScope_goesOn (hrows : s'.rows = s.rows)
    (h : StageInScope inScope o stage) : StepInScope inScope s s' o (some stage) := by
  refine ⟨fun t _ => ?_, fun next heq => ?_⟩
  · unfold EnforceState.rowsOf
    rw [hrows]
  · cases heq
    exact h

theorem stepInScope_ends (hrows : s'.rows = s.rows) : StepInScope inScope s s' o none := by
  refine ⟨fun t _ => ?_, fun next heq => by cases heq⟩
  unfold EnforceState.rowsOf
  rw [hrows]

theorem stageInScope_afterNotices (h : ∀ x ∈ b :: todo, inScope x.target) :
    StageInScope inScope o (o.afterNotices known b row todo) := by
  unfold EnforceOpts.afterNotices
  by_cases hdue : o.now < o.pruneAt row
  · rw [if_pos hdue]
    exact stageInScope_of (fun x hx => h x (mem_cons_of_mem b hx)) (by simp) rfl
  · rw [if_neg hdue]
    exact stageInScope_of h (by simp) rfl

theorem stageInScope_afterRow (h : ∀ x ∈ b :: todo, inScope x.target) :
    StageInScope inScope o (o.afterRow known b row todo) := by
  have hafter : StageInScope inScope o (o.afterNotices known b row todo) :=
    stageInScope_afterNotices h
  unfold EnforceOpts.afterRow
  cases o.noticeDue row with
  | none => exact hafter
  | some n =>
    by_cases hdry : o.dryRun = true
    · simp only [hdry, if_true]
      exact hafter
    · simp only [hdry]
      exact stageInScope_of h (by simp) rfl

theorem rowsOf_update {f : BreachRow → BreachRow} (hf : ∀ r : BreachRow, (f r).target = r.target)
    (hb : inScope b.target) (t : Target) (ht : ¬ inScope t) :
    ({ s with rows := Table.update BreachRow.target b.target f s.rows } : EnforceState).rowsOf t =
      s.rowsOf t := by
  refine filter_update hf ?_
  rintro rfl
  exact ht hb

theorem forget_inScope {rows : List BreachRow}
    (h : StageInScope inScope o (.forget organizations breaches known rows)) (ok : Bool) :
    StepInScope inScope s
      (enforceStep localeCompare s ⟨number, o, .forget organizations breaches known rows⟩ ok).1 o
      (enforceStep localeCompare s ⟨number, o, .forget organizations breaches known rows⟩ ok).2 := by
  cases rows with
  | nil => exact stepInScope_goesOn rfl (stageInScope_of h.breaches (by simp) rfl)
  | cons k rows =>
    have hrest : StageInScope inScope o (.forget organizations breaches known rows) :=
      ⟨by simp, h.breaches, fun x hx hforgets => h.known x (mem_cons_of_mem k hx) hforgets⟩
    simp only [enforceStep]
    by_cases hforgets : o.forgets breaches k = true
    · rw [if_pos hforgets]
      refine ⟨fun t ht => filter_forget ?_, fun next heq => ?_⟩
      · rintro rfl
        exact ht (h.known k mem_cons_self hforgets)
      · cases heq
        exact hrest
    · rw [if_neg hforgets]
      exact stepInScope_goesOn rfl hrest

theorem breach_inScope (h : ∀ x ∈ todo, inScope x.target) (ok : Bool) :
    StepInScope inScope s
      (enforceStep localeCompare s ⟨number, o, .breach known todo⟩ ok).1 o
      (enforceStep localeCompare s ⟨number, o, .breach known todo⟩ ok).2 := by
  cases todo with
  | nil => exact stepInScope_ends rfl
  | cons b todo =>
    have hb : inScope b.target := h b mem_cons_self
    simp only [enforceStep]
    cases Table.find BreachRow.target b.target known with
    | none =>
      simp only
      by_cases hdry : o.dryRun = true
      · rw [if_pos hdry]
        exact stepInScope_goesOn rfl (stageInScope_afterRow h)
      · rw [if_neg hdry]
        split
        · exact stepInScope_ends rfl
        · refine ⟨fun t ht => filter_append ?_, fun next heq => ?_⟩
          · rintro rfl
            exact ht hb
          · cases heq
            exact stageInScope_afterRow h
    | some row =>
      simp only
      by_cases hdry : o.dryRun = true
      · rw [if_pos hdry]
        exact stepInScope_goesOn rfl (stageInScope_afterRow h)
      · rw [if_neg hdry]
        refine ⟨rowsOf_update (fun _ => rfl) hb, fun next heq => ?_⟩
        cases heq
        exact stageInScope_afterRow h

theorem loadScope_inScope (h : ∀ x ∈ b :: todo, inScope x.target) (ok : Bool) :
    StepInScope inScope s
      (enforceStep localeCompare s ⟨number, o, .loadScope known b row todo⟩ ok).1 o
      (enforceStep localeCompare s ⟨number, o, .loadScope known b row todo⟩ ok).2 := by
  simp only [enforceStep]
  cases planPruneToFit (loadedScope localeCompare s.content.tables b.repositoryIds) localeCompare
      b.limitBytes.toNat with
  | none => exact stepInScope_ends rfl
  | some plan =>
    simp only
    split
    · refine stepInScope_goesOn rfl (stageInScope_of (fun x hx => ?_) (by simp) rfl)
      exact h x (mem_cons_of_mem b hx)
    · exact stepInScope_goesOn rfl (stageInScope_of h (by simp) rfl)

/-- One step of a run whose stage is in scope; the rows there are when it looks for targets to
forget must be, too. -/
theorem enforceStep_inScope (h : StageInScope inScope run.opts run.stage)
    (hrows : ∀ k ∈ s.rows, ∀ breaches : List Breach, run.opts.forgets breaches k = true →
      inScope k.target) (ok : Bool) :
    StepInScope inScope s (enforceStep localeCompare s run ok).1 run.opts
      (enforceStep localeCompare s run ok).2 := by
  obtain ⟨number, o, stage⟩ := run
  cases stage with
  | findBreaches => exact absurd rfl h.begun
  | findKnown organizations breaches =>
    refine stepInScope_goesOn rfl ⟨by simp, h.breaches, ?_⟩
    exact fun k hk hforgets => hrows k hk _ hforgets
  | forget organizations breaches known todo => exact forget_inScope h ok
  | breach known todo => exact breach_inScope h.breaches ok
  | notify known b row n todo =>
    exact stepInScope_goesOn rfl (stageInScope_of h.breaches (by simp) rfl)
  | noted known b row n todo =>
    refine ⟨rowsOf_update (fun r => ?_) (h.breaches b mem_cons_self), fun next heq => ?_⟩
    · cases n with
      | first | reminder => rfl
    · cases heq
      exact stageInScope_afterNotices h.breaches
  | loadScope known b row todo => exact loadScope_inScope h.breaches ok
  | prune known b row steps todo =>
    cases steps with
    | nil | cons step steps =>
      exact stepInScope_goesOn rfl (stageInScope_of h.breaches (by simp) rfl)
  | pruned known b todo =>
    refine ⟨rowsOf_update (fun _ => rfl) (h.breaches b mem_cons_self), fun next heq => ?_⟩
    cases heq
    refine stageInScope_of (fun x hx => ?_) (by simp) rfl
    exact h.breaches x (mem_cons_of_mem b hx)

end steps

/-! ## The whole run -/

section runs

variable {localeCompare : String → String → Ordering} {s₀ s s' : EnforceState} {opts : EnforceOpts}
  {slug : String}

/-- The run under way, with what it works on in scope, and the rows of others as they were. -/
structure SingleInScope (s₀ : EnforceState) (slug : String) (opts : EnforceOpts)
    (s : EnforceState) : Prop where
  others : LeavesOthers s₀ slug s
  active : ∀ run, s.active = some run → run.opts = opts ∧
    StageInScope (s₀.InScope slug) opts run.stage

theorem singleInScope_init (hslug : opts.organizationSlug = some slug)
    (h : (singleRun localeCompare s₀ opts).init s) : SingleInScope s₀ slug opts s := by
  obtain ⟨s₁, hstart, hfound⟩ := h
  unfold enforceMachineStep at hstart
  simp only at hstart
  split at hstart
  · cases hstart
  · cases hstart
    cases hfound
    refine ⟨fun _ _ => rfl, fun run hrun => ?_⟩
    cases hrun
    refine ⟨rfl, stageInScope_of (fun b hb => ?_) (by simp) rfl⟩
    have hb : b ∈ findBreaches s₀.accounts s₀.content.db opts.organizationSlug := hb
    rw [hslug] at hb
    exact mem_findBreaches_scoped hb

theorem singleInScope_step (h : SingleInScope s₀ slug opts s)
    (hrows : ∀ k ∈ s.rows, ∀ breaches : List Breach, opts.forgets breaches k = true →
      s₀.InScope slug k.target) {e : EnforceEvent}
    (hs : (singleRun localeCompare s₀ opts).step s e = some s') : SingleInScope s₀ slug opts s' := by
  cases e with
  | change accounts content =>
    cases hs
    exact ⟨h.others, h.active⟩
  | start o => cases hs
  | step ok =>
    obtain ⟨run, hactive, rfl⟩ := Option.map_eq_some_iff.mp
      (show s.active.map _ = some s' from hs)
    obtain ⟨rfl, hstage⟩ := h.active run hactive
    have hstep : StepInScope (s₀.InScope slug) s (enforceStep localeCompare s run ok).1 run.opts
      (enforceStep localeCompare s run ok).2 := enforceStep_inScope hstage hrows ok
    refine ⟨fun t ht => (hstep.rows t ht).trans (h.others t ht), fun next hnext => ?_⟩
    obtain ⟨stage, hgoes, rfl⟩ := Option.map_eq_some_iff.mp hnext
    exact ⟨rfl, hstep.stage stage hgoes⟩
  | stop =>
    cases hs
    exact ⟨h.others, fun run hrun => by cases hrun⟩

theorem forgets_scoped (hslug : opts.organizationSlug = some slug)
    {k : BreachRow} : opts.forgets breaches k = true ↔
      k.targetType = .organization ∧ k.target ∉ breaches.map Breach.target ∧
        opts.dryRun = false := by
  unfold EnforceOpts.forgets
  rw [hslug]
  simp only [Option.isSome_some, Bool.true_and, Bool.and_eq_true, Bool.not_eq_true',
    ← Bool.not_eq_true, contains_iff_mem, and_assoc, decide_eq_true_eq, ne_eq, not_not]

theorem forget_loop {known todo : List BreachRow}
    (h : (singleRun localeCompare s₀ opts).Reachable s)
    (hactive : s.active = some ⟨number, opts, .forget organizations breaches known todo⟩) :
    ∃ s', (singleRun localeCompare s₀ opts).Reachable s' ∧ (∀ r ∈ s'.rows, r ∈ s.rows) ∧
      ∀ k ∈ todo, opts.forgets breaches k = true → s'.rowsOf k.target = [] := by
  induction todo generalizing s with
  | nil => exact ⟨s, h, fun r hr => hr, nofun⟩
  | cons k todo ih =>
    have hrest (rows : List BreachRow) (hstep : enforceStep localeCompare s
          ⟨number, opts, .forget organizations breaches known (k :: todo)⟩ true =
            ({ s with rows := rows }, some (.forget organizations breaches known todo))) :
        (singleRun localeCompare s₀ opts).Reachable
          { s with rows := rows
                   active := some ⟨number, opts, .forget organizations breaches known todo⟩ } := by
      refine .step h (a := .step true) trivial ?_
      show s.active.map _ = _
      rw [hactive, Option.map_some, hstep]
      rfl
    by_cases hforgets : opts.forgets breaches k = true
    · obtain ⟨s', hs', hfewer, hgone⟩ := ih (hrest _ (if_pos hforgets)) rfl
      refine ⟨s', hs', fun r hr => (mem_filter.mp (hfewer r hr)).1, fun x hx hxforgets => ?_⟩
      rcases mem_cons.mp hx with rfl | hx
      · refine filter_eq_nil_iff.mpr fun r hr htarget => ?_
        have hne := (mem_filter.mp (hfewer r hr)).2
        exact of_decide_eq_true hne (of_decide_eq_true htarget)
      · exact hgone x hx hxforgets
    · obtain ⟨s', hs', hfewer, hgone⟩ := ih (hrest s.rows (if_neg hforgets)) rfl
      refine ⟨s', hs', hfewer, fun x hx hxforgets => ?_⟩
      rcases mem_cons.mp hx with rfl | hx
      · exact absurd hxforgets hforgets
      · exact hgone x hx hxforgets

end runs

/-- A run for one organization leaves the rows of all other organizations and of all accounts
alone, whatever happens meanwhile, exactly if it is a dry run or no other organization has a
row. -/
theorem scoped_run_leaves_others_iff (localeCompare : String → String → Ordering)
    (s₀ : EnforceState) (opts : EnforceOpts) (slug : String)
    (hslug : opts.organizationSlug = some slug) (hidle : s₀.active = none) :
    (∀ s, (singleRun localeCompare s₀ opts).Reachable s → LeavesOthers s₀ slug s) ↔
      (opts.dryRun = true ∨
        ∀ k ∈ s₀.rows, k.targetType = .organization → s₀.InScope slug k.target) := by
  constructor
  · intro hleaves
    cases hdry : opts.dryRun with
    | true => exact .inl rfl
    | false =>
      refine .inr fun k hk htype => ?_
      by_contra hother
      -- the run finds the breaches of the slug, reads the rows and forgets
      have hfound : (singleRun localeCompare s₀ opts).Reachable
          { s₀ with
            begun := s₀.begun + 1
            active := some ⟨s₀.begun, opts, .findKnown
              (opts.organizationSlug.map fun slug =>
                (s₀.content.tables.organizations.filter fun x => decide (x.slug = slug)).map (·.id))
              (findBreaches s₀.accounts s₀.content.db opts.organizationSlug)⟩ } := by
        refine .init ⟨{ s₀ with begun := s₀.begun + 1, active := some ⟨s₀.begun, opts, .findBreaches⟩ },
          ?_, rfl⟩
        show (if s₀.active.isSome then none else _) = _
        rw [hidle]
        rfl
      obtain ⟨s, hs, -, hgone⟩ := forget_loop (.step hfound (a := .step true) trivial rfl) rfl
      have hforgets : opts.forgets (findBreaches s₀.accounts s₀.content.db opts.organizationSlug) k =
          true := by
        refine (forgets_scoped hslug).mpr ⟨htype, fun hmem => hother ?_, hdry⟩
        obtain ⟨b, hb, heq⟩ := mem_map.mp hmem
        rw [hslug] at hb
        rw [← heq]
        exact mem_findBreaches_scoped hb
      have hkept : k ∈ s.rowsOf k.target := by
        rw [hleaves s hs k.target hother]
        exact mem_filter.mpr ⟨hk, decide_eq_true rfl⟩
      rw [hgone k hk hforgets] at hkept
      cases hkept
  · intro hcond s hs
    have hinv : SingleInScope s₀ slug opts s := by
      refine Machine.Run.invariant (I := SingleInScope s₀ slug opts) (fun s hinit => ?_)
        (fun s e s' _ h _ hstep => ?_) hs
      · exact singleInScope_init hslug hinit
      · refine singleInScope_step h (fun k hk breaches hforgets => ?_) hstep
        obtain ⟨htype, -, hreal⟩ := (forgets_scoped hslug).mp hforgets
        by_contra hother
        have hkept : k ∈ s₀.rowsOf k.target := by
          rw [← h.others k.target hother]
          exact mem_filter.mpr ⟨hk, decide_eq_true rfl⟩
        rcases hcond with hdry | hnone
        · rw [hreal] at hdry
          cases hdry
        · exact hother (hnone k (mem_filter.mp hkept).1 htype)
    exact hinv.others

def runForAcme : EnforceOpts := ⟨7 * day, 0, false, some "acme"⟩

/-- Nobody is over a limit any more; an organization and an account still have a row. -/
def twoNotices (organization : String) : EnforceState where
  accounts := {}
  content := ⟨{ organizations := [⟨"o1", "acme"⟩, ⟨"o2", "labs"⟩] }, []⟩
  rows := [⟨.organization, organization, 0, 0, 20, 15, some 0, none, none⟩,
    ⟨.user, "u1", 0, 0, 20, 15, some 0, none, none⟩]
  log := []
  begun := 0
  active := none

def foundNone (organization : String) : EnforceState :=
  { twoNotices organization with
    begun := 1
    active := some ⟨0, runForAcme, .findKnown (some ["o1"]) []⟩ }

theorem foundNone_init (organization : String) :
    (singleRun compare (twoNotices organization) runForAcme).init (foundNone organization) :=
  ⟨{ twoNotices organization with begun := 1, active := some ⟨0, runForAcme, .findBreaches⟩ },
    rfl, rfl⟩

theorem scoped_run_leaves_account : ∃ s,
    (singleRun compare (twoNotices "o1") runForAcme).Reachable s ∧
      s.rows = [⟨.user, "u1", 0, 0, 20, 15, some 0, none, none⟩] ∧
      LeavesOthers (twoNotices "o1") "acme" s := by
  have hrows : ((singleRun compare (twoNotices "o1") runForAcme).replay (fun _ _ => True)
      (foundNone "o1") [.step true, .step true, .step true]).map (·.rows) =
      some [⟨.user, "u1", 0, 0, 20, 15, some 0, none, none⟩] := by
    decide +kernel
  obtain ⟨s, hs, hrows⟩ := Option.map_eq_some_iff.mp hrows
  have hreach := Machine.run_of_replay (M := singleRun compare (twoNotices "o1") runForAcme)
    (foundNone_init "o1") hs
  have hcond : ∀ k ∈ (twoNotices "o1").rows, k.targetType = .organization →
      (twoNotices "o1").InScope "acme" k.target := by
    intro k hk htype
    rcases mem_cons.mp hk with rfl | hk
    · exact ⟨⟨"o1", "acme"⟩, by decide, rfl, rfl⟩
    · rw [mem_singleton.mp hk] at htype
      cases htype
  exact ⟨s, hreach, hrows, (scoped_run_leaves_others_iff compare (twoNotices "o1") runForAcme
    "acme" rfl rfl).mpr (.inr hcond) s hreach⟩

/-- The run for acme forgets since when labs is over its limit, at whose usage it does not look. -/
theorem scoped_run_forgets_others :
    ¬ ∀ (localeCompare : String → String → Ordering) (s₀ : EnforceState) (opts : EnforceOpts)
      (slug : String), opts.organizationSlug = some slug → s₀.active = none →
      ∀ s, (singleRun localeCompare s₀ opts).Reachable s → LeavesOthers s₀ slug s := by
  intro hall
  have hrows : ((singleRun compare (twoNotices "o2") runForAcme).replay (fun _ _ => True)
      (foundNone "o2") [.step true, .step true, .step true]).map
        (·.rowsOf (.organization, "o2")) = some [] := by
    decide +kernel
  obtain ⟨s, hs, hrows⟩ := Option.map_eq_some_iff.mp hrows
  have hreach := Machine.run_of_replay (M := singleRun compare (twoNotices "o2") runForAcme)
    (foundNone_init "o2") hs
  have hother : ¬ (twoNotices "o2").InScope "acme" (.organization, "o2") := by
    rintro ⟨o, ho, hslug, heq⟩
    obtain rfl | ho := mem_cons.mp ho
    · exact absurd (congrArg Prod.snd heq) (by decide)
    · rw [mem_singleton.mp ho] at hslug
      exact absurd hslug (by decide)
  have hkept := hall compare (twoNotices "o2") runForAcme "acme" rfl rfl s hreach _ hother
  rw [hrows] at hkept
  exact absurd hkept (by decide)

end Chicoree.Quotas
