import Mathlib.Data.List.Basic

/-! # Labelled machines and their runs

A machine is a set of initial states and a partial step function: a label names
the step and carries every choice made in it, so that a step is a computation and
a run can be replayed. `Run C` collects the states reached by steps that all meet
a condition `C` on the state before the step and the label; plain reachability is
the case where every step does. -/

namespace Transition

universe u v
variable {σ : Type u} {α : Type v}

/-- Initial states, and what a label does to a state (`none` where the label is
not enabled). -/
structure Machine (σ : Type u) (α : Type v) where
  init : σ → Prop
  step : σ → α → Option σ

namespace Machine

variable {M : Machine σ α} {C D : σ → α → Prop} {s s' : σ}

/-- The states reached from an initial state by steps that all meet `C`. -/
inductive Run (M : Machine σ α) (C : σ → α → Prop) : σ → Prop where
  | init {s : σ} : M.init s → Run M C s
  | step {s : σ} {a : α} {s' : σ} :
      Run M C s → C s a → M.step s a = some s' → Run M C s'

/-- The states reached by any steps. -/
abbrev Reachable (M : Machine σ α) : σ → Prop := M.Run fun _ _ => True

/-- The states reached from `s` by steps that all meet `C`. -/
inductive Path (M : Machine σ α) (C : σ → α → Prop) (s : σ) : σ → Prop where
  | refl : Path M C s s
  | step {t : σ} {a : α} {t' : σ} :
      Path M C s t → C t a → M.step t a = some t' → Path M C s t'

/-! ## Rules -/

theorem Run.mono (hCD : ∀ s a, C s a → D s a) (h : M.Run C s) : M.Run D s := by
  induction h with
  | init h => exact .init h
  | step _ hc hs ih => exact .step ih (hCD _ _ hc) hs

theorem Run.reachable (h : M.Run C s) : M.Reachable s :=
  h.mono fun _ _ _ => trivial

variable {Q : σ → Prop}

/-- What holds of every state reached may be used by the condition on a step. -/
theorem Run.strengthen (hQ : ∀ s, M.Run C s → Q s) (h : M.Run C s) :
    M.Run (fun s a => C s a ∧ Q s) s := by
  induction h with
  | init h => exact .init h
  | step hr hc hs ih => exact .step ih ⟨hc, hQ _ hr⟩ hs

theorem Run.append (h : M.Run C s) (hp : M.Path C s s') : M.Run C s' := by
  induction hp with
  | refl => exact h
  | step _ hc hs ih => exact .step ih hc hs

/-- **Invariant rule.** What holds initially and is kept by every step that meets
the condition holds in every state reached. The step may use that its source is
itself reached. -/
theorem Run.invariant {I : σ → Prop} (hinit : ∀ s, M.init s → I s)
    (hstep : ∀ s a s', M.Run C s → I s → C s a → M.step s a = some s' → I s')
    (h : M.Run C s) : I s := by
  induction h with
  | init h => exact hinit _ h
  | step hr hc hs ih => exact hstep _ _ _ hr ih hc hs

/-- **Stability rule.** A fact kept by every step of a path holds at its end. -/
theorem Path.stable (hr : M.Run C s)
    (hstep : ∀ t a t', M.Run C t → Q t → C t a → M.step t a = some t' → Q t')
    (hp : M.Path C s s') (h : Q s) : Q s' := by
  induction hp with
  | refl => exact h
  | step hp hc hs ih => exact hstep _ _ _ (hr.append hp) ih hc hs

theorem Path.invariant (hstep : ∀ t a t', Q t → C t a → M.step t a = some t' → Q t')
    (hp : M.Path C s s') (h : Q s) : Q s' := by
  induction hp with
  | refl => exact h
  | step _ hc hs ih => exact hstep _ _ _ ih hc hs

/-! ## Replaying a run -/

/-- Follow a list of labels, stopping at the first one that is not enabled or
does not meet the condition. -/
def replay (M : Machine σ α) (C : σ → α → Prop) [∀ s a, Decidable (C s a)] :
    σ → List α → Option σ
  | s, [] => some s
  | s, a :: as =>
    if C s a then
      match M.step s a with
      | some s' => replay M C s' as
      | none => none
    else none

theorem Path.cons {a : α} {t : σ} (hc : C s a) (hs : M.step s a = some t)
    (hp : M.Path C t s') : M.Path C s s' := by
  induction hp with
  | refl => exact .step .refl hc hs
  | step _ hc' hs' ih => exact .step ih hc' hs'

theorem path_of_replay [∀ s a, Decidable (C s a)] {as : List α}
    (h : M.replay C s as = some s') : M.Path C s s' := by
  induction as generalizing s with
  | nil =>
    simp only [replay, Option.some.injEq] at h
    exact h ▸ .refl
  | cons a as ih =>
    simp only [replay] at h
    split at h
    · rename_i hc
      cases hs : M.step s a with
      | none => simp [hs] at h
      | some t =>
        rw [hs] at h
        exact .cons hc hs (ih h)
    · contradiction

theorem run_of_replay [∀ s a, Decidable (C s a)] {as : List α} (hi : M.init s)
    (h : M.replay C s as = some s') : M.Run C s' :=
  (Run.init hi).append (path_of_replay h)

end Machine

end Transition

/-! ## Pools of concurrent tasks

Requests that run at the same time over one shared store: a pool is the store and
the list of tasks started so far, and one step of a pool is one atomic action of
one task, the start of a task, or a step of the surroundings. The order of steps
is free, so that the runs of a pool are all interleavings.

`Program.Outline` is the proof obligation for such a program: an invariant of the
store, an assertion for each task, and that no step falsifies the assertion of a
task that did not take it. -/

namespace Transition

open List

universe u v w x
variable {σ : Type u} {τ : Type v} {α : Type w} {ε : Type x}

structure Pool (σ : Type u) (τ : Type v) where
  shared : σ
  tasks : List τ
deriving DecidableEq

/-- A label of a pool: which task is started, which task acts (and the choices of
its action), or what the surroundings do. -/
inductive Move (τ : Type v) (α : Type w) (ε : Type x) where
  | spawn (t : τ)
  | act (i : Nat) (a : α)
  | env (e : ε)

/-- The atomic actions of a family of tasks over a store. A task knows its own
number, which is how it owns a lock. -/
structure Program (σ : Type u) (τ : Type v) (α : Type w) (ε : Type x) where
  init : σ → Prop
  fresh : τ → Bool
  act : σ → Nat → τ → α → Option (σ × τ)
  env : σ → ε → Option σ

/-! ## Looking up tasks -/

variable {ts : List τ} {t : τ} {j : Nat}

theorem getElem?_started {q : τ} (h : (ts ++ [t])[j]? = some q) :
    ts[j]? = some q ∨ (j = ts.length ∧ q = t) := by
  by_cases hj : j < ts.length
  · rw [getElem?_append_left hj] at h
    exact .inl h
  · have hlt := (List.getElem?_eq_some_iff.mp h).1
    simp only [length_append, length_singleton] at hlt
    have hjl : j = ts.length := by omega
    subst hjl
    exact .inr ⟨rfl, by simpa using h.symm⟩

variable {i : Nat}

theorem getElem?_acted {q : τ} (h : (ts.set i t)[j]? = some q) :
    (j = i ∧ q = t) ∨ (j ≠ i ∧ ts[j]? = some q) := by
  by_cases hj : j = i
  · subst hj
    have hlt := (List.getElem?_eq_some_iff.mp h).1
    rw [length_set] at hlt
    rw [getElem?_set_self hlt] at h
    exact .inl ⟨rfl, (Option.some.inj h).symm⟩
  · rw [getElem?_set_ne (Ne.symm hj)] at h
    exact .inr ⟨hj, h⟩

namespace Program

variable {P : Program σ τ α ε}

def step (P : Program σ τ α ε) (p : Pool σ τ) : Move τ α ε → Option (Pool σ τ)
  | .spawn t => if P.fresh t then some ⟨p.shared, p.tasks ++ [t]⟩ else none
  | .act i a =>
    match p.tasks[i]? with
    | none => none
    | some t =>
      match P.act p.shared i t a with
      | none => none
      | some (s', t') => some ⟨s', p.tasks.set i t'⟩
  | .env e =>
    match P.env p.shared e with
    | none => none
    | some s' => some ⟨s', p.tasks⟩

/-- The machine whose runs are the interleavings of the program's tasks. -/
def machine (P : Program σ τ α ε) : Machine (Pool σ τ) (Move τ α ε) where
  init p := P.init p.shared ∧ p.tasks = []
  step := P.step

variable {p p' : Pool σ τ} {m : Move τ α ε}

theorem step_cases (h : P.step p m = some p') :
    (∃ t, m = .spawn t ∧ P.fresh t = true ∧ p' = ⟨p.shared, p.tasks ++ [t]⟩) ∨
    (∃ i a t s' t', m = .act i a ∧ p.tasks[i]? = some t ∧
      P.act p.shared i t a = some (s', t') ∧ p' = ⟨s', p.tasks.set i t'⟩) ∨
    (∃ e s', m = .env e ∧ P.env p.shared e = some s' ∧ p' = ⟨s', p.tasks⟩) := by
  cases m with
  | spawn t =>
    simp only [step] at h
    split at h
    · exact .inl ⟨t, rfl, ‹_›, (Option.some.inj h).symm⟩
    · contradiction
  | act i a =>
    simp only [step] at h
    cases ht : p.tasks[i]? with
    | none => simp [ht] at h
    | some t =>
      cases ha : P.act p.shared i t a with
      | none => simp [ht, ha] at h
      | some r =>
        obtain ⟨s', t'⟩ := r
        simp only [ht, ha, Option.some.injEq] at h
        exact .inr (.inl ⟨i, a, t, s', t', rfl, ht, ha, h.symm⟩)
  | env e =>
    simp only [step] at h
    cases he : P.env p.shared e with
    | none => simp [he] at h
    | some s' =>
      simp only [he, Option.some.injEq] at h
      exact .inr (.inr ⟨e, s', rfl, he, h.symm⟩)

/-- The store meets `I` and every task its assertion. -/
structure Holds (I : σ → Prop) (A : σ → Nat → τ → Prop) (p : Pool σ τ) : Prop where
  shared : I p.shared
  tasks : ∀ i t, p.tasks[i]? = some t → A p.shared i t

/-- **Proof outline** of a program whose steps meet `C`: the invariant holds
initially, a new task meets its assertion, an action establishes both again for
the task that takes it, and neither an action nor the surroundings interfere with
the assertion of another task. -/
structure Outline (P : Program σ τ α ε) (C : Pool σ τ → Move τ α ε → Prop)
    (I : σ → Prop) (A : σ → Nat → τ → Prop) : Prop where
  init : ∀ s, P.init s → I s
  spawn : ∀ p t, Holds I A p → C p (.spawn t) → P.fresh t = true → A p.shared p.tasks.length t
  act : ∀ p i a t s' t', Holds I A p → C p (.act i a) → p.tasks[i]? = some t →
    P.act p.shared i t a = some (s', t') → I s' ∧ A s' i t'
  interfere : ∀ p i a t s' t', Holds I A p → C p (.act i a) → p.tasks[i]? = some t →
    P.act p.shared i t a = some (s', t') →
    ∀ j q, j ≠ i → p.tasks[j]? = some q → A s' j q
  env : ∀ p e s', Holds I A p → C p (.env e) → P.env p.shared e = some s' →
    I s' ∧ ∀ j q, p.tasks[j]? = some q → A s' j q

variable {C : Pool σ τ → Move τ α ε → Prop} {I : σ → Prop} {A : σ → Nat → τ → Prop}

theorem Outline.step (o : P.Outline C I A)
    (h : Holds I A p) (hc : C p m) (hs : P.step p m = some p') : Holds I A p' := by
  rcases step_cases hs with ⟨t, rfl, hf, rfl⟩ | ⟨i, a, t, s', t', rfl, ht, ha, rfl⟩ |
      ⟨e, s', rfl, he, rfl⟩
  · refine ⟨h.shared, fun j q hq => ?_⟩
    rcases getElem?_started hq with hq | ⟨rfl, rfl⟩
    · exact h.tasks j q hq
    · exact o.spawn p q h hc hf
  · obtain ⟨hI, hA⟩ := o.act p i a t s' t' h hc ht ha
    refine ⟨hI, fun j q hq => ?_⟩
    rcases getElem?_acted hq with ⟨rfl, rfl⟩ | ⟨hj, hq⟩
    · exact hA
    · exact o.interfere p i a t s' t' h hc ht ha j q hj hq
  · exact ⟨(o.env p e s' h hc he).1, (o.env p e s' h hc he).2⟩

/-- **Outline rule.** A valid proof outline holds in every state that steps
meeting its condition reach. -/
theorem Outline.run (o : P.Outline C I A) (h : P.machine.Run C p) : Holds I A p := by
  refine h.invariant ?_ fun s a s' _ hs hc ht => o.step hs hc ht
  rintro ⟨s, ts⟩ ⟨hi, hts⟩
  refine ⟨o.init s hi, fun i t ht => ?_⟩
  subst hts
  simp at ht

section debts

universe y
variable {δ : Type y} {debt : σ → δ → Prop} {carries : σ → τ → δ → Prop}

/-- Every debt of the store is carried by a task, which has still to pay it. -/
def Carried (debt : σ → δ → Prop) (carries : σ → τ → δ → Prop) (p : Pool σ τ) : Prop :=
  ∀ d, debt p.shared d → ∃ t ∈ p.tasks, carries p.shared t d

/-- A debt that a task other than the `i`th carries. -/
def CarriedByOther (carries : σ → τ → δ → Prop) (ts : List τ) (i : Nat) (s : σ) (d : δ) : Prop :=
  ∃ j q, j ≠ i ∧ ts[j]? = some q ∧ carries s q d

/-- No step of the program leaves a debt to nobody. A step may use that its source is
reached. -/
structure Settles (P : Program σ τ α ε) (C : Pool σ τ → Move τ α ε → Prop)
    (debt : σ → δ → Prop) (carries : σ → τ → δ → Prop) : Prop where
  init : ∀ s, P.init s → ∀ d, ¬ debt s d
  act : ∀ p i a t s' t', P.machine.Run C p → Carried debt carries p → C p (.act i a) →
    p.tasks[i]? = some t → P.act p.shared i t a = some (s', t') →
      ∀ d, debt s' d → carries s' t' d ∨ CarriedByOther carries p.tasks i s' d
  env : ∀ p e s', P.machine.Run C p → Carried debt carries p → C p (.env e) →
    P.env p.shared e = some s' → ∀ d, debt s' d → ∃ t ∈ p.tasks, carries s' t d

variable {C : Pool σ τ → Move τ α ε → Prop}

/-- **Debt rule.** A program whose steps leave no debt to nobody keeps every debt
carried. -/
theorem Settles.run (o : P.Settles C debt carries) (h : P.machine.Run C p) :
    Carried debt carries p := by
  refine h.invariant ?_ fun p m p' hr hp hc hs d hd => ?_
  · rintro ⟨s, ts⟩ ⟨hi, -⟩ d hd
    exact absurd hd (o.init s hi d)
  · rcases step_cases hs with ⟨t, rfl, -, rfl⟩ | ⟨i, a, t, s', t', rfl, ht, ha, rfl⟩ |
        ⟨e, s', rfl, he, rfl⟩
    · obtain ⟨q, hq, hcarries⟩ := hp d hd
      exact ⟨q, mem_append_left _ hq, hcarries⟩
    · rcases o.act p i a t s' t' hr hp hc ht ha d hd with hcarries | ⟨j, q, hj, hq, hcarries⟩
      · exact ⟨t', mem_set (List.getElem?_eq_some_iff.mp ht).1 t', hcarries⟩
      · refine ⟨q, mem_of_getElem? (i := j) ?_, hcarries⟩
        rw [getElem?_set_ne (Ne.symm hj)]
        exact hq
    · exact o.env p e s' hr hp hc he d hd

/-- A debt of the store, by who carries it. -/
theorem Carried.cases (h : Carried debt carries p)
    (ht : p.tasks[i]? = some t) {d : δ} (hd : debt p.shared d) :
    carries p.shared t d ∨ CarriedByOther carries p.tasks i p.shared d := by
  obtain ⟨q, hq, hcarries⟩ := h d hd
  obtain ⟨j, hj⟩ := mem_iff_getElem?.mp hq
  by_cases hji : j = i
  · subst hji
    exact .inl (Option.some.inj (ht.symm.trans hj) ▸ hcarries)
  · exact .inr ⟨j, q, hji, hj, hcarries⟩

theorem CarriedByOther.mono {s s' : σ} {d : δ}
    (h : CarriedByOther carries ts i s d) (hs : ∀ q, carries s q d → carries s' q d) :
    CarriedByOther carries ts i s' d := by
  obtain ⟨j, q, hj, hq, hcarries⟩ := h
  exact ⟨j, q, hj, hq, hs q hcarries⟩

end debts

section records

universe y
variable {ρ : Type y} {record : σ → List ρ} {owner : ρ → Nat} {ended : τ → ρ → Prop}

/-- The record of the store names exactly the tasks that ended in the recorded way, each
once. -/
structure TrueRecord (record : σ → List ρ) (owner : ρ → Nat) (ended : τ → ρ → Prop)
    (p : Pool σ τ) : Prop where
  sound : ∀ r ∈ record p.shared, ∃ t, p.tasks[owner r]? = some t ∧ ended t r
  complete : ∀ i t r, p.tasks[i]? = some t → ended t r →
    ∃ r' ∈ record p.shared, owner r' = i ∧ ended t r'
  once : ((record p.shared).map owner).Nodup

/-- A program that records the ends of its tasks: no task ends unrecorded, and one that
has ended does not act. -/
structure Recorder (P : Program σ τ α ε) (record : σ → List ρ) (owner : ρ → Nat)
    (ended : τ → ρ → Prop) : Prop where
  init : ∀ s, P.init s → record s = []
  fresh : ∀ t r, P.fresh t = true → ¬ ended t r
  act : ∀ s i t a s' t', P.act s i t a = some (s', t') → (∀ r, ¬ ended t r) ∧
    ((record s' = record s ∧ ∀ r, ¬ ended t' r) ∨
      ∃ r, owner r = i ∧ ended t' r ∧ record s' = record s ++ [r])
  env : ∀ s e s', P.env s e = some s' → record s' = record s

theorem TrueRecord.spawn (h : TrueRecord record owner ended p) (hfresh : ∀ r, ¬ ended t r) :
    TrueRecord record owner ended ⟨p.shared, p.tasks ++ [t]⟩ := by
  refine ⟨fun r hr => ?_, fun i q r hq hended => ?_, h.once⟩
  · obtain ⟨q, hq, hended⟩ := h.sound r hr
    have hlt := (List.getElem?_eq_some_iff.mp hq).1
    exact ⟨q, by rw [getElem?_append_left hlt]; exact hq, hended⟩
  · rcases getElem?_started hq with hq | ⟨rfl, rfl⟩
    · exact h.complete i q r hq hended
    · exact absurd hended (hfresh r)

theorem TrueRecord.act {t' : τ} {s' : σ}
    (h : TrueRecord record owner ended p) (ht : p.tasks[i]? = some t)
    (hrunning : ∀ r, ¬ ended t r)
    (hact : (record s' = record p.shared ∧ ∀ r, ¬ ended t' r) ∨
      ∃ r, owner r = i ∧ ended t' r ∧ record s' = record p.shared ++ [r]) :
    TrueRecord record owner ended ⟨s', p.tasks.set i t'⟩ := by
  -- the acting task is in no record so far
  have hne : ∀ r ∈ record p.shared, owner r ≠ i := by
    rintro r hr rfl
    obtain ⟨q, hq, hended⟩ := h.sound r hr
    exact hrunning r (Option.some.inj (ht.symm.trans hq) ▸ hended)
  have hlt := (List.getElem?_eq_some_iff.mp ht).1
  have hold : ∀ r ∈ record p.shared, ∃ q, (p.tasks.set i t')[owner r]? = some q ∧ ended q r := by
    intro r hr
    obtain ⟨q, hq, hended⟩ := h.sound r hr
    exact ⟨q, by rw [getElem?_set_ne (Ne.symm (hne r hr))]; exact hq, hended⟩
  rcases hact with ⟨hsame, hnot⟩ | ⟨new, howner, hended, happended⟩
  · refine ⟨fun r hr => hold r (hsame ▸ hr), fun j q r hq hr => ?_, ?_⟩
    · rw [hsame]
      rcases getElem?_acted hq with ⟨-, rfl⟩ | ⟨-, hq⟩
      · exact absurd hr (hnot r)
      · exact h.complete j q r hq hr
    · exact hsame ▸ h.once
  · refine ⟨fun r hr => ?_, fun j q r hq hr => ?_, ?_⟩
    · rw [happended] at hr
      rcases mem_append.mp hr with hr | hr
      · exact hold r hr
      · rw [mem_singleton] at hr
        subst hr
        exact ⟨t', by rw [howner]; exact getElem?_set_self hlt, hended⟩
    · rw [happended]
      rcases getElem?_acted hq with ⟨rfl, rfl⟩ | ⟨-, hq⟩
      · exact ⟨new, mem_append_right _ (mem_singleton_self new), howner, hended⟩
      · obtain ⟨r', hr', hrest⟩ := h.complete j q r hq hr
        exact ⟨r', mem_append_left _ hr', hrest⟩
    · rw [happended, map_append, nodup_append]
      refine ⟨h.once, by simp, ?_⟩
      intro x hx y hy
      obtain ⟨r, hr, rfl⟩ := mem_map.mp hx
      simp only [map_cons, map_nil, mem_singleton] at hy
      rw [hy, howner]
      exact hne r hr

/-- **Record rule.** The record of a recorder is true in every state reached. -/
theorem Recorder.run (o : P.Recorder record owner ended)
    (h : P.machine.Run C p) : TrueRecord record owner ended p := by
  refine h.invariant ?_ fun p m p' _ hp _ hs => ?_
  · rintro ⟨s, ts⟩ ⟨hi, hts⟩
    subst hts
    have hempty : record s = [] := o.init s hi
    exact ⟨by simp [hempty], by simp, by simp [hempty]⟩
  · rcases step_cases hs with ⟨t, rfl, hfresh, rfl⟩ | ⟨i, a, t, s', t', rfl, ht, ha, rfl⟩ |
        ⟨e, s', rfl, he, rfl⟩
    · exact hp.spawn fun r => o.fresh t r hfresh
    · obtain ⟨hrunning, hact⟩ := o.act p.shared i t a s' t' ha
      exact hp.act ht hrunning hact
    · have hsame : record s' = record p.shared := o.env p.shared e s' he
      refine ⟨fun r hr => hp.sound r (hsame ▸ hr), fun i t r ht hr => ?_, ?_⟩
      · obtain ⟨r', hr', hrest⟩ := hp.complete i t r ht hr
        exact ⟨r', hsame.symm ▸ hr', hrest⟩
      · exact hsame ▸ hp.once

end records

end Program

section alone

variable {act : σ → τ → α → Option (σ × τ)}

/-- The actions of one task, with nothing in between. -/
def alone (act : σ → τ → α → Option (σ × τ)) : σ → τ → List α → Option (σ × τ)
  | s, t, [] => some (s, t)
  | s, t, a :: as =>
    match act s t a with
    | none => none
    | some (s', t') => alone act s' t' as

variable {I : σ → τ → Prop} {as : List α}

/-- What every action of the task keeps, of those that are taken, holds at the end. -/
theorem alone_invariant_of (P : α → Prop)
    (hact : ∀ s t a s' t', P a → I s t → act s t a = some (s', t') → I s' t') {s s' : σ} {t' : τ}
    (hP : ∀ a ∈ as, P a) (h : I s t) (hrun : alone act s t as = some (s', t')) : I s' t' := by
  induction as generalizing s t with
  | nil =>
    cases hrun
    exact h
  | cons a as ih =>
    simp only [alone] at hrun
    cases hcall : act s t a with
    | none => simp [hcall] at hrun
    | some out =>
      rw [hcall] at hrun
      exact ih (fun b hb => hP b (mem_cons_of_mem a hb))
        (hact s t a out.1 out.2 (hP a mem_cons_self) h hcall) hrun

theorem alone_invariant (hact : ∀ s t a s' t', I s t → act s t a = some (s', t') → I s' t')
    {s s' : σ} {t' : τ} (h : I s t) (hrun : alone act s t as = some (s', t')) : I s' t' :=
  alone_invariant_of (fun _ => True) (fun s t a s' t' _ => hact s t a s' t')
    (fun _ _ => trivial) h hrun

variable {out : σ × τ}

/-- The actions of a task are those of another one that it is part of. -/
theorem alone_embed {τ' : Type*} {act' : σ → τ' → α → Option (σ × τ')} {f : τ → τ'}
    (hact : ∀ {s t a out}, act s t a = some out → act' s (f t) a = some (out.1, f out.2)) {s : σ}
    (hrun : alone act s t as = some out) :
    alone act' s (f t) as = some (out.1, f out.2) := by
  induction as generalizing s t with
  | nil =>
    cases hrun
    rfl
  | cons a as ih =>
    simp only [alone] at hrun ⊢
    split at hrun
    · cases hrun
    · rename_i _ hcall
      rw [hact hcall]
      exact ih hrun

theorem alone_cons {s : σ} {a : α} (s₁ : σ) (t₁ : τ) (h₁ : act s t a = some (s₁, t₁))
    (h₂ : alone act s₁ t₁ as = some out) :
    alone act s t (a :: as) = some out := by
  simp only [alone, h₁]
  exact h₂

theorem alone_append {s s₁ s₂ : σ} {t₁ t₂ : τ} {as bs : List α}
    (h₁ : alone act s t as = some (s₁, t₁)) (h₂ : alone act s₁ t₁ bs = some (s₂, t₂)) :
    alone act s t (as ++ bs) = some (s₂, t₂) := by
  induction as generalizing s t with
  | nil =>
    cases h₁
    exact h₂
  | cons a as ih =>
    simp only [cons_append, alone] at h₁ ⊢
    split at h₁
    · cases h₁
    · exact ih h₁

end alone

end Transition
