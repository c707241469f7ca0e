import Mathlib.Data.List.Nodup

/-! # Loops that may stop

A loop over a list whose body may have no result: what holds before the first turn and is
kept by each holds at the end, and a body that always goes on takes the loop to its end. -/

namespace Folds

open List

variable {σ α : Type*} {f : σ → α → Option σ}

variable {l : List α} {s : σ}

/-- The rule of a loop; the assertion may speak of the items that are left. -/
theorem foldlM_rule {J : List α → σ → Prop}
    (hstep : ∀ a rest s s', J (a :: rest) s → f s a = some s' → J rest s')
    {s' : σ} (hs : J l s) (h : l.foldlM f s = some s') : J [] s' := by
  induction l generalizing s with
  | nil =>
    simp only [foldlM_nil, Option.pure_def, Option.some.injEq] at h
    subst h
    exact hs
  | cons a rest ih =>
    rw [foldlM_cons, Option.bind_eq_bind, Option.bind_eq_some_iff] at h
    obtain ⟨s₁, h₁, hrest⟩ := h
    exact ih (hstep a rest s s₁ hs h₁) hrest

variable {I : σ → Prop}

theorem foldlM_keeps (hstep : ∀ a ∈ l, ∀ s s', I s → f s a = some s' → I s') {s' : σ} (hs : I s)
    (h : l.foldlM f s = some s') : I s' := by
  have hrule := foldlM_rule (f := f) (J := fun rest s => (∀ a ∈ rest, a ∈ l) ∧ I s)
    (fun a rest s s' hJ ha =>
      ⟨fun b hb => hJ.1 b (mem_cons_of_mem a hb), hstep a (hJ.1 a mem_cons_self) s s' hJ.2 ha⟩)
    ⟨fun _ ha => ha, hs⟩ h
  exact hrule.2

/-- The rule of a loop whose body may know how the loop came to its turn. -/
theorem foldlM_past {s₀ : σ}
    (hstep : ∀ past a rest s s', l = past ++ a :: rest → past.foldlM f s₀ = some s → I s →
      f s a = some s' → I s') {s' : σ} (hs : I s₀) (h : l.foldlM f s₀ = some s') : I s' := by
  have hrule := foldlM_rule (f := f)
    (J := fun rest s => ∃ past, l = past ++ rest ∧ past.foldlM f s₀ = some s ∧ I s)
    (fun a rest s s' hJ ha => by
      obtain ⟨past, hl, hpast, hI⟩ := hJ
      refine ⟨past ++ [a], by simp [hl], ?_, hstep past a rest s s' hl hpast hI ha⟩
      simp [foldlM_append, hpast, ha])
    ⟨[], rfl, rfl, hs⟩ h
  obtain ⟨-, -, -, hI⟩ := hrule
  exact hI

theorem foldlM_split {past rest : List α} {a : α} {s s₁ s' : σ}
    (h : (past ++ a :: rest).foldlM f s = some s') (hpast : past.foldlM f s = some s₁) :
    ∃ s₂, f s₁ a = some s₂ ∧ rest.foldlM f s₂ = some s' := by
  simp only [foldlM_append, hpast, Option.bind_eq_bind, Option.bind_some, foldlM_cons] at h
  exact Option.bind_eq_some_iff.mp h

theorem foldlM_total (hstep : ∀ a ∈ l, ∀ s, I s → ∃ s', f s a = some s' ∧ I s') (hs : I s) :
    ∃ s', l.foldlM f s = some s' ∧ I s' := by
  induction l generalizing s with
  | nil => exact ⟨s, rfl, hs⟩
  | cons a rest ih =>
    obtain ⟨s₁, h₁, hs₁⟩ := hstep a mem_cons_self s hs
    obtain ⟨s', h', hs'⟩ := ih (fun b hb => hstep b (mem_cons_of_mem a hb)) hs₁
    refine ⟨s', ?_, hs'⟩
    rw [foldlM_cons, h₁]
    exact h'

end Folds
