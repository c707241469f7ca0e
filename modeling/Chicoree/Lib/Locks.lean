import Mathlib.Data.List.Basic

/-! # Locks

A lock table lists which task holds which key. An exclusive lock is taken only
when no other task holds the key; `Exclusive` is the invariant this gives. The
same table without that discipline records shared locks. -/

namespace Locks

universe u
variable {κ : Type u} [DecidableEq κ]

abbrev Table (κ : Type u) := List (κ × Nat)

/-- No task other than `i` holds the key. -/
def free (l : Table κ) (k : κ) (i : Nat) : Bool :=
  List.all l fun e => !(decide (e.1 = k) && decide (e.2 ≠ i))

def unheld (l : Table κ) (k : κ) : Bool :=
  List.all l fun e => decide (e.1 ≠ k)

def acquire (l : Table κ) (k : κ) (i : Nat) : Table κ :=
  if (k, i) ∈ l then l else l ++ [(k, i)]

def release (l : Table κ) (i : Nat) : Table κ :=
  List.filter (fun e => decide (e.2 ≠ i)) l

/-- At most one task holds a key. -/
def Exclusive (l : Table κ) : Prop :=
  ∀ k i j, (k, i) ∈ l → (k, j) ∈ l → i = j

variable {l : Table κ} {k k' : κ} {i j : Nat}

theorem free_iff : free l k i = true ↔ ∀ j, (k, j) ∈ l → j = i := by
  simp only [free, List.all_eq_true, Bool.not_eq_true', Bool.and_eq_false_iff,
    decide_eq_false_iff_not, not_not]
  constructor
  · intro h j hj
    rcases h _ hj with h | h
    · exact absurd rfl h
    · exact h
  · rintro h ⟨k', j⟩ he
    by_cases hk : k' = k
    · subst hk
      exact .inr (h j he)
    · exact .inl hk

theorem mem_acquire : (k', j) ∈ acquire l k i ↔ (k', j) ∈ l ∨ (k' = k ∧ j = i) := by
  unfold acquire
  split
  · rename_i h
    constructor
    · exact .inl
    · rintro (h' | ⟨rfl, rfl⟩)
      · exact h'
      · exact h
  · simp

omit [DecidableEq κ] in
theorem mem_release : (k, j) ∈ release l i ↔ (k, j) ∈ l ∧ j ≠ i := by
  simp [release]

omit [DecidableEq κ] in
theorem Exclusive.nil : Exclusive ([] : Table κ) := by
  intro k i j h
  simp at h

theorem Exclusive.acquire (h : Exclusive l) (hf : free l k i = true) :
    Exclusive (Locks.acquire l k i) := by
  intro k' a b ha hb
  rw [free_iff] at hf
  rcases mem_acquire.mp ha with ha | ⟨hk, hai⟩ <;>
    rcases mem_acquire.mp hb with hb | ⟨hk', hbi⟩
  · exact h k' a b ha hb
  · rw [hbi]
    exact hf a (hk' ▸ ha)
  · rw [hai]
    exact (hf b (hk ▸ hb)).symm
  · rw [hai, hbi]

omit [DecidableEq κ] in
theorem Exclusive.release (h : Exclusive l) (i : Nat) : Exclusive (Locks.release l i) :=
  fun k a b ha hb => h k a b (mem_release.mp ha).1 (mem_release.mp hb).1

end Locks
