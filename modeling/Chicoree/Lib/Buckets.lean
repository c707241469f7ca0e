import Mathlib.Algebra.BigOperators.Group.List.Basic

/-! # Amounts by key

An aggregate in memory: entries under keys, to which amounts are added and into which another
aggregate is merged. What counts is the amount under a key, which neither the order of the
entries nor the way they are split over several lists changes. -/

namespace Buckets

universe u v

variable {κ : Type u} {M : Type v} [DecidableEq κ] [AddCommMonoid M]

def amount (k : κ) : List (κ × M) → M
  | [] => 0
  | e :: b => (if e.1 = k then e.2 else 0) + amount k b

/-- Add to the entry of a key, or append one. -/
def add (k : κ) (d : M) : List (κ × M) → List (κ × M)
  | [] => [(k, d)]
  | e :: b => if e.1 = k then (k, e.2 + d) :: b else e :: add k d b

/-- Add all entries of a batch, in its order. -/
def merge (b batch : List (κ × M)) : List (κ × M) := batch.foldl (fun b e => add e.1 e.2 b) b

@[simp] theorem amount_nil (k : κ) : amount k ([] : List (κ × M)) = 0 := rfl

theorem amount_append (k : κ) (b c : List (κ × M)) :
    amount k (b ++ c) = amount k b + amount k c := by
  induction b with
  | nil => rw [List.nil_append, amount_nil, zero_add]
  | cons e b ih =>
    show _ + amount k (b ++ c) = _ + amount k b + amount k c
    rw [ih, add_assoc]

theorem amount_perm {b c : List (κ × M)} (h : b.Perm c) (k : κ) : amount k b = amount k c := by
  induction h with
  | nil => rfl
  | cons e _ ih =>
    show _ + _ = _ + _
    rw [ih]
  | swap e e' b =>
    show _ + (_ + amount k b) = _ + (_ + amount k b)
    rw [← add_assoc, ← add_assoc, add_comm (if e.1 = k then e.2 else 0)]
  | trans _ _ ih₁ ih₂ => exact ih₁.trans ih₂

theorem amount_add (k k' : κ) (d : M) (b : List (κ × M)) :
    amount k (add k' d b) = amount k b + if k' = k then d else 0 := by
  induction b with
  | nil =>
    show _ + (0 : M) = 0 + _
    rw [add_comm]
  | cons e b ih =>
    by_cases he : e.1 = k'
    · have hadd : add k' d (e :: b) = (k', e.2 + d) :: b := if_pos he
      rw [hadd]
      show (if k' = k then e.2 + d else 0) + amount k b =
        (if e.1 = k then e.2 else 0) + amount k b + if k' = k then d else 0
      rw [he]
      by_cases hk : k' = k
      · rw [if_pos hk, if_pos hk, if_pos hk, add_assoc, add_assoc, add_comm d]
      · rw [if_neg hk, if_neg hk, if_neg hk, add_zero]
    · have hadd : add k' d (e :: b) = e :: add k' d b := if_neg he
      rw [hadd]
      show (if e.1 = k then e.2 else 0) + amount k (add k' d b) =
        (if e.1 = k then e.2 else 0) + amount k b + if k' = k then d else 0
      rw [ih, add_assoc]

theorem amount_merge (k : κ) (b batch : List (κ × M)) :
    amount k (merge b batch) = amount k b + amount k batch := by
  induction batch generalizing b with
  | nil =>
    show amount k b = amount k b + 0
    rw [add_zero]
  | cons e batch ih =>
    show amount k (merge (add e.1 e.2 b) batch) =
      amount k b + ((if e.1 = k then e.2 else 0) + amount k batch)
    rw [ih, amount_add, add_assoc]

/-! ## Shares -/

section shares

universe w

variable {τ : Type w} {f : τ → M}

theorem sum_others {ts : List τ} {i : Nat} {t : τ} (h : ts[i]? = some t) :
    ∃ others, (ts.map f).sum = others + f t ∧ ∀ t', ((ts.set i t').map f).sum = others + f t' := by
  induction ts generalizing i with
  | nil => simp at h
  | cons x ts ih =>
    cases i with
    | zero =>
      obtain rfl : x = t := by simpa using h
      refine ⟨(ts.map f).sum, ?_, fun t' => ?_⟩
      · exact add_comm (f x) _
      · exact add_comm (f t') _
    | succ i =>
      obtain ⟨others, hbefore, hafter⟩ := ih (i := i) (by simpa using h)
      refine ⟨f x + others, ?_, fun t' => ?_⟩
      · show f x + (ts.map f).sum = _
        rw [hbefore, add_assoc]
      · show f x + ((ts.set i t').map f).sum = _
        rw [hafter, add_assoc]

end shares

end Buckets
