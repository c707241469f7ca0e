import Mathlib.Data.List.Sort
import Mathlib.Data.List.Basic

/-! # Ranks

The rank of an element is how many elements of the list come before it. In a list that a
total order sorts, an element is among the first `n` exactly when its rank is less than `n`. -/

namespace Rank

open List

universe u

variable {α : Type u} {le : α → α → Bool} {l : List α} {x y : α} {n : Nat}

/-- How many elements come before an element. -/
def rank (le : α → α → Bool) (l : List α) (x : α) : Nat :=
  l.countP fun y => !le x y

theorem rank_perm {l' : List α} (h : l.Perm l') (x : α) : rank le l x = rank le l' x :=
  h.countP_eq _

/-- The order of a list: total, transitive, and ties only between equal elements. -/
structure Orders (le : α → α → Bool) (l : List α) : Prop where
  total : ∀ a b, (le a b || le b a) = true
  trans : ∀ a b c, le a b = true → le b c = true → le a c = true
  antisymm : ∀ a ∈ l, ∀ b ∈ l, le a b = true → le b a = true → a = b

theorem Orders.refl (h : Orders le l) (a : α) : le a a = true := by
  have htotal := h.total a a
  rwa [Bool.or_self] at htotal

theorem Orders.mono {l' : List α} (h : Orders le l) (hsub : ∀ a ∈ l', a ∈ l) : Orders le l' :=
  ⟨h.total, h.trans, fun a ha b hb => h.antisymm a (hsub a ha) b (hsub b hb)⟩

theorem Orders.sorted (h : Orders le l) : (l.mergeSort le).Pairwise fun a b => le a b = true :=
  List.pairwise_mergeSort h.trans h.total l

theorem mem_take_of_sorted (h : Orders le l) (hsorted : l.Pairwise fun a b => le a b = true)
    (hnodup : l.Nodup) (hx : x ∈ l) : x ∈ l.take n ↔ rank le l x < n := by
  induction l generalizing n with
  | nil => cases hx
  | cons a l ih =>
    obtain ⟨hfirst, hrest⟩ := pairwise_cons.mp hsorted
    obtain ⟨hfresh, hdistinct⟩ := nodup_cons.mp hnodup
    cases n with
    | zero => simp
    | succ n =>
      rw [take_succ_cons, mem_cons]
      by_cases hxa : x = a
      · -- nothing comes before the first element
        subst hxa
        have hzero : rank le (x :: l) x = 0 := by
          refine countP_eq_zero.mpr fun y hy => ?_
          have hle : le x y = true := by
            rcases mem_cons.mp hy with rfl | hy
            · exact h.refl y
            · exact hfirst y hy
          simp [hle]
        constructor
        · intro _
          omega
        · intro _
          exact .inl rfl
      · have hmem : x ∈ l := (mem_cons.mp hx).resolve_left hxa
        have hbefore : le x a = false := by
          by_contra hle
          rw [Bool.not_eq_false] at hle
          exact hxa (h.antisymm x hx a mem_cons_self hle (hfirst x hmem))
        have hrank : rank le (a :: l) x = rank le l x + 1 := by
          unfold rank
          rw [countP_cons_of_pos (by simp [hbefore])]
        have ih := ih (h.mono fun b hb => mem_cons_of_mem a hb) hrest hdistinct hmem (n := n)
        constructor
        · intro htake
          have := ih.mp (htake.resolve_left hxa)
          omega
        · intro hlt
          exact .inr (ih.mpr (by omega))

/-- **Being among the first is a matter of the rank**, which does not depend on the order in
which the list is given. -/
theorem mem_take_mergeSort (h : Orders le l) (hnodup : l.Nodup) (hx : x ∈ l) :
    x ∈ (l.mergeSort le).take n ↔ rank le l x < n := by
  have hperm := mergeSort_perm l le
  rw [← rank_perm hperm x]
  exact mem_take_of_sorted (h.mono fun a ha => hperm.mem_iff.mp ha) h.sorted
    (hperm.nodup_iff.mpr hnodup) (hperm.mem_iff.mpr hx)

theorem mergeSort_perm_eq {l' : List α} (h : Orders le l) (hperm : l'.Perm l) :
    l'.mergeSort le = l.mergeSort le := by
  have hsame : (l'.mergeSort le).Perm (l.mergeSort le) :=
    (mergeSort_perm l' le).trans (hperm.trans (mergeSort_perm l le).symm)
  have hsorted : (l'.mergeSort le).Pairwise fun a b => le a b = true :=
    pairwise_mergeSort h.trans h.total l'
  refine hsame.eq_of_pairwise (fun a b ha hb hab hba => ?_) hsorted h.sorted
  have ha : a ∈ l := hperm.mem_iff.mp ((mergeSort_perm l' le).mem_iff.mp ha)
  have hb : b ∈ l := (mergeSort_perm l le).mem_iff.mp hb
  exact h.antisymm a ha b hb hab hba

end Rank
