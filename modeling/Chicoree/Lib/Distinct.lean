import Mathlib.Algebra.Order.BigOperators.Group.Finset
import Mathlib.Algebra.Order.Ring.Int

/-! # Sums over distinct rows

What `SELECT sum(w) FROM (SELECT DISTINCT …)` computes. The sum depends only on which rows
there are, not on how often or in which order a join lists them. -/

namespace Distinct

open List

universe u v

variable {ρ : Type u} [DecidableEq ρ] {rows rows' : List ρ} {w : ρ → Nat}

/-- The weights of the rows, each row once. -/
def total (w : ρ → Nat) (rows : List ρ) : Nat := (rows.dedup.map w).sum

theorem total_congr (h : ∀ r, r ∈ rows ↔ r ∈ rows') : total w rows = total w rows' := by
  have hperm : rows.dedup.Perm rows'.dedup := by
    refine (perm_ext_iff_of_nodup (nodup_dedup _) (nodup_dedup _)).mpr ?_
    intro r
    rw [mem_dedup, mem_dedup]
    exact h r
  exact (hperm.map w).sum_eq

theorem total_insert {r : ρ} (h : ∀ x, x ∈ rows' ↔ x = r ∨ x ∈ rows) (hr : r ∉ rows) :
    total w rows' = total w rows + w r := by
  have hcons : total w rows' = total w (r :: rows) := by
    refine total_congr fun x => ?_
    rw [mem_cons]
    exact h x
  rw [hcons]
  unfold total
  rw [dedup_cons_of_notMem hr, map_cons, sum_cons, Nat.add_comm]

theorem total_eq_sum (w : ρ → Nat) (rows : List ρ) : total w rows = rows.toFinset.sum w := by
  have hset : rows.dedup.toFinset = rows.toFinset := by
    ext r
    rw [mem_toFinset, mem_toFinset, mem_dedup]
  rw [← hset, sum_toFinset w (nodup_dedup rows)]
  rfl

theorem total_congr_pos (h : ∀ r, 0 < w r → (r ∈ rows ↔ r ∈ rows')) :
    total w rows = total w rows' := by
  have hpos (l : List ρ) : total w l = total w (l.filter fun r => decide (0 < w r)) := by
    rw [total_eq_sum, total_eq_sum, toFinset_filter]
    refine (Finset.sum_filter_of_ne ?_).symm
    intro r _ hr
    exact decide_eq_true (Nat.pos_of_ne_zero hr)
  rw [hpos rows, hpos rows']
  refine total_congr fun r => ?_
  rw [mem_filter, mem_filter]
  exact and_congr_left fun hr => h r (of_decide_eq_true hr)

theorem total_mono (h : ∀ r ∈ rows, r ∈ rows') : total w rows ≤ total w rows' := by
  rw [total_eq_sum, total_eq_sum]
  refine Finset.sum_le_sum_of_subset fun r hr => ?_
  rw [mem_toFinset] at hr ⊢
  exact h r hr

/-! ## Rows by a key -/

section keys

variable {σ : Type v} [DecidableEq σ] {w : ρ → Nat} {w' : σ → Nat} {g : ρ → σ} {rows : List ρ}

/-- The weight of a key is there for each of its rows. -/
theorem sum_fiber (hw : ∀ r ∈ rows, w r = w' (g r)) (y : σ) :
    (rows.toFinset.filter fun r => g r = y).sum w =
      (rows.toFinset.filter fun r => g r = y).card * w' y := by
  refine Finset.sum_const_nat fun r hr => ?_
  obtain ⟨hmem, hy⟩ := Finset.mem_filter.mp hr
  rw [hw r (mem_toFinset.mp hmem), hy]

theorem card_fiber_pos {y : σ} (hy : y ∈ (rows.map g).toFinset) :
    0 < (rows.toFinset.filter fun r => g r = y).card := by
  obtain ⟨r, hr, rfl⟩ := mem_map.mp (mem_toFinset.mp hy)
  exact Finset.card_pos.mpr ⟨r, Finset.mem_filter.mpr ⟨mem_toFinset.mpr hr, rfl⟩⟩

theorem total_eq_sum_fibers (hw : ∀ r ∈ rows, w r = w' (g r)) :
    total w rows = (rows.map g).toFinset.sum fun y =>
      (rows.toFinset.filter fun r => g r = y).card * w' y := by
  have hmaps : ∀ r ∈ rows.toFinset, g r ∈ (rows.map g).toFinset := by
    intro r hr
    exact mem_toFinset.mpr (mem_map_of_mem (mem_toFinset.mp hr))
  rw [total_eq_sum, ← Finset.sum_fiberwise_of_maps_to hmaps]
  exact Finset.sum_congr rfl fun y _ => sum_fiber hw y

theorem total_map_le (hw : ∀ r ∈ rows, w r = w' (g r)) : total w' (rows.map g) ≤ total w rows := by
  rw [total_eq_sum_fibers hw, total_eq_sum]
  refine Finset.sum_le_sum fun y hy => ?_
  exact Nat.le_mul_of_pos_left _ (card_fiber_pos hy)

/-- Counting keys is counting rows where no two rows that weigh something share one. -/
theorem total_map_eq_iff (hw : ∀ r ∈ rows, w r = w' (g r)) : total w' (rows.map g) = total w rows ↔
      ∀ r ∈ rows, ∀ r' ∈ rows, 0 < w r → g r = g r' → r = r' := by
  rw [total_eq_sum_fibers hw, total_eq_sum, Finset.sum_eq_sum_iff_of_le
    fun y hy => Nat.le_mul_of_pos_left _ (card_fiber_pos hy)]
  constructor
  · intro hall r hr r' hr' hpos hkey
    have hy : g r ∈ (rows.map g).toFinset := mem_toFinset.mpr (mem_map_of_mem hr)
    have hone := hall (g r) hy
    rw [← hw r hr] at hone
    have hcard : (rows.toFinset.filter fun x => g x = g r).card ≤ 1 := by
      by_contra hmore
      have hmul : 2 * w r ≤ (rows.toFinset.filter fun x => g x = g r).card * w r :=
        Nat.mul_le_mul_right _ (by omega)
      omega
    refine Finset.card_le_one.mp hcard r ?_ r' ?_
    · exact Finset.mem_filter.mpr ⟨mem_toFinset.mpr hr, rfl⟩
    · exact Finset.mem_filter.mpr ⟨mem_toFinset.mpr hr', hkey.symm⟩
  · intro hinj y hy
    obtain ⟨r, hr, rfl⟩ := mem_map.mp (mem_toFinset.mp hy)
    by_cases hzero : w' (g r) = 0
    · rw [hzero, Nat.mul_zero]
    · have hpos : 0 < w r := by
        rw [hw r hr]
        omega
      have hcard : (rows.toFinset.filter fun x => g x = g r).card = 1 := by
        refine Finset.card_eq_one.mpr ⟨r, ?_⟩
        ext x
        rw [Finset.mem_filter, mem_toFinset, Finset.mem_singleton]
        constructor
        · intro hx
          exact (hinj r hr x hx.1 hpos hx.2.symm).symm
        · rintro rfl
          exact ⟨hr, rfl⟩
      rw [hcard, Nat.one_mul]

end keys

/-! ## Rows of a join

A join lists a row once for each partner; counting its rows counts the rows with a partner
only where none has two. -/

section join

variable {σ : Type u} {τ : Type v} {f : σ → List τ} {p : σ → Bool}

/-- The rows of a join are the rows with a partner, and one more for each further
partner. -/
theorem length_join {rows : List σ} (h : ∀ r ∈ rows, f r ≠ [] ↔ p r = true) :
    (rows.flatMap f).length =
      rows.countP p + ((rows.filter p).map fun r => (f r).length - 1).sum := by
  induction rows with
  | nil => rfl
  | cons r rows ih =>
    have hr : f r ≠ [] ↔ p r = true := h r (mem_cons_self ..)
    have hrest := ih fun x hx => h x (mem_cons_of_mem r hx)
    rw [flatMap_cons, length_append, hrest, countP_cons, filter_cons]
    by_cases hp : p r = true
    · have hpos : 0 < (f r).length := length_pos_of_ne_nil (hr.mpr hp)
      rw [if_pos hp, if_pos hp, map_cons, sum_cons]
      omega
    · have hnone : f r = [] := by
        by_contra hne
        exact hp (hr.mp hne)
      rw [if_neg hp, if_neg hp, hnone, length_nil]
      omega

end join

end Distinct
