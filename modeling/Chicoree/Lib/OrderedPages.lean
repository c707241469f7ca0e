import Mathlib.Data.List.Nodup
import Mathlib.Data.List.Sort

/-! # Pages of ordered rows

Rows come ordered by a key that need not tell them apart, and each page may be cut from another
order of them. -/

namespace OrderedPages

open List

universe u v

variable {ρ : Type u} {κ : Type v} [LinearOrder κ] {key : ρ → κ} {rows l l' : List ρ} {n : Nat}

/-- An order the rows may come in. -/
structure Sorted (key : ρ → κ) (rows l : List ρ) : Prop where
  perm : l.Perm rows
  sorted : l.Pairwise fun x y => key x ≤ key y

/-- How many rows come before those with the key of `x`. -/
def before (key : ρ → κ) (rows : List ρ) (x : ρ) : Nat :=
  rows.countP fun y => decide (key y < key x)

/-- How many rows come before those with a greater key than `x`. -/
def upto (key : ρ → κ) (rows : List ρ) (x : ρ) : Nat :=
  rows.countP fun y => decide (key y ≤ key x)

/-- So many rows end among rows of one key. -/
def Splits (key : ρ → κ) (rows : List ρ) (n : Nat) : Prop :=
  ∃ x ∈ rows, before key rows x < n ∧ n < upto key rows x

theorem exists_sorted (key : ρ → κ) (rows : List ρ) : ∃ l, Sorted key rows l := by
  refine ⟨rows.mergeSort fun x y => decide (key x ≤ key y), mergeSort_perm .., ?_⟩
  have h := @pairwise_mergeSort ρ (fun x y => decide (key x ≤ key y))
    (fun x y z hxy hyz => by simp only [decide_eq_true_eq] at *; exact hxy.trans hyz)
    (fun x y => by simp [le_total]) rows
  exact h.imp of_decide_eq_true

/-- The first rows are the same in every order, where they do not end among ties. -/
theorem Sorted.mem_take_iff (h : Sorted key rows l) (hrows : rows.Nodup)
    (hn : ¬ Splits key rows n) {x : ρ} (hx : x ∈ rows) :
    x ∈ l.take n ↔ upto key rows x ≤ n := by
  obtain ⟨a, b, rfl⟩ := append_of_mem (h.perm.mem_iff.mpr hx)
  have hnodup := h.perm.nodup_iff.mpr hrows
  have hsorted := pairwise_append.mp h.sorted
  have hxa : x ∉ a := fun hmem => (nodup_append.mp hnodup).2.2 x hmem x mem_cons_self rfl
  have hupto : a.length + 1 ≤ upto key rows x := by
    have hall : a.countP (fun y => decide (key y ≤ key x)) = a.length :=
      countP_eq_length.mpr fun y hy => decide_eq_true (hsorted.2.2 y hy x mem_cons_self)
    unfold upto
    rw [← h.perm.countP_eq, countP_append, hall, countP_cons, if_pos (decide_eq_true le_rfl)]
    omega
  have hbefore : before key rows x ≤ a.length := by
    have hnone : (x :: b).countP (fun y => decide (key y < key x)) = 0 := by
      refine countP_eq_zero.mpr fun y hy => ?_
      rw [decide_eq_true_eq, not_lt]
      rcases mem_cons.mp hy with rfl | hy
      · exact le_rfl
      · exact rel_of_pairwise_cons hsorted.2.1 hy
    unfold before
    rw [← h.perm.countP_eq, countP_append, hnone]
    exact countP_le_length
  have htake : x ∈ (a ++ x :: b).take n ↔ a.length < n := by
    rw [take_append, mem_append]
    constructor
    · rintro (hmem | hmem)
      · exact absurd (mem_of_mem_take hmem) hxa
      · by_contra hlt
        rw [Nat.sub_eq_zero_of_le (by omega), take_zero] at hmem
        cases hmem
    · intro hlt
      obtain ⟨k, hk⟩ : ∃ k, n - a.length = k + 1 := ⟨n - a.length - 1, by omega⟩
      rw [hk]
      exact .inr mem_cons_self
  rw [htake]
  constructor
  · intro hlt
    by_contra hmore
    exact hn ⟨x, hx, by omega, by omega⟩
  · omega

/-- Two orders, where so many rows end among ties: a row is the last of them in one and the
next in the other. -/
theorem exists_swapped (h : Splits key rows n) : ∃ a x y b, a.length + 1 = n ∧
    Sorted key rows (a ++ x :: y :: b) ∧ Sorted key rows (a ++ y :: x :: b) := by
  obtain ⟨z, -, hbefore, hupto⟩ := h
  obtain ⟨l, hl⟩ := exists_sorted key rows
  have hlength : n < l.length := by
    rw [hl.perm.length_eq]
    exact hupto.trans_le countP_le_length
  obtain ⟨m, rfl⟩ : ∃ m, n = m + 1 := ⟨n - 1, by omega⟩
  obtain ⟨a, b, x, y, rfl, rfl⟩ : ∃ a b x y, l = a ++ x :: y :: b ∧ a.length = m := by
    refine ⟨l.take m, l.drop (m + 2), l[m], l[m + 1], ?_, ?_⟩
    · rw [← drop_eq_getElem_cons, ← drop_eq_getElem_cons, take_append_drop]
    · rw [length_take]
      omega
  obtain ⟨hperm, hsorted⟩ := hl
  obtain ⟨ha, hxy, hcross⟩ := pairwise_append.mp hsorted
  obtain ⟨hx, hy, hb⟩ : (∀ w ∈ y :: b, key x ≤ key w) ∧ (∀ w ∈ b, key y ≤ key w) ∧
      b.Pairwise fun x y => key x ≤ key y := by
    simpa only [pairwise_cons] using hxy
  -- the row before the end is not before the ties, and the next one not behind them
  have hzx : key z ≤ key x := by
    by_contra hlt
    rw [not_le] at hlt
    have hall : a.countP (fun w => decide (key w < key z)) = a.length :=
      countP_eq_length.mpr fun w hw =>
        decide_eq_true ((hcross w hw x mem_cons_self).trans_lt hlt)
    unfold before at hbefore
    rw [← hperm.countP_eq, countP_append, hall, countP_cons, if_pos (decide_eq_true hlt)]
      at hbefore
    omega
  have hyz : key y ≤ key z := by
    by_contra hlt
    rw [not_le] at hlt
    have hnone : (y :: b).countP (fun w => decide (key w ≤ key z)) = 0 := by
      refine countP_eq_zero.mpr fun w hw => ?_
      rw [decide_eq_true_eq, not_le]
      rcases mem_cons.mp hw with rfl | hw
      · exact hlt
      · exact hlt.trans_le (hy w hw)
    have hle := countP_le_length (p := fun w => decide (key w ≤ key z)) (l := a ++ [x])
    unfold upto at hupto
    rw [← hperm.countP_eq, append_cons, countP_append, hnone] at hupto
    rw [length_append, length_singleton] at hle
    omega
  refine ⟨a, x, y, b, rfl, ⟨hperm, hsorted⟩, ?_, ?_⟩
  · exact ((Perm.swap x y b).append_left a).trans hperm
  · refine pairwise_append.mpr ⟨ha, ?_, fun w hw c hc => ?_⟩
    · refine pairwise_cons.mpr ⟨fun w hw => ?_, pairwise_cons.mpr ⟨fun w hw => ?_, hb⟩⟩
      · rcases mem_cons.mp hw with rfl | hw
        · exact hyz.trans hzx
        · exact hy w hw
      · exact hx w (mem_cons_of_mem y hw)
    · exact hcross w hw c ((Perm.swap x y b).mem_iff.mp hc)

/-! ## All pages -/

/-- The rows behind the first `offset`, at most `limit` of them. -/
def slice (limit offset : Nat) (l : List ρ) : List ρ := (l.drop offset).take limit

variable {order : Nat → List ρ} {size pages : Nat}

theorem mem_slice_iff (h : Sorted key rows l) (hrows : rows.Nodup)
    (hfrom : ¬ Splits key rows n) (hto : ¬ Splits key rows (n + size)) {x : ρ} :
    x ∈ slice size n l ↔ x ∈ rows ∧ n < upto key rows x ∧ upto key rows x ≤ n + size := by
  have hnodup := h.perm.nodup_iff.mpr hrows
  have hsplit : l.take (n + size) = l.take n ++ slice size n l := take_add
  have hdisjoint := (nodup_append.mp (hsplit ▸ hnodup.sublist (take_sublist (n + size) l))).2.2
  constructor
  · intro hmem
    have hx : x ∈ rows := h.perm.mem_iff.mp (mem_of_mem_drop (mem_of_mem_take hmem))
    refine ⟨hx, ?_, (h.mem_take_iff hrows hto hx).mp (hsplit ▸ mem_append_right _ hmem)⟩
    rw [← not_le, ← h.mem_take_iff hrows hfrom hx]
    exact fun hbefore => hdisjoint x hbefore x hmem rfl
  · rintro ⟨hx, hlt, hle⟩
    have hmem := (h.mem_take_iff hrows hto hx).mpr hle
    rw [hsplit, mem_append] at hmem
    refine hmem.resolve_left fun hbefore => ?_
    exact absurd ((h.mem_take_iff hrows hfrom hx).mp hbefore) (by omega)

/-- **Partition.** Whatever order each page is cut from, the pages have every row once, if and
only if none ends among ties. -/
theorem pages_perm_iff (hrows : rows.Nodup) (hsize : 0 < size) (hall : rows.length ≤ pages * size) :
    (∀ order : Nat → List ρ, (∀ o, Sorted key rows (order o)) →
      ((range pages).flatMap fun p => slice size (p * size) (order (p * size))).Perm rows) ↔
    ∀ p, ¬ Splits key rows (p * size) := by
  constructor
  · intro hperm p hsplits
    obtain ⟨a, x, y, b, hlength, hl, hl'⟩ := exists_swapped hsplits
    have hrun := hperm (fun o => if o = p * size then a ++ y :: x :: b else a ++ x :: y :: b)
      (fun o => by split <;> assumption)
    obtain ⟨q, rfl⟩ : ∃ q, p = q + 1 := by
      cases p with
      | zero => simp at hlength
      | succ q => exact ⟨q, rfl⟩
    have hmul : (q + 1) * size = q * size + size := Nat.succ_mul q size
    have hrange : q + 1 < pages := by
      by_contra hge
      have hmany := Nat.mul_le_mul_right size (Nat.not_lt.mp hge)
      have hcount := hl.perm.length_eq
      simp only [length_append, length_cons] at hcount
      omega
    have hpairs := (nodup_flatMap.mp (hrun.nodup_iff.mpr hrows)).2
    have hdisjoint := pairwise_iff_getElem.mp hpairs q (q + 1) (by simp; omega) (by simpa) (by omega)
    simp only [getElem_range, Function.onFun] at hdisjoint
    refine hdisjoint (a := x) ?_ ?_
    · rw [if_neg (by omega)]
      have hdrop : (a ++ x :: y :: b).drop (q * size) = a.drop (q * size) ++ x :: y :: b :=
        drop_append_of_le_length (by omega)
      unfold slice
      rw [hdrop, take_append, mem_append]
      obtain ⟨k, hk⟩ : ∃ k, size - (a.drop (q * size)).length = k + 1 :=
        ⟨size - (a.drop (q * size)).length - 1, by rw [length_drop]; omega⟩
      rw [hk]
      exact .inr mem_cons_self
    · rw [if_pos trivial, ← hlength]
      have hdrop : (a ++ y :: x :: b).drop (a.length + 1) = x :: b := by simp
      obtain ⟨k, rfl⟩ : ∃ k, size = k + 1 := ⟨size - 1, by omega⟩
      unfold slice
      rw [hdrop]
      exact mem_cons_self
  · intro hsplits order horder
    have hmem (p : Nat) {x : ρ} : x ∈ slice size (p * size) (order (p * size)) ↔
        x ∈ rows ∧ p * size < upto key rows x ∧ upto key rows x ≤ (p + 1) * size := by
      rw [Nat.succ_mul]
      exact mem_slice_iff (horder _) hrows (hsplits p) (Nat.succ_mul p size ▸ hsplits (p + 1))
    have hnodup : ((range pages).flatMap fun p =>
        slice size (p * size) (order (p * size))).Nodup := by
      refine nodup_flatMap.mpr ⟨fun p _ => ?_, ?_⟩
      · exact ((horder _).perm.nodup_iff.mpr hrows).sublist
          ((take_sublist ..).trans (drop_sublist ..))
      · refine pairwise_lt_range.imp fun {p q} hpq x hp hq => ?_
        have hle : (p + 1) * size ≤ q * size := Nat.mul_le_mul_right size hpq
        have hend := ((hmem p).mp hp).2.2
        have hstart := ((hmem q).mp hq).2.1
        omega
    refine (perm_ext_iff_of_nodup hnodup hrows).mpr fun x => ?_
    simp only [mem_flatMap, mem_range, hmem]
    constructor
    · rintro ⟨p, -, hx, -⟩
      exact hx
    · intro hx
      -- the page of the last row with this key
      have hpos : 0 < upto key rows x := countP_pos_iff.mpr ⟨x, hx, decide_eq_true le_rfl⟩
      have hle : upto key rows x ≤ rows.length := countP_le_length
      have hdiv := Nat.div_add_mod (upto key rows x - 1) size
      have hmod := Nat.mod_lt (upto key rows x - 1) hsize
      rw [Nat.mul_comm] at hdiv
      refine ⟨(upto key rows x - 1) / size, ?_, hx, by omega, ?_⟩
      · rw [Nat.div_lt_iff_lt_mul hsize]
        omega
      · rw [Nat.succ_mul]
        omega

end OrderedPages
