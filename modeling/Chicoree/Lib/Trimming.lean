import Mathlib.Data.List.DropRight

/-! # Texts without their blanks

What `trim` leaves of a text between blanks, and of the pieces of a text that is cut at a
separator. -/

namespace Trimming

open List

universe u
variable {α : Type u} {blank : α → Bool} {s t a b : List α} {c : α}

def Blank (blank : α → Bool) (s : List α) : Prop := ∀ c ∈ s, blank c = true

def trimRight (blank : α → Bool) (s : List α) : List α := (s.reverse.dropWhile blank).reverse

def trim (blank : α → Bool) (s : List α) : List α := trimRight blank (s.dropWhile blank)

/-! ## Blanks at the ends -/

theorem dropWhile_blank (ha : Blank blank a) (s : List α) :
    (a ++ s).dropWhile blank = s.dropWhile blank := by
  induction a with
  | nil => rfl
  | cons c a ih =>
    rw [cons_append, dropWhile_cons_of_pos (ha c mem_cons_self)]
    exact ih fun x hx => ha x (mem_cons_of_mem c hx)

theorem dropWhile_before (hc : blank c = false) (u v : List α) :
    (u ++ c :: v).dropWhile blank = u.dropWhile blank ++ c :: v := by
  induction u with
  | nil => exact dropWhile_cons_of_neg (by simp [hc])
  | cons x u ih =>
    rw [cons_append, dropWhile_cons, dropWhile_cons]
    split
    · exact ih
    · rfl

theorem trimRight_before (hc : blank c = false) (u v : List α) :
    trimRight blank (u ++ c :: v) = u ++ c :: trimRight blank v := by
  unfold trimRight
  rw [reverse_append, reverse_cons, append_assoc, singleton_append, dropWhile_before hc]
  simp

theorem trimRight_blank (hb : Blank blank b) (s : List α) :
    trimRight blank (s ++ b) = trimRight blank s := by
  unfold trimRight
  rw [reverse_append, dropWhile_blank]
  intro c hc
  exact hb c (mem_reverse.mp hc)

theorem dropWhile_none (hb : Blank blank b) : b.dropWhile blank = [] := by
  rw [← append_nil b, dropWhile_blank hb]
  rfl

theorem trimRight_none (hb : Blank blank b) : trimRight blank b = [] := by
  rw [← nil_append b, trimRight_blank hb]
  rfl

theorem trim_around (hc : blank c = false) (u v : List α) :
    trim blank (u ++ c :: v) = u.dropWhile blank ++ c :: trimRight blank v := by
  unfold trim
  rw [dropWhile_before hc, trimRight_before hc]

theorem trim_blank_append (ha : Blank blank a) (s : List α) :
    trim blank (a ++ s) = trim blank s := by
  unfold trim
  rw [dropWhile_blank ha]

theorem blank_or (blank : α → Bool) (s : List α) :
    Blank blank s ∨ ∃ u c v, blank c = false ∧ s = u ++ c :: v := by
  by_cases h : ∃ c ∈ s, blank c = false
  · obtain ⟨c, hc, hnot⟩ := h
    obtain ⟨u, v, rfl⟩ := append_of_mem hc
    exact .inr ⟨u, c, v, hnot, rfl⟩
  · left
    intro c hc
    by_contra hnot
    exact h ⟨c, hc, by simpa using hnot⟩

theorem dropWhile_trimRight (s : List α) : (trimRight blank s).dropWhile blank = trim blank s := by
  rcases blank_or blank s with hs | ⟨u, c, v, hc, rfl⟩
  · rw [trimRight_none hs, trim, dropWhile_none hs]
    rfl
  · rw [trimRight_before hc, dropWhile_before hc, trim_around hc]

theorem trim_append_blank (hb : Blank blank b) (s : List α) :
    trim blank (s ++ b) = trim blank s := by
  rw [← dropWhile_trimRight, trimRight_blank hb, dropWhile_trimRight]

theorem exists_trimRight (blank : α → Bool) (s : List α) :
    ∃ b, Blank blank b ∧ s = trimRight blank s ++ b := by
  refine ⟨(s.reverse.takeWhile blank).reverse, fun c hc => ?_, ?_⟩
  · exact mem_takeWhile_imp (mem_reverse.mp hc)
  · unfold trimRight
    rw [← reverse_append, takeWhile_append_dropWhile, reverse_reverse]

theorem exists_trim (blank : α → Bool) (s : List α) :
    ∃ a b, Blank blank a ∧ Blank blank b ∧ s = a ++ trim blank s ++ b := by
  obtain ⟨b, hb, hright⟩ := exists_trimRight blank (s.dropWhile blank)
  refine ⟨s.takeWhile blank, b, fun _ hc => mem_takeWhile_imp hc, hb, ?_⟩
  unfold trim
  rw [append_assoc, ← hright]
  exact (takeWhile_append_dropWhile).symm

theorem trim_between (ha : Blank blank a) (hb : Blank blank b) (hs : ∀ c ∈ s, blank c = false) :
    trim blank (a ++ s ++ b) = s := by
  rw [trim_append_blank hb, trim_blank_append ha]
  unfold trim trimRight
  have hkept {t : List α} (ht : ∀ c ∈ t, blank c = false) : t.dropWhile blank = t := by
    cases t with
    | nil => rfl
    | cons c t => exact dropWhile_cons_of_neg (by simp [ht c mem_cons_self])
  rw [hkept hs, hkept fun c hc => hs c (mem_reverse.mp hc), reverse_reverse]

theorem trim_dropWhile (s : List α) : trim blank (s.dropWhile blank) = trim blank s := by
  have hs : s = s.takeWhile blank ++ s.dropWhile blank := (takeWhile_append_dropWhile).symm
  conv_rhs => rw [hs]
  exact (trim_blank_append (fun _ hc => mem_takeWhile_imp hc) _).symm

theorem trim_trimRight (s : List α) : trim blank (trimRight blank s) = trim blank s := by
  obtain ⟨b, hb, hs⟩ := exists_trimRight blank s
  conv_rhs => rw [hs]
  exact (trim_append_blank hb _).symm

theorem dropWhile_trim (s : List α) : (trim blank s).dropWhile blank = trim blank s := by
  rw [← dropWhile_trimRight]
  exact dropWhile_idempotent blank _

theorem mem_trim (h : c ∈ trim blank s) : c ∈ s := by
  obtain ⟨a, b, -, -, hs⟩ := exists_trim blank s
  rw [hs]
  exact mem_append_left _ (mem_append_right _ h)

/-! ## Pieces -/

variable {p : α → Bool} {f : List α}

theorem mem_splitOnP (h : c ∈ s) : p c = true ∨ ∃ f ∈ s.splitOnP p, c ∈ f := by
  induction s with
  | nil => cases h
  | cons x s ih =>
    rw [splitOnP_cons_eq_if_modifyHead]
    obtain ⟨g, gs, hgs⟩ := exists_cons_of_ne_nil (splitOnP_ne_nil p s)
    rw [hgs] at ih ⊢
    split
    · rename_i hx
      rcases mem_cons.mp h with rfl | h
      · exact .inl hx
      · exact (ih h).imp_right fun ⟨f, hf, hc⟩ => ⟨f, mem_cons_of_mem _ hf, hc⟩
    · rw [modifyHead_cons]
      rcases mem_cons.mp h with rfl | h
      · exact .inr ⟨_, mem_cons_self, mem_cons_self⟩
      · rcases ih h with hp | ⟨f, hf, hc⟩
        · exact .inl hp
        · rcases mem_cons.mp hf with rfl | hf
          · exact .inr ⟨_, mem_cons_self, mem_cons_of_mem _ hc⟩
          · exact .inr ⟨f, mem_cons_of_mem _ hf, hc⟩

theorem of_mem_splitOnP (hf : f ∈ s.splitOnP p) (hc : c ∈ f) : c ∈ s ∧ p c = false := by
  induction s generalizing f with
  | nil =>
    rw [splitOnP_nil, mem_singleton] at hf
    subst hf
    cases hc
  | cons x s ih =>
    rw [splitOnP_cons_eq_if_modifyHead] at hf
    split at hf
    · rcases mem_cons.mp hf with rfl | hf
      · cases hc
      · exact (ih hf hc).imp_left (mem_cons_of_mem x)
    · rename_i hx
      obtain ⟨g, gs, hgs⟩ := exists_cons_of_ne_nil (splitOnP_ne_nil p s)
      rw [hgs, modifyHead_cons] at hf
      rw [hgs] at ih
      rcases mem_cons.mp hf with rfl | hf
      · rcases mem_cons.mp hc with rfl | hc
        · exact ⟨mem_cons_self, Bool.eq_false_iff.mpr hx⟩
        · exact (ih mem_cons_self hc).imp_left (mem_cons_of_mem x)
      · exact (ih (mem_cons_of_mem g hf) hc).imp_left (mem_cons_of_mem x)

variable [DecidableEq α] {sep : α}

theorem mem_splitOn (sep : α) (h : c ∈ s) : c = sep ∨ ∃ f ∈ s.splitOn sep, c ∈ f := by
  rw [splitOn_eq_splitOnP]
  exact (mem_splitOnP (p := (· == sep)) h).imp_left eq_of_beq

theorem not_sep_of_mem_splitOn (hf : f ∈ s.splitOn sep) : sep ∉ f := by
  intro hc
  rw [splitOn_eq_splitOnP] at hf
  exact absurd (of_mem_splitOnP hf hc).2 (by simp)

theorem reverse_ne (h : sep ∉ b) : ∀ c ∈ b.reverse, decide (c ≠ sep) = true := by
  intro c hc
  refine decide_eq_true ?_
  rintro rfl
  exact h (mem_reverse.mp hc)

/-- A text cut at its last separator. -/
theorem cut_last (h : sep ∉ b) :
    ((a ++ sep :: b).reverse.dropWhile (· ≠ sep)).tail.reverse = a ∧
      ((a ++ sep :: b).reverse.takeWhile (· ≠ sep)).reverse = b := by
  have hreverse : (a ++ sep :: b).reverse = b.reverse ++ sep :: a.reverse := by simp
  rw [hreverse, dropWhile_append_of_pos (reverse_ne h), takeWhile_append_of_pos (reverse_ne h)]
  simp

end Trimming
