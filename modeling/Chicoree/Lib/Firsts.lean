import Mathlib.Data.List.Forall2
import Mathlib.Data.List.Pairwise
import Mathlib.Algebra.Order.Ring.Nat

/-! # The first of every key

Going through a list and keeping an element only if no element before it has its key. -/

namespace Firsts

open List

universe u v w z

variable {α : Type u} {κ : Type v} [DecidableEq κ]

/-- The elements whose key did not come before. -/
def firsts (key : α → κ) : List κ → List α → List α
  | _, [] => []
  | seen, x :: xs =>
    if key x ∈ seen then firsts key seen xs else x :: firsts key (key x :: seen) xs

variable {key : α → κ} {x y : α} {l : List α}

variable {seen : List κ}

theorem split_of_mem (h : x ∈ firsts key seen l) :
    key x ∉ seen ∧ ∃ a b, l = a ++ x :: b ∧ ∀ y ∈ a, key y ≠ key x := by
  induction l generalizing seen with
  | nil => cases h
  | cons c cs ih =>
    rw [firsts] at h
    by_cases hseen : key c ∈ seen
    · rw [if_pos hseen] at h
      obtain ⟨hx, a, b, rfl, hbefore⟩ := ih h
      refine ⟨hx, c :: a, b, rfl, fun y hy => ?_⟩
      rcases mem_cons.mp hy with rfl | hy
      · intro heq
        exact hx (heq ▸ hseen)
      · exact hbefore y hy
    · rw [if_neg hseen] at h
      rcases mem_cons.mp h with rfl | h
      · exact ⟨hseen, [], cs, rfl, nofun⟩
      · obtain ⟨hx, a, b, rfl, hbefore⟩ := ih h
        refine ⟨fun hmem => hx (mem_cons_of_mem _ hmem), c :: a, b, rfl, fun y hy => ?_⟩
        rcases mem_cons.mp hy with rfl | hy
        · intro heq
          exact hx (heq ▸ mem_cons_self)
        · exact hbefore y hy

theorem mem_of_split {a b : List α} (hx : key x ∉ seen)
    (hbefore : ∀ y ∈ a, key y ≠ key x) : x ∈ firsts key seen (a ++ x :: b) := by
  induction a generalizing seen with
  | nil =>
    rw [nil_append, firsts, if_neg hx]
    exact mem_cons_self
  | cons c cs ih =>
    have hcs : ∀ y ∈ cs, key y ≠ key x := fun y hy => hbefore y (mem_cons_of_mem c hy)
    rw [cons_append, firsts]
    by_cases hseen : key c ∈ seen
    · rw [if_pos hseen]
      exact ih hx hcs
    · rw [if_neg hseen]
      refine mem_cons_of_mem c (ih ?_ hcs)
      intro hmem
      rcases mem_cons.mp hmem with heq | hmem
      · exact hbefore c mem_cons_self heq.symm
      · exact hx hmem

theorem mem_of_firsts (h : x ∈ firsts key seen l) : x ∈ l := by
  obtain ⟨-, a, b, rfl, -⟩ := split_of_mem h
  exact mem_append_right a mem_cons_self

theorem firsts_pairwise (seen : List κ) (l : List α) :
    (firsts key seen l).Pairwise fun x y => key x ≠ key y := by
  induction l generalizing seen with
  | nil => exact List.Pairwise.nil
  | cons c cs ih =>
    rw [firsts]
    split
    · exact ih seen
    · refine pairwise_cons.mpr ⟨fun y hy heq => ?_, ih _⟩
      apply (split_of_mem hy).1
      rw [heq]
      exact mem_cons_self

theorem eq_of_key (hx : x ∈ firsts key [] l) (hy : y ∈ firsts key [] l) (h : key x = key y) :
    x = y := by
  have hsymm : Std.Symm fun x y : α => key x ≠ key y := ⟨fun _ _ hne => hne.symm⟩
  by_contra hne
  exact (firsts_pairwise [] l).forall hx hy hne h

theorem exists_first (h : x ∈ l) : ∃ y ∈ firsts key [] l, key y = key x := by
  have hgeneral (l : List α) : ∀ seen : List κ, x ∈ l → key x ∉ seen →
      ∃ y ∈ firsts key seen l, key y = key x := by
    induction l with
    | nil =>
      intro seen hmem
      cases hmem
    | cons c cs ih =>
      intro seen hmem hx
      rw [firsts]
      by_cases hseen : key c ∈ seen
      · rw [if_pos hseen]
        rcases mem_cons.mp hmem with rfl | hmem
        · exact absurd hseen hx
        · exact ih seen hmem hx
      · rw [if_neg hseen]
        by_cases heq : key c = key x
        · exact ⟨c, mem_cons_self, heq⟩
        · rcases mem_cons.mp hmem with rfl | hmem
          · exact absurd rfl heq
          · obtain ⟨y, hy, hkey⟩ := ih (key c :: seen) hmem fun hin => by
              rcases mem_cons.mp hin with hin | hin
              · exact heq hin.symm
              · exact hx hin
            exact ⟨y, mem_cons_of_mem c hy, hkey⟩
  exact hgeneral l [] h not_mem_nil

/-- Keys that tell the same elements apart keep the same ones. -/
theorem firsts_congr {κ' : Type w} [DecidableEq κ'] {key' : α → κ'} {seen' : List κ'}
    (hkey : ∀ x ∈ l, ∀ y ∈ l, key x = key y ↔ key' x = key' y)
    (hseen : ∀ x ∈ l, key x ∈ seen ↔ key' x ∈ seen') :
    firsts key seen l = firsts key' seen' l := by
  induction l generalizing seen seen' with
  | nil => rfl
  | cons c cs ih =>
    have hcs : ∀ x ∈ cs, ∀ y ∈ cs, key x = key y ↔ key' x = key' y :=
      fun x hx y hy => hkey x (mem_cons_of_mem c hx) y (mem_cons_of_mem c hy)
    rw [firsts, firsts]
    by_cases hc : key c ∈ seen
    · rw [if_pos hc, if_pos ((hseen c mem_cons_self).mp hc)]
      exact ih hcs fun x hx => hseen x (mem_cons_of_mem c hx)
    · rw [if_neg hc, if_neg fun h => hc ((hseen c mem_cons_self).mpr h), ih hcs]
      intro x hx
      rw [mem_cons, mem_cons, hkey x (mem_cons_of_mem c hx) c mem_cons_self,
        hseen x (mem_cons_of_mem c hx)]

/-- Where no key comes twice everything is kept. -/
theorem firsts_of_nodup (h : (l.map key).Nodup) (hseen : ∀ x ∈ l, key x ∉ seen) :
    firsts key seen l = l := by
  induction l generalizing seen with
  | nil => rfl
  | cons c cs ih =>
    obtain ⟨hnot, hcs⟩ := nodup_cons.mp h
    rw [firsts, if_neg (hseen c mem_cons_self), ih hcs]
    intro x hx hmem
    rcases mem_cons.mp hmem with heq | hmem
    · exact hnot (heq ▸ mem_map_of_mem hx)
    · exact hseen x (mem_cons_of_mem c hx) hmem

/-! ## Orders within ranks -/

section ranks

variable {rank : α → Nat}

/-- The element can come first under its key: no other of the key has a lower rank. -/
def Leading (key : α → κ) (rank : α → Nat) (l : List α) (x : α) : Prop :=
  x ∈ l ∧ ∀ y ∈ l, key y = key x → rank x ≤ rank y

theorem leading_of_first (hsorted : l.Pairwise fun x y => rank x ≤ rank y)
    (h : x ∈ firsts key [] l) : Leading key rank l x := by
  obtain ⟨-, a, b, rfl, hbefore⟩ := split_of_mem h
  refine ⟨mem_append_right a mem_cons_self, fun y hy hkey => ?_⟩
  rcases mem_append.mp hy with hy | hy
  · exact absurd hkey (hbefore y hy)
  · rcases mem_cons.mp hy with rfl | hy
    · exact Nat.le_refl _
    · exact (pairwise_cons.mp (pairwise_append.mp hsorted).2.1).1 y hy

/-- A class of lists with the same elements, in orders within the ranks, where every element
that can come first does so in one of them. -/
structure Orders (key : α → κ) (rank : α → Nat) (l : List α) (order : List α → Prop) : Prop where
  self : order l
  mem : ∀ l', order l' → ∀ x, x ∈ l' ↔ x ∈ l
  sorted : ∀ l', order l' → l'.Pairwise fun x y => rank x ≤ rank y
  rich : ∀ x, Leading key rank l x → ∃ l', order l' ∧ x ∈ firsts key [] l'

variable {order : List α → Prop} {φ : Type w} {find : α → φ}

theorem Orders.leading (h : Orders key rank l order) {l' : List α} (hl : order l')
    (hx : x ∈ firsts key [] l') : Leading key rank l x := by
  obtain ⟨hmem, hle⟩ := leading_of_first (h.sorted l' hl) hx
  exact ⟨(h.mem l' hl x).mp hmem, fun y hy => hle y ((h.mem l' hl y).mpr hy)⟩

/-- What is kept looks the same in every order exactly if the elements that can come first
under a key do. The key must be visible. -/
theorem Orders.same_iff (h : Orders key rank l order) {visible : φ → κ}
    (hkey : ∀ x, visible (find x) = key x) :
    (∀ l', order l' → ∀ f, f ∈ (firsts key [] l').map find ↔ f ∈ (firsts key [] l).map find) ↔
      ∀ x y, Leading key rank l x → Leading key rank l y → key x = key y → find x = find y := by
  constructor
  · intro hsame x y hx hy hxy
    have hfind (z : α) (hz : Leading key rank l z) : find z ∈ (firsts key [] l).map find := by
      obtain ⟨l', hl', hfirst⟩ := h.rich z hz
      exact (hsame l' hl' (find z)).mp (mem_map_of_mem hfirst)
    obtain ⟨x', hx', hxfind⟩ := mem_map.mp (hfind x hx)
    obtain ⟨y', hy', hyfind⟩ := mem_map.mp (hfind y hy)
    have heq : x' = y' := by
      refine eq_of_key hx' hy' ?_
      rw [← hkey x', ← hkey y', hxfind, hyfind, hkey, hkey, hxy]
    rw [← hxfind, ← hyfind, heq]
  · intro hsame l' hl' f
    have hincluded {l₁ l₂ : List α} (h₁ : order l₁) (h₂ : order l₂)
        (hf : f ∈ (firsts key [] l₁).map find) : f ∈ (firsts key [] l₂).map find := by
      obtain ⟨x, hx, rfl⟩ := mem_map.mp hf
      have hmem : x ∈ l₂ := (h.mem l₂ h₂ x).mpr ((h.mem l₁ h₁ x).mp (mem_of_firsts hx))
      have hfirst : ∃ y ∈ firsts key [] l₂, key y = key x := exists_first hmem
      obtain ⟨y, hy, hxy⟩ := hfirst
      rw [← hsame y x (h.leading h₂ hy) (h.leading h₁ hx) hxy]
      exact mem_map_of_mem hy
    exact ⟨hincluded hl' h.self, hincluded h.self hl'⟩

end ranks

/-! ## Groups by rank

Groups go by their rank, those of one rank in the order in which they are listed. -/

section groups

variable {γ : Type w} {groupRank : γ → Nat} {members : γ → List α} {rank : α → Nat}

def inOrder (groupRank : γ → Nat) (members : γ → List α) (gs : List γ) : List α :=
  (gs.mergeSort fun a b => decide (groupRank a ≤ groupRank b)).flatMap members

theorem rank_trans (a b c : γ) (hab : decide (groupRank a ≤ groupRank b) = true)
    (hbc : decide (groupRank b ≤ groupRank c) = true) :
    decide (groupRank a ≤ groupRank c) = true := by
  rw [decide_eq_true_eq] at hab hbc ⊢
  omega

theorem rank_total (a b : γ) :
    (decide (groupRank a ≤ groupRank b) || decide (groupRank b ≤ groupRank a)) = true := by
  rw [Bool.or_eq_true, decide_eq_true_eq, decide_eq_true_eq]
  omega

variable {gs : List γ}

theorem mem_inOrder : x ∈ inOrder groupRank members gs ↔ ∃ g ∈ gs, x ∈ members g := by
  unfold inOrder
  rw [mem_flatMap]
  refine exists_congr fun g => and_congr_left fun _ => ?_
  exact (mergeSort_perm gs _).mem_iff

theorem pairwise_mergeSort (gs : List γ) :
    (gs.mergeSort fun a b => decide (groupRank a ≤ groupRank b)).Pairwise
      fun a b => groupRank a ≤ groupRank b := by
  exact (List.pairwise_mergeSort rank_trans rank_total gs).imp fun hle => of_decide_eq_true hle

theorem inOrder_sorted (hrank : ∀ g, ∀ x ∈ members g, rank x = groupRank g) (gs : List γ) :
    (inOrder groupRank members gs).Pairwise fun x y => rank x ≤ rank y := by
  refine pairwise_flatMap.mpr ⟨fun g _ => ?_, ?_⟩
  · refine pairwise_of_forall_mem_list fun x hx y hy => ?_
    rw [hrank g x hx, hrank g y hy]
  · refine (pairwise_mergeSort gs).imp fun hle x hx y hy => ?_
    rw [hrank _ x hx, hrank _ y hy]
    exact hle

theorem first_of_front (hrank : ∀ g, ∀ x ∈ members g, rank x = groupRank g) {g : γ}
    {xs : List α} (hg : members g = x :: xs)
    (hlead : ∀ y ∈ inOrder groupRank members (g :: gs), key y = key x → rank x ≤ rank y) :
    x ∈ firsts key [] (inOrder groupRank members (g :: gs)) := by
  obtain ⟨l₁, l₂, hsort, -, hless⟩ :=
    mergeSort_cons (@rank_trans γ groupRank) (@rank_total γ groupRank) g gs
  have hsplit : inOrder groupRank members (g :: gs) =
      l₁.flatMap members ++ x :: (xs ++ l₂.flatMap members) := by
    unfold inOrder
    rw [hsort, flatMap_append, flatMap_cons, hg, cons_append]
  have hx : x ∈ members g := by
    rw [hg]
    exact mem_cons_self
  rw [hsplit] at hlead ⊢
  refine mem_of_split not_mem_nil fun y hy hkey => ?_
  have hle := hlead y (mem_append_left _ hy) hkey
  obtain ⟨g', hg', hy'⟩ := mem_flatMap.mp hy
  have hlt := hless g' hg'
  simp only [Bool.not_eq_true', decide_eq_false_iff_not] at hlt
  rw [hrank g x hx, hrank g' y hy'] at hle
  exact hlt hle

/-- The groups in any order, each with its members in any order; `same` compares two groups
up to the order of their members. -/
def Regrouped (same : γ → γ → Prop) (gs gs' : List γ) : Prop :=
  ∃ ms, List.Forall₂ same gs ms ∧ ms.Perm gs'

variable {same : γ → γ → Prop}

theorem forall₂_refl (h : ∀ g, same g g) (gs : List γ) : List.Forall₂ same gs gs := by
  induction gs with
  | nil => exact .nil
  | cons g gs ih => exact .cons (h g) ih

/-- What the orders of groups make of their members is a class of orders within the ranks. -/
theorem orders_inOrder (hrefl : ∀ g, same g g)
    (hmem : ∀ g g', same g g' → ∀ x, x ∈ members g' ↔ x ∈ members g)
    (hfront : ∀ g, ∀ x ∈ members g, ∃ g' xs, same g g' ∧ members g' = x :: xs)
    (hrank : ∀ g, ∀ x ∈ members g, rank x = groupRank g) (gs : List γ) :
    Orders key rank (inOrder groupRank members gs) fun l =>
      ∃ gs', Regrouped same gs gs' ∧ l = inOrder groupRank members gs' := by
  have hsame {gs ms : List γ} (h : List.Forall₂ same gs ms) (x : α) :
      (∃ g ∈ ms, x ∈ members g) ↔ ∃ g ∈ gs, x ∈ members g := by
    induction h with
    | nil => rfl
    | cons hg _ ih => simp only [mem_cons, exists_eq_or_imp, ih, hmem _ _ hg x]
  have hall (gs' : List γ) (h : Regrouped same gs gs') (x : α) :
      x ∈ inOrder groupRank members gs' ↔ x ∈ inOrder groupRank members gs := by
    obtain ⟨ms, hms, hperm⟩ := h
    rw [mem_inOrder, mem_inOrder, ← hsame hms x]
    exact exists_congr fun g => and_congr_left fun _ => hperm.mem_iff.symm
  refine ⟨⟨gs, ⟨gs, forall₂_refl hrefl gs, List.Perm.refl gs⟩, rfl⟩, ?_, ?_, ?_⟩
  · rintro _ ⟨gs', h, rfl⟩ x
    exact hall gs' h x
  · rintro _ ⟨gs', -, rfl⟩
    exact inOrder_sorted hrank gs'
  · rintro x ⟨hx, hlead⟩
    obtain ⟨g, hg, hxg⟩ := mem_inOrder.mp hx
    obtain ⟨a, b, rfl⟩ := append_of_mem hg
    obtain ⟨g', xs, hsame', hg'⟩ := hfront g x hxg
    have hregrouped : Regrouped same (a ++ g :: b) (g' :: (a ++ b)) := by
      refine ⟨a ++ g' :: b, ?_, perm_middle⟩
      exact rel_append (forall₂_refl hrefl a) (.cons hsame' (forall₂_refl hrefl b))
    refine ⟨_, ⟨_, hregrouped, rfl⟩, first_of_front hrank hg' fun y hy => ?_⟩
    exact hlead y ((hall _ hregrouped y).mp hy)

end groups

end Firsts
