import Mathlib.Data.List.Nodup
import Mathlib.Logic.Function.Basic

/-! # Marks inherited in one pass

Nodes in a list, each with an ordered list of children by key. What the pass leaves depends on
the order of the nodes, unless the first child that can be marked is marked to begin with and
keeps its mark. -/

namespace Inherit

open List Option

universe u v w
variable {ρ : Type u} {κ : Type v} {β : Type w}

/-- How nodes inherit: their keys and children, and the mark a node takes from a child. -/
structure Scheme (ρ : Type u) (κ : Type v) (β : Type w) where
  key : ρ → κ
  children : ρ → List κ
  derive : κ → β → β

abbrev Marks (κ : Type v) (β : Type w) := κ → Option β

/-- One key leads to another through children of listed nodes. -/
inductive Scheme.Reaches (S : Scheme ρ κ β) (rows : List ρ) : κ → κ → Prop where
  | refl (k : κ) : Reaches S rows k k
  | step {r : ρ} {c k : κ} (hr : r ∈ rows) (hc : c ∈ S.children r) (h : Reaches S rows c k) :
      Reaches S rows (S.key r) k

section carrying

variable (S : Scheme ρ κ β) (own : Marks κ β) (rows : List ρ)

/-- A mark to begin with is reached. -/
def Scheme.Carries (k : κ) : Prop := ∃ v, (own v).isSome ∧ S.Reaches rows k v

/-- A child that can be marked when its node is visited: it carries a mark, and is not the
node itself without one. -/
def Scheme.Can (r : ρ) (c : κ) : Prop :=
  S.Carries own rows c ∧ (c = S.key r → (own c).isSome)

def Scheme.First (r : ρ) (c : κ) : Prop :=
  ∃ before after, S.children r = before ++ c :: after ∧
    (∀ d ∈ before, ¬ S.Can own rows r d) ∧ S.Can own rows r c

/-- A node that inherits, other than the one that looks. -/
def Scheme.Heir (r : ρ) (c : κ) : Prop :=
  ∃ q ∈ rows, S.key q = c ∧ S.key r ≠ c ∧ ∃ d ∈ S.children q, S.Can own rows q d

/-- The first child that can be marked has its mark to begin with and inherits no other. -/
def Scheme.Flat : Prop :=
  ∀ r ∈ rows, ∀ c, S.First own rows r c → (own c).isSome ∧ ¬ S.Heir own rows r c

/-- No mark to begin with looks like an inherited one, nor does one inherited from such a
mark look like one inherited from further down. -/
structure Scheme.Apart : Prop where
  outright : ∀ k b c b', own k = some b → b ≠ S.derive c b'
  once : ∀ k b r c b', own k = some b → r ∈ rows → S.derive k b ≠ S.derive (S.key r) (S.derive c b')

end carrying

variable {S : Scheme ρ κ β} {own m : Marks κ β} {rows rows' : List ρ} {r q : ρ} {c d k : κ}

/-! ## Carrying a mark -/

theorem carries_of_own (h : (own k).isSome) : S.Carries own rows k := ⟨k, h, .refl k⟩

theorem carries_of_child (hr : r ∈ rows) (hc : c ∈ S.children r) (h : S.Carries own rows c) :
    S.Carries own rows (S.key r) := by
  obtain ⟨v, hv, hreach⟩ := h
  exact ⟨v, hv, .step hr hc hreach⟩

/-- What carries a mark without having one is a node with a child that can be marked. -/
theorem Scheme.Carries.cases (h : S.Carries own rows k) :
    (own k).isSome ∨ ∃ r ∈ rows, S.key r = k ∧ ∃ c ∈ S.children r, S.Can own rows r c := by
  obtain ⟨v, hv, hreach⟩ := h
  induction hreach with
  | refl k => exact .inl hv
  | @step r c k hr hc hreach ih =>
    by_cases hself : c = S.key r
    · rcases ih hv with hown | hnode
      · exact .inl (hself ▸ hown)
      · exact .inr (hself ▸ hnode)
    · exact .inr ⟨r, hr, rfl, c, hc, ⟨k, hv, hreach⟩, fun heq => absurd heq hself⟩

theorem first_or_none (S : Scheme ρ κ β) (own : Marks κ β) (rows : List ρ) (r : ρ) :
    (∃ c, S.First own rows r c) ∨ ∀ c ∈ S.children r, ¬ S.Can own rows r c := by
  classical
  by_cases h : ∃ c ∈ S.children r, S.Can own rows r c
  · left
    obtain ⟨c, hc, hcan⟩ := h
    have hfind : ((S.children r).find? fun d => decide (S.Can own rows r d)).isSome :=
      find?_isSome.mpr ⟨c, hc, decide_eq_true hcan⟩
    obtain ⟨d, hd⟩ := isSome_iff_exists.mp hfind
    obtain ⟨hcan, before, after, heq, hbefore⟩ := find?_eq_some_iff_append.mp hd
    refine ⟨d, before, after, heq, fun x hx => ?_, of_decide_eq_true hcan⟩
    simpa using hbefore x hx
  · exact .inr fun c hc hcan => h ⟨c, hc, hcan⟩

theorem Scheme.First.mem (h : S.First own rows r c) : c ∈ S.children r := by
  obtain ⟨before, after, heq, -, -⟩ := h
  simp [heq]

/-! ## What the pass comes to -/

open Classical in
/-- The mark of the first child that can be marked, taken over. -/
noncomputable def Scheme.final (S : Scheme ρ κ β) (own : Marks κ β) (rows : List ρ) :
    Marks κ β := fun k =>
  if h : ∃ c, ∃ r ∈ rows, S.key r = k ∧ S.First own rows r c then
    (own h.choose).map (S.derive h.choose)
  else own k

theorem Scheme.First.unique {c' : κ} (h : S.First own rows r c) (h' : S.First own rows r c') :
    c = c' := by
  obtain ⟨before, after, heq, hbefore, hcan⟩ := h
  obtain ⟨before', after', heq', hbefore', hcan'⟩ := h'
  rw [heq] at heq'
  rcases append_eq_append_iff.mp heq' with ⟨mid, rfl, hmid⟩ | ⟨mid, rfl, hmid⟩
  · cases mid with
    | nil => exact (List.cons.inj hmid).1
    | cons x mid =>
      obtain ⟨rfl, -⟩ := List.cons.inj hmid
      exact absurd hcan (hbefore' c (by simp))
  · cases mid with
    | nil => exact ((List.cons.inj hmid).1).symm
    | cons x mid =>
      obtain ⟨rfl, -⟩ := List.cons.inj hmid
      exact absurd hcan' (hbefore c' (by simp))

/-- No two nodes of one key. -/
abbrev Scheme.Distinct (S : Scheme ρ κ β) (rows : List ρ) : Prop := (rows.map S.key).Nodup

theorem eq_of_key (hd : S.Distinct rows) (hr : r ∈ rows) (hq : q ∈ rows)
    (hk : S.key r = S.key q) : r = q :=
  inj_on_of_nodup_map hd hr hq hk

theorem final_of_first (hd : S.Distinct rows) (hr : r ∈ rows) (h : S.First own rows r c) :
    S.final own rows (S.key r) = (own c).map (S.derive c) := by
  have hex : ∃ d, ∃ q ∈ rows, S.key q = S.key r ∧ S.First own rows q d := ⟨c, r, hr, rfl, h⟩
  have hsame : hex.choose = c := by
    obtain ⟨q, hq, hkey, hfirst⟩ := hex.choose_spec
    rw [eq_of_key hd hq hr hkey] at hfirst
    exact hfirst.unique h
  unfold Scheme.final
  rw [dif_pos hex, hsame]

theorem final_of_none (h : ∀ r ∈ rows, S.key r = k → ∀ c, ¬ S.First own rows r c) :
    S.final own rows k = own k := by
  unfold Scheme.final
  rw [dif_neg]
  rintro ⟨c, r, hr, hk, hfirst⟩
  exact h r hr hk c hfirst

theorem final_carries (hflat : S.Flat own rows) (h : (S.final own rows k).isSome) :
    S.Carries own rows k := by
  unfold Scheme.final at h
  split at h
  · rename_i hex
    obtain ⟨r, hr, hkey, hfirst⟩ := hex.choose_spec
    exact hkey ▸ carries_of_child hr hfirst.mem (carries_of_own (hflat r hr _ hfirst).1)
  · exact carries_of_own h

theorem carries_final (hd : S.Distinct rows) (hflat : S.Flat own rows)
    (h : S.Carries own rows k) : (S.final own rows k).isSome := by
  by_cases hex : ∃ r ∈ rows, S.key r = k ∧ ∃ c, S.First own rows r c
  · obtain ⟨r, hr, rfl, c, hfirst⟩ := hex
    rw [final_of_first hd hr hfirst, isSome_map]
    exact (hflat r hr c hfirst).1
  · rw [final_of_none fun r hr hkey c hfirst => hex ⟨r, hr, hkey, c, hfirst⟩]
    rcases h.cases with hown | ⟨r, hr, hkey, c, hc, hcan⟩
    · exact hown
    · rcases first_or_none S own rows r with hfirst | hnone
      · exact absurd ⟨r, hr, hkey, hfirst⟩ hex
      · exact absurd hcan (hnone c hc)

/-- The first child of a node that is marked. -/
def Scheme.hit (S : Scheme ρ κ β) (m : Marks κ β) (r : ρ) : Option κ :=
  (S.children r).find? fun c => (m c).isSome

/-- The first marked child, where one is known and nothing before it is marked. -/
theorem hit_of_append {before after : List κ} (hch : S.children r = before ++ c :: after)
    (hbefore : ∀ d ∈ before, m d = none) (hc : (m c).isSome) : S.hit m r = some c := by
  refine find?_eq_some_iff_append.mpr ⟨hc, before, after, hch, fun d hd => ?_⟩
  simp [hbefore d hd]

theorem hit_eq_none (h : ∀ c ∈ S.children r, m c = none) : S.hit m r = none :=
  find?_eq_none.mpr fun c hc => by simp [h c hc]

variable [DecidableEq κ]

def Scheme.visit (S : Scheme ρ κ β) (m : Marks κ β) (r : ρ) : Marks κ β :=
  match S.hit m r with
  | none => m
  | some c => Function.update m (S.key r) ((m c).map (S.derive c))

def Scheme.pass (S : Scheme ρ κ β) (own : Marks κ β) (rows : List ρ) : Marks κ β :=
  rows.foldl S.visit own

/-- The pass marks what carries a mark, and does so in whatever order it visits the nodes. -/
structure Scheme.Settled (S : Scheme ρ κ β) (own : Marks κ β) (rows : List ρ) : Prop where
  marked : ∀ k, (S.pass own rows k).isSome ↔ S.Carries own rows k
  order : ∀ rows', rows'.Perm rows → S.pass own rows' = S.pass own rows

theorem visit_of_hit (h : S.hit m r = some c) : S.visit m r (S.key r) = (m c).map (S.derive c) := by
  unfold Scheme.visit
  simp only [h, Function.update_self]

theorem visit_of_no_hit (h : S.hit m r = none) : S.visit m r = m := by
  unfold Scheme.visit
  rw [h]

theorem visit_ne (hk : k ≠ S.key r) : S.visit m r k = m k := by
  unfold Scheme.visit
  cases S.hit m r with
  | none => rfl
  | some c => exact Function.update_of_ne hk _ _

theorem pass_of_not_mem (hk : ∀ r ∈ rows, S.key r ≠ k) : S.pass m rows k = m k := by
  induction rows generalizing m with
  | nil => rfl
  | cons r rows ih =>
    show S.pass (S.visit m r) rows k = m k
    rw [ih fun q hq => hk q (mem_cons_of_mem _ hq)]
    exact visit_ne (Ne.symm (hk r mem_cons_self))

theorem visit_isSome (h : (m k).isSome) (r : ρ) : (S.visit m r k).isSome := by
  by_cases hk : k = S.key r
  · subst hk
    cases hhit : S.hit m r with
    | none => rwa [visit_of_no_hit hhit]
    | some c =>
      rw [visit_of_hit hhit, isSome_map]
      exact find?_some (p := fun c => (m c).isSome) hhit
  · rwa [visit_ne hk]

theorem pass_isSome (h : (m k).isSome) (rows : List ρ) : (S.pass m rows k).isSome := by
  induction rows generalizing m with
  | nil => exact h
  | cons r _ ih => exact ih (visit_isSome h r)

/-- Marks while nodes are visited: final where the node was, as they began elsewhere. -/
def Scheme.Between (S : Scheme ρ κ β) (own : Marks κ β) (rows seen : List ρ) (m : Marks κ β) :
    Prop :=
  ∀ k, m k = if k ∈ seen.map S.key then S.final own rows k else own k

section

variable (hd : S.Distinct rows) (hflat : S.Flat own rows)
include hd hflat

/-- The visit of one more node. -/
theorem Scheme.Between.visit {seen : List ρ} (h : S.Between own rows seen m) (hr : r ∈ rows)
  (hnew : S.key r ∉ seen.map S.key) : S.Between own rows (seen ++ [r]) (S.visit m r) := by
  -- what is marked now can be marked
  have hcan : ∀ c, (m c).isSome → S.Can own rows r c := by
    intro c hc
    rw [h c] at hc
    split at hc
    · rename_i hseen
      exact ⟨final_carries hflat hc, fun heq => absurd (heq ▸ hseen) hnew⟩
    · exact ⟨carries_of_own hc, fun _ => hc⟩
  have hself : S.visit m r (S.key r) = S.final own rows (S.key r) := by
    rcases first_or_none S own rows r with ⟨c, hfirst⟩ | hnone
    · obtain ⟨hown, hheir⟩ := hflat r hr c hfirst
      -- the first child still has the mark it began with
      have hmc : m c = own c := by
        rw [h c]
        split
        · rename_i hseen
          have hne : S.key r ≠ c := fun heq => hnew (heq ▸ hseen)
          refine final_of_none fun q hq hkey d hd => hheir ⟨q, hq, hkey, hne, d, hd.mem, ?_⟩
          obtain ⟨-, -, -, -, hcan⟩ := hd
          exact hcan
        · rfl
      obtain ⟨before, after, heq, hbefore, hc⟩ := hfirst
      have hhit : S.hit m r = some c := by
        refine hit_of_append heq (fun d hd => ?_) (hmc ▸ hown)
        cases hmd : m d with
        | none => rfl
        | some b => exact absurd (hcan d (by simp [hmd])) (hbefore d hd)
      rw [visit_of_hit hhit, hmc, final_of_first hd hr ⟨before, after, heq, hbefore, hc⟩]
    · have hhit : S.hit m r = none := by
        refine hit_eq_none fun c hc => ?_
        cases hmc : m c with
        | none => rfl
        | some b => exact absurd (hcan c (by simp [hmc])) (hnone c hc)
      rw [visit_of_no_hit hhit, h (S.key r), if_neg hnew, final_of_none]
      rintro q hq hkey c hfirst
      cases eq_of_key hd hq hr hkey
      obtain ⟨-, -, -, -, hc⟩ := id hfirst
      exact hnone c hfirst.mem hc
  intro k
  by_cases hk : k = S.key r
  · subst hk
    rw [hself, if_pos (by simp)]
  · rw [visit_ne hk, h k]
    simp [hk]

theorem Scheme.Between.pass {seen todo : List ρ} (h : S.Between own rows seen m)
  (hsub : ∀ r ∈ todo, r ∈ rows) (hnodup : ((seen ++ todo).map S.key).Nodup) :
    S.Between own rows (seen ++ todo) (S.pass m todo) := by
  induction todo generalizing seen m with
  | nil =>
    rw [append_nil]
    exact h
  | cons r todo ih =>
    have hnew : S.key r ∉ seen.map S.key := by
      rw [map_append, map_cons] at hnodup
      intro hmem
      exact (nodup_append.mp hnodup).2.2 _ hmem _ mem_cons_self rfl
    have happ : seen ++ r :: todo = (seen ++ [r]) ++ todo := by simp
    rw [happ] at hnodup ⊢
    exact ih (h.visit hd hflat (hsub r mem_cons_self) hnew)
      (fun q hq => hsub q (mem_cons_of_mem _ hq)) hnodup

/-- Under the condition every order comes to the same marks. -/
theorem pass_of_flat (hperm : rows'.Perm rows) : S.pass own rows' = S.final own rows := by
  have hstart : S.Between own rows [] own := fun k => by simp
  have hbetween : S.Between own rows ([] ++ rows') (S.pass own rows') :=
    hstart.pass hd hflat (fun r hr => hperm.mem_iff.mp hr) (((hperm.map S.key).nodup_iff).mpr hd)
  funext k
  rw [hbetween k, nil_append]
  split
  · rfl
  · rename_i hnot
    refine (final_of_none fun r hr hkey => absurd ?_ hnot).symm
    exact hkey ▸ mem_map_of_mem (hperm.mem_iff.mpr hr)

theorem settled_of_flat : S.Settled own rows := by
  refine ⟨fun k => ?_, fun rows' hperm => ?_⟩
  · rw [pass_of_flat hd hflat (List.Perm.refl rows)]
    exact ⟨final_carries hflat, carries_final hd hflat⟩
  · rw [pass_of_flat hd hflat hperm, pass_of_flat hd hflat (List.Perm.refl rows)]

end

/-! ## Where it does not -/

/-- A visit before all others decides the mark of its node. -/
theorem pass_first (hd : S.Distinct (r :: rows)) :
    S.pass m (r :: rows) (S.key r) = S.visit m r (S.key r) := by
  show S.pass (S.visit m r) rows (S.key r) = _
  refine pass_of_not_mem fun q hq hkey => ?_
  have hnot := (nodup_cons.mp hd).1
  exact hnot (hkey ▸ mem_map_of_mem hq)

theorem pass_second (hd : S.Distinct (q :: r :: rows)) :
    S.pass m (q :: r :: rows) (S.key r) = S.visit (S.visit m q) r (S.key r) :=
  pass_first (m := S.visit m q) (nodup_cons.mp hd).2

theorem Scheme.Settled.first (h : S.Settled own rows) (hd : S.Distinct rows) (hr : r ∈ rows) :
    S.pass own rows (S.key r) = S.visit own r (S.key r) := by
  obtain ⟨before, after, rfl⟩ := append_of_mem hr
  have hperm : (r :: (before ++ after)).Perm (before ++ r :: after) := perm_middle.symm
  rw [← h.order _ hperm]
  exact pass_first ((hperm.map S.key).nodup_iff.mpr hd)

theorem Scheme.Settled.second (h : S.Settled own rows) (hd : S.Distinct rows) (hr : r ∈ rows)
    (hq : q ∈ rows) (hne : q ≠ r) :
    S.pass own rows (S.key r) = S.visit (S.visit own q) r (S.key r) := by
  obtain ⟨before, after, rfl⟩ := append_of_mem hr
  have hrest : q ∈ before ++ after := by
    rcases mem_append.mp hq with hq | hq
    · exact mem_append_left _ hq
    · rcases mem_cons.mp hq with rfl | hq
      · exact absurd rfl hne
      · exact mem_append_right _ hq
  obtain ⟨before', after', hsplit⟩ := append_of_mem hrest
  have hperm : (q :: r :: (before' ++ after')).Perm (before ++ r :: after) := by
    have hback : (r :: q :: (before' ++ after')).Perm (before ++ r :: after) :=
      ((perm_middle.symm.trans (.of_eq hsplit.symm)).cons r).trans perm_middle.symm
    exact (List.Perm.swap r q _).trans hback
  rw [← h.order _ hperm]
  exact pass_second ((hperm.map S.key).nodup_iff.mpr hd)

/-- Visited first, a node takes over its first child with a mark to begin with. -/
theorem visit_own (S : Scheme ρ κ β) (own : Marks κ β) (r : ρ) :
    (∃ c ∈ S.children r, (own c).isSome ∧ S.visit own r (S.key r) = (own c).map (S.derive c)) ∨
    ((∀ c ∈ S.children r, own c = none) ∧ S.visit own r (S.key r) = own (S.key r)) := by
  cases hhit : S.hit own r with
  | none =>
    refine .inr ⟨fun c hc => ?_, by rw [visit_of_no_hit hhit]⟩
    have hnot := find?_eq_none.mp hhit c hc
    simpa using hnot
  | some c =>
    have hmark : (own c).isSome := find?_some (p := fun c => (own c).isSome) hhit
    exact .inl ⟨c, mem_of_find?_eq_some hhit, hmark, visit_of_hit hhit⟩

theorem Scheme.Settled.child (h : S.Settled own rows) (hd : S.Distinct rows) (hq : q ∈ rows)
    (hown : own (S.key q) = none) (hc : S.Carries own rows (S.key q)) :
    ∃ v ∈ S.children q, (own v).isSome ∧ S.visit own q (S.key q) = (own v).map (S.derive v) := by
  rcases visit_own S own q with hchild | ⟨-, hsame⟩
  · exact hchild
  · have hmarked := (h.marked (S.key q)).mpr hc
    rw [h.first hd hq, hsame, hown] at hmarked
    cases hmarked

/-- What a node takes over when another was visited before it, whose mark is the first it
can take. -/
theorem visit_after (h : S.First own rows r (S.key q)) {b : β}
    (hb : S.visit own q (S.key q) = some b) :
    S.visit (S.visit own q) r (S.key r) = some (S.derive (S.key q) b) := by
  obtain ⟨before, after, heq, hbefore, hcan⟩ := h
  have hhit : S.hit (S.visit own q) r = some (S.key q) := by
    refine hit_of_append heq (fun d hd => ?_) (by simp [hb])
    have hne : d ≠ S.key q := fun hdq => hbefore d hd (hdq ▸ hcan)
    rw [visit_ne hne]
    -- a mark to begin with would make it one that can be marked
    cases hown : own d with
    | none => rfl
    | some b' =>
      have hsome : (own d).isSome := by simp [hown]
      exact absurd ⟨carries_of_own hsome, fun _ => hsome⟩ (hbefore d hd)
  rw [visit_of_hit hhit, hb]
  rfl

section

variable (h : S.Settled own rows) (hd : S.Distinct rows) (hapart : S.Apart own rows) (hr : r ∈ rows)
  (hfirst : S.First own rows r c)
include h hd hapart hr hfirst

/-- The first child that can be marked has its mark to begin with. -/
theorem Scheme.Settled.own_of_first : (own c).isSome := by
  by_contra hnone
  have hown : own c = none := by simpa using hnone
  obtain ⟨-, -, -, -, hcan⟩ := id hfirst
  have hne : c ≠ S.key r := fun heq => hnone (hcan.2 heq)
  rcases hcan.1.cases with hsome | ⟨q, hq, rfl, -⟩
  · exact hnone hsome
  obtain ⟨v, -, hvown, hvisit⟩ := h.child hd hq hown hcan.1
  obtain ⟨b, hb⟩ := isSome_iff_exists.mp hvown
  rw [hb] at hvisit
  have hqr : q ≠ r := fun heq => hne (heq ▸ rfl)
  -- the two orders give the node different marks
  have hlate := visit_after hfirst hvisit
  rw [← h.second hd hr hq hqr, h.first hd hr] at hlate
  rcases visit_own S own r with ⟨u, -, huown, hu⟩ | ⟨-, hu⟩
  · obtain ⟨b', hb'⟩ := isSome_iff_exists.mp huown
    rw [hu, hb'] at hlate
    exact hapart.once u b' q v b hb' hq (Option.some.inj hlate)
  · rw [hu] at hlate
    exact hapart.outright _ _ _ _ hlate rfl

/-- Where the pass settles, no first child inherits. -/
theorem Scheme.Settled.no_heir : ¬ S.Heir own rows r c := by
  rintro ⟨q, hq, rfl, hkeys, hd'⟩
  have hown := h.own_of_first hd hapart hr hfirst
  obtain ⟨b, hb⟩ := isSome_iff_exists.mp hown
  obtain ⟨d, hdq, hdcan⟩ := hd'
  have hqr : q ≠ r := fun heq => hkeys (heq ▸ rfl)
  -- visited before, the child has another mark than it began with
  rcases first_or_none S own rows q with ⟨z, hz⟩ | hnone
  · have hzown := h.own_of_first hd hapart hq hz
    rcases visit_own S own q with ⟨u, -, huown, hu⟩ | ⟨hnone, -⟩
    · obtain ⟨b', hb'⟩ := isSome_iff_exists.mp huown
      rw [hb'] at hu
      have hlate := visit_after hfirst hu
      rw [← h.second hd hr hq hqr, h.first hd hr] at hlate
      -- visited first, the node takes over the mark the child began with
      obtain ⟨before, after, heq, hbefore, -⟩ := hfirst
      have hhit : S.hit own r = some (S.key q) := by
        refine hit_of_append heq (fun x hx => ?_) hown
        cases hx' : own x with
        | none => rfl
        | some b' =>
          have hsome : (own x).isSome := by simp [hx']
          exact absurd ⟨carries_of_own hsome, fun _ => hsome⟩ (hbefore x hx)
      rw [visit_of_hit hhit, hb] at hlate
      exact hapart.once _ b q u b' hb hq (Option.some.inj hlate)
    · rw [hnone z hz.mem] at hzown
      cases hzown
  · exact hnone d hdq hdcan

end

/-- **The pass settles** exactly where the first child that can be marked is marked to begin
with and keeps its mark. -/
theorem settled_iff (hd : S.Distinct rows) (hapart : S.Apart own rows) :
    S.Settled own rows ↔ S.Flat own rows :=
  ⟨fun h _ hr _ hfirst => ⟨h.own_of_first hd hapart hr hfirst, h.no_heir hd hapart hr hfirst⟩,
    settled_of_flat hd⟩

end Inherit
