import Mathlib.Data.List.Forall2

/-! # Globs with a star

A pattern in which `*` stands for any run of characters of a class, and every
other character for itself. -/

namespace Glob

open List

/-- Give the star some characters of the class, the rest of the pattern the
others. -/
def star (inClass : Char → Bool) (rest : List Char → Bool) : List Char → Bool
  | [] => rest []
  | c :: s => rest (c :: s) || (inClass c && star inClass rest s)

def isMatch (inClass : Char → Bool) : List Char → List Char → Bool
  | [], s => s.isEmpty
  | '*' :: p, s => star inClass (isMatch inClass p) s
  | a :: p, s =>
    match s with
    | [] => false
    | c :: s => decide (a = c) && isMatch inClass p s

/-! ## Meaning -/

/-- What a character of a pattern stands for. -/
def Stands (inClass : Char → Bool) (a : Char) (w : List Char) : Prop :=
  if a = '*' then ∀ c ∈ w, inClass c = true else w = [a]

/-- The text is cut into pieces, one for each character of the pattern. -/
def Matches (inClass : Char → Bool) (pattern s : List Char) : Prop :=
  ∃ pieces, List.Forall₂ (Stands inClass) pattern pieces ∧ pieces.flatten = s

section

variable {inClass : Char → Bool} {p q s t : List Char} {a : Char}

theorem matches_nil : Matches inClass [] s ↔ s = [] := by
  constructor
  · rintro ⟨pieces, hpieces, rfl⟩
    cases hpieces
    rfl
  · intro hs
    exact ⟨[], .nil, hs.symm⟩

theorem matches_cons : Matches inClass (a :: p) s ↔
    ∃ w t, s = w ++ t ∧ Stands inClass a w ∧ Matches inClass p t := by
  constructor
  · rintro ⟨pieces, hpieces, rfl⟩
    cases hpieces with
    | @cons _ w _ ws hw hrest => exact ⟨w, ws.flatten, rfl, hw, ws, hrest, rfl⟩
  · rintro ⟨w, t, rfl, hw, ws, hws, rfl⟩
    exact ⟨w :: ws, .cons hw hws, rfl⟩

theorem matches_append : Matches inClass (p ++ q) s ↔
    ∃ u v, s = u ++ v ∧ Matches inClass p u ∧ Matches inClass q v := by
  induction p generalizing s with
  | nil =>
    constructor
    · intro h
      exact ⟨[], s, rfl, matches_nil.mpr rfl, h⟩
    · rintro ⟨u, v, rfl, hu, hv⟩
      rw [matches_nil.mp hu]
      exact hv
  | cons a p ih =>
    rw [cons_append, matches_cons]
    constructor
    · rintro ⟨w, t, rfl, hw, ht⟩
      obtain ⟨u, v, rfl, hu, hv⟩ := ih.mp ht
      exact ⟨w ++ u, v, (append_assoc w u v).symm, matches_cons.mpr ⟨w, u, rfl, hw, hu⟩, hv⟩
    · rintro ⟨u, v, rfl, hu, hv⟩
      obtain ⟨w, t, rfl, hw, ht⟩ := matches_cons.mp hu
      exact ⟨w, t ++ v, append_assoc w t v, hw, ih.mpr ⟨t, v, rfl, ht, hv⟩⟩

/-- A text matches itself, where stars are characters like any other. -/
theorem matches_self (hstar : inClass '*' = true) (s : List Char) : Matches inClass s s := by
  induction s with
  | nil => exact matches_nil.mpr rfl
  | cons a s ih =>
    refine matches_cons.mpr ⟨[a], s, rfl, ?_, ih⟩
    by_cases ha : a = '*'
    · subst ha
      unfold Stands
      rw [if_pos rfl]
      simpa using hstar
    · exact (if_neg ha).mpr rfl

/-- **The text itself is the narrowest pattern it matches.** What it matches, read as a
pattern, all its patterns match. -/
theorem Matches.trans (h : Matches inClass p s) (ht : Matches (fun _ => true) s t) :
    Matches (fun _ => true) p t := by
  induction p generalizing s t with
  | nil =>
    rw [matches_nil.mp h] at ht
    exact ht
  | cons a p ih =>
    obtain ⟨w, s, rfl, hw, hs⟩ := matches_cons.mp h
    obtain ⟨u, v, rfl, hu, hv⟩ := matches_append.mp ht
    refine matches_cons.mpr ⟨u, v, rfl, ?_, ih hs hv⟩
    unfold Stands at hw ⊢
    by_cases ha : a = '*'
    · -- a star stands for whatever the characters it stood for stand for
      rw [if_pos ha]
      exact fun _ _ => rfl
    · rw [if_neg ha] at hw ⊢
      subst hw
      obtain ⟨w, t, rfl, hw, ht⟩ := matches_cons.mp hu
      unfold Stands at hw
      rw [if_neg ha] at hw
      rw [hw, matches_nil.mp ht]
      rfl

theorem star_iff {rest : List Char → Bool} : star inClass rest s = true ↔
    ∃ w t, s = w ++ t ∧ (∀ c ∈ w, inClass c = true) ∧ rest t = true := by
  induction s with
  | nil =>
    constructor
    · intro h
      exact ⟨[], [], rfl, by simp, h⟩
    · rintro ⟨w, t, hsplit, -, ht⟩
      obtain ⟨rfl, rfl⟩ := append_eq_nil_iff.mp hsplit.symm
      exact ht
  | cons c s ih =>
    unfold star
    rw [Bool.or_eq_true, Bool.and_eq_true, ih]
    constructor
    · rintro (h | ⟨hc, w, t, rfl, hw, ht⟩)
      · exact ⟨[], c :: s, rfl, by simp, h⟩
      · exact ⟨c :: w, t, rfl, forall_mem_cons.mpr ⟨hc, hw⟩, ht⟩
    · rintro ⟨w, t, hsplit, hw, ht⟩
      cases w with
      | nil =>
        rw [nil_append] at hsplit
        rw [hsplit]
        exact .inl ht
      | cons c' w =>
        obtain ⟨rfl, rfl⟩ := List.cons.inj hsplit
        obtain ⟨hc, hw⟩ := forall_mem_cons.mp hw
        exact .inr ⟨hc, w, t, rfl, hw, ht⟩

theorem isMatch_literal (ha : a ≠ '*') (c : Char) :
    isMatch inClass (a :: p) (c :: s) = (decide (a = c) && isMatch inClass p s) := by
  rw [isMatch.eq_def]
  split
  · contradiction
  · rename_i heq
    exact absurd (List.cons.inj heq).1 ha
  · rename_i heq
    obtain ⟨rfl, rfl⟩ := List.cons.inj heq
    rfl

theorem isMatch_literal_nil (ha : a ≠ '*') : isMatch inClass (a :: p) [] = false := by
  rw [isMatch.eq_def]
  split
  · contradiction
  · rename_i heq
    exact absurd (List.cons.inj heq).1 ha
  · rfl

/-- The matcher finds a way to cut the text if there is one. -/
theorem isMatch_iff : isMatch inClass p s = true ↔ Matches inClass p s := by
  induction p generalizing s with
  | nil => simp [isMatch, matches_nil]
  | cons a p ih =>
    rw [matches_cons]
    by_cases ha : a = '*'
    · subst ha
      have hstar : isMatch inClass ('*' :: p) s = star inClass (isMatch inClass p) s := rfl
      unfold Stands
      rw [hstar, star_iff]
      simp only [ih, if_true]
    · unfold Stands
      simp only [ha, if_false]
      cases s with
      | nil => simp [isMatch_literal_nil ha]
      | cons c s =>
        rw [isMatch_literal ha, Bool.and_eq_true, decide_eq_true_eq, ih]
        constructor
        · rintro ⟨rfl, h⟩
          exact ⟨[a], s, rfl, rfl, h⟩
        · rintro ⟨w, t, hsplit, rfl, h⟩
          obtain ⟨rfl, rfl⟩ := List.cons.inj hsplit
          exact ⟨rfl, h⟩

theorem Matches.countP_le (hstar : inClass '*' = true) (h : Matches (fun _ => true) p s) :
    p.countP (fun c => !inClass c) ≤ s.countP fun c => !inClass c := by
  induction p generalizing s with
  | nil => exact Nat.zero_le _
  | cons a p ih =>
    obtain ⟨w, t, rfl, hw, ht⟩ := matches_cons.mp h
    have hle := ih ht
    rw [countP_cons, countP_append]
    unfold Stands at hw
    by_cases ha : a = '*'
    · subst ha
      rw [hstar]
      simp only [Bool.not_true, Bool.false_eq_true, if_false]
      omega
    · rw [if_neg ha] at hw
      rw [hw, countP_singleton]
      omega

/-- A star keeps to its class exactly where the text has no more characters of another class
than the pattern. -/
theorem matches_iff_countP (hstar : inClass '*' = true) : Matches inClass p s ↔
    Matches (fun _ => true) p s ∧
      s.countP (fun c => !inClass c) = p.countP fun c => !inClass c := by
  induction p generalizing s with
  | nil =>
    rw [matches_nil, matches_nil]
    constructor
    · rintro rfl
      exact ⟨rfl, rfl⟩
    · exact And.left
  | cons a p ih =>
    rw [matches_cons, matches_cons]
    unfold Stands
    constructor
    · rintro ⟨w, t, rfl, hw, ht⟩
      obtain ⟨hmatches, hcount⟩ := ih.mp ht
      rw [countP_append, countP_cons, hcount]
      by_cases ha : a = '*'
      · subst ha
        rw [if_pos rfl] at hw
        have hnone : w.countP (fun c => !inClass c) = 0 := countP_eq_zero.mpr (by simpa using hw)
        refine ⟨⟨w, t, rfl, by simp, hmatches⟩, ?_⟩
        simp [hnone, hstar]
      · rw [if_neg ha] at hw
        refine ⟨⟨w, t, rfl, (if_neg ha).mpr hw, hmatches⟩, ?_⟩
        rw [hw, countP_singleton, Nat.add_comm]
    · rintro ⟨⟨w, t, rfl, hw, ht⟩, hcount⟩
      have hle := ht.countP_le hstar
      rw [countP_append, countP_cons] at hcount
      by_cases ha : a = '*'
      · subst ha
        simp only [hstar, Bool.not_true, Bool.false_eq_true, if_false] at hcount
        have hnone : w.countP (fun c => !inClass c) = 0 := by omega
        refine ⟨w, t, rfl, ?_, ih.mpr ⟨ht, by omega⟩⟩
        rw [if_pos rfl]
        simpa using countP_eq_zero.mp hnone
      · rw [if_neg ha] at hw
        refine ⟨w, t, rfl, (if_neg ha).mpr hw, ih.mpr ⟨ht, ?_⟩⟩
        rw [hw, countP_singleton] at hcount
        omega

end

end Glob

/-! ## Wildcard patterns and the loop that backtracks to the last star

A pattern is a list of characters in which one stands for any string, one for any single
character and every other for itself. The loop walks over pattern and name and remembers only
the last star: what lies between two stars has a fixed length, so that the first place where
it fits is as good as any later one. -/

namespace Wildcard

open List

universe u
variable {α : Type u} {star any a : α} {p q s pattern name : List α}

/-! ## Meaning -/

/-- The strings a character of a pattern stands for. -/
def Stands (star any a : α) (w : List α) : Prop := a = star ∨ ∃ c, w = [c] ∧ (a = any ∨ a = c)

/-- The name is cut into pieces, one for each character of the pattern. -/
def Matches (star any : α) (pattern name : List α) : Prop :=
  ∃ pieces, List.Forall₂ (Stands star any) pattern pieces ∧ pieces.flatten = name

/-- Characters without a star, each against one character. -/
def Fits (any : α) (q w : List α) : Prop := List.Forall₂ (fun a c => a = any ∨ a = c) q w

theorem matches_nil : Matches star any [] s ↔ s = [] := by
  constructor
  · rintro ⟨pieces, hpieces, rfl⟩
    cases hpieces
    rfl
  · intro hs
    exact ⟨[], .nil, hs.symm⟩

theorem matches_star : Matches star any (star :: p) s ↔ ∃ k, Matches star any p (s.drop k) := by
  constructor
  · rintro ⟨pieces, hpieces, rfl⟩
    cases hpieces with
    | @cons _ w _ ws _ hrest =>
      refine ⟨w.length, ws, hrest, ?_⟩
      rw [flatten_cons, drop_left]
  · rintro ⟨k, ws, hws, hflatten⟩
    refine ⟨s.take k :: ws, .cons (.inl rfl) hws, ?_⟩
    rw [flatten_cons, hflatten, take_append_drop]

theorem matches_cons (ha : a ≠ star) : Matches star any (a :: p) s ↔
      ∃ c t, s = c :: t ∧ (a = any ∨ a = c) ∧ Matches star any p t := by
  constructor
  · rintro ⟨pieces, hpieces, rfl⟩
    cases hpieces with
    | @cons _ w _ ws hw hrest =>
      rcases hw with hw | ⟨c, rfl, hc⟩
      · exact absurd hw ha
      · exact ⟨c, ws.flatten, rfl, hc, ws, hrest, rfl⟩
  · rintro ⟨c, t, rfl, hc, ws, hws, rfl⟩
    exact ⟨[c] :: ws, .cons (.inr ⟨c, rfl, hc⟩) hws, rfl⟩

/-- A part without a star matches exactly as many characters as it has. -/
theorem matches_append (hq : star ∉ q) : Matches star any (q ++ p) s ↔
      Fits any q (s.take q.length) ∧ Matches star any p (s.drop q.length) := by
  induction q generalizing s with
  | nil => simp [Fits]
  | cons a q ih =>
    obtain ⟨ha, hq⟩ := ne_and_not_mem_of_not_mem_cons hq
    rw [cons_append, matches_cons (Ne.symm ha)]
    constructor
    · rintro ⟨c, t, rfl, hc, hrest⟩
      obtain ⟨hfits, hmatches⟩ := (ih hq).mp hrest
      exact ⟨.cons hc hfits, hmatches⟩
    · intro ⟨hfits, hmatches⟩
      cases s with
      | nil => cases hfits
      | cons c t =>
        cases hfits with
        | cons hc hrest => exact ⟨c, t, rfl, hc, (ih hq).mpr ⟨hrest, hmatches⟩⟩

theorem matches_empty [DecidableEq α] :
    Matches star any p [] ↔ p.all (fun a => decide (a = star)) = true := by
  induction p with
  | nil => simp [matches_nil]
  | cons a p ih =>
    by_cases ha : a = star
    · subst ha
      simp [matches_star, ih]
    · simp [matches_cons ha, ha]

/-- Matching does not depend on how the characters are written, as long as they are told apart. -/
theorem matches_map {β : Type u} {f : α → β} {written : α → Prop}
    (hf : ∀ x y, written x → written y → f x = f y → x = y) (hstar : written star)
    (hany : written any) (hp : ∀ x ∈ p, written x) (hs : ∀ x ∈ s, written x) :
    Matches (f star) (f any) (p.map f) (s.map f) ↔ Matches star any p s := by
  induction p generalizing s with
  | nil => simp [matches_nil]
  | cons a p ih =>
    have ha := hp a mem_cons_self
    have hp' : ∀ x ∈ p, written x := fun x hx => hp x (mem_cons_of_mem _ hx)
    rw [map_cons]
    by_cases hastar : a = star
    · subst hastar
      rw [matches_star, matches_star]
      have hdrop (k : Nat) : Matches (f a) (f any) (p.map f) ((s.map f).drop k) ↔
          Matches a any p (s.drop k) := by
        rw [← map_drop]
        exact ih hp' fun x hx => hs x (mem_of_mem_drop hx)
      constructor
      · intro ⟨k, hk⟩
        exact ⟨k, (hdrop k).mp hk⟩
      · intro ⟨k, hk⟩
        exact ⟨k, (hdrop k).mpr hk⟩
    · rw [matches_cons hastar, matches_cons fun h => hastar (hf a star ha hstar h)]
      cases s with
      | nil => simp
      | cons c s =>
        have hc := hs c mem_cons_self
        have hrest := ih hp' fun x hx => hs x (mem_cons_of_mem _ hx)
        rw [map_cons]
        constructor
        · rintro ⟨y, t, heq, hfit, ht⟩
          obtain ⟨rfl, rfl⟩ := List.cons.inj heq
          refine ⟨c, s, rfl, ?_, hrest.mp ht⟩
          rcases hfit with hfit | hfit
          · exact .inl (hf a any ha hany hfit)
          · exact .inr (hf a c ha hc hfit)
        · rintro ⟨y, t, heq, hfit, ht⟩
          obtain ⟨rfl, rfl⟩ := List.cons.inj heq
          refine ⟨_, _, rfl, ?_, hrest.mpr ht⟩
          rcases hfit with rfl | rfl
          · exact .inl rfl
          · exact .inr rfl

/-- Where the loop stands in pattern and name, and the last star with how much of the name was
read when the characters after it were last tried. -/
structure Cursor where
  p : Nat
  n : Nat
  star : Option (Nat × Nat)

def Cursor.start : Cursor := ⟨0, 0, none⟩

section loop

variable [DecidableEq α] (star any : α) (pattern name : List α)

/-- One round of the loop: the next cursor, or the answer. -/
def round (c : Cursor) : Cursor ⊕ Bool :=
  if c.n < name.length then
    if c.p < pattern.length ∧ (pattern[c.p]? = some any ∨ pattern[c.p]? = name[c.n]?) then
      .inl ⟨c.p + 1, c.n + 1, c.star⟩
    else if pattern[c.p]? = some star then .inl ⟨c.p + 1, c.n, some (c.p, c.n)⟩
    else
      match c.star with
      | some (starP, starN) => .inl ⟨starP + 1, starN + 1, some (starP, starN + 1)⟩
      | none => .inr false
  else .inr ((pattern.drop c.p).all fun a => decide (a = star))

/-- So many rounds: `none` where the loop has not ended. -/
def loop : Nat → Cursor → Option Bool
  | 0, _ => none
  | fuel + 1, c =>
    match round star any pattern name c with
    | .inl c' => loop fuel c'
    | .inr b => some b

end loop

/-! ## What the loop has found out -/

/-- The characters after the last star fit where they were last tried. -/
def Trying (any : α) (pattern name : List α) (star : α) (c : Cursor) (starP starN : Nat) : Prop :=
  ∃ q, star ∉ q ∧ pattern.drop (starP + 1) = q ++ pattern.drop c.p ∧ c.n = starN + q.length ∧
    Fits any q ((name.drop starN).take q.length)

/-- The pattern matches the name exactly if the rest of it matches the rest of the name or,
after a star, some later rest. -/
def Remains (star any : α) (pattern name : List α) (c : Cursor) : Prop :=
  match c.star with
  | none => Matches star any pattern name ↔
      Matches star any (pattern.drop c.p) (name.drop c.n)
  | some (starP, starN) => starP < pattern.length ∧ Trying any pattern name star c starP starN ∧
      (Matches star any pattern name ↔
        ∃ k, starN ≤ k ∧ Matches star any (pattern.drop (starP + 1)) (name.drop k))

structure Invariant (star any : α) (pattern name : List α) (c : Cursor) : Prop where
  inPattern : c.p ≤ pattern.length
  inName : c.n ≤ name.length
  remains : Remains star any pattern name c

theorem Invariant.start : Invariant star any pattern name .start :=
  ⟨Nat.zero_le _, Nat.zero_le _, Iff.rfl⟩

variable {c : Cursor} {starP starN : Nat}

theorem drop_of_getElem? {l : List α} {i : Nat} {x : α} (h : l[i]? = some x) :
    l.drop i = x :: l.drop (i + 1) := by
  obtain ⟨hlt, hget⟩ := List.getElem?_eq_some_iff.mp h
  rw [drop_eq_getElem_cons hlt, hget]

section

variable (h : Trying any pattern name star c starP starN)
include h

theorem Trying.le : starN ≤ c.n := by
  obtain ⟨q, -, -, hlength, -⟩ := h
  omega

theorem Trying.matches_drop {k : Nat}
  (hk : Matches star any (pattern.drop (starP + 1)) (name.drop k)) :
    Matches star any (pattern.drop c.p) (name.drop (k + (c.n - starN))) := by
  obtain ⟨q, hq, hpattern, hn, -⟩ := h
  rw [hpattern, matches_append hq, drop_drop] at hk
  have hlength : c.n - starN = q.length := by omega
  rw [hlength]
  exact hk.2

theorem Trying.matches_of_drop (hrest : Matches star any (pattern.drop c.p) (name.drop c.n)) :
    Matches star any (pattern.drop (starP + 1)) (name.drop starN) := by
  obtain ⟨q, hq, hpattern, hn, hfits⟩ := h
  rw [hpattern, matches_append hq, drop_drop, ← hn]
  exact ⟨hfits, hrest⟩

end

theorem Trying.refl (starP starN : Nat) :
    Trying any pattern name star ⟨starP + 1, starN, some (starP, starN)⟩ starP starN :=
  ⟨[], by simp, rfl, rfl, .nil⟩

theorem Trying.step (h : Trying any pattern name star c starP starN) {x y : α}
    (hp : pattern[c.p]? = some x) (hn : name[c.n]? = some y) (hx : x ≠ star)
    (hfit : x = any ∨ x = y) (o : Option (Nat × Nat)) :
    Trying any pattern name star ⟨c.p + 1, c.n + 1, o⟩ starP starN := by
  obtain ⟨q, hq, hpattern, hlength, hfits⟩ := h
  refine ⟨q ++ [x], ?_, ?_, ?_, ?_⟩
  · intro hmem
    rcases mem_append.mp hmem with hmem | hmem
    · exact hq hmem
    · exact hx (mem_singleton.mp hmem).symm
  · rw [hpattern, drop_of_getElem? hp, append_assoc]
    rfl
  · show c.n + 1 = starN + (q ++ [x]).length
    rw [length_append, length_singleton]
    omega
  · have htake : (name.drop starN).take (q ++ [x]).length =
        (name.drop starN).take q.length ++ [y] := by
      rw [length_append, length_singleton, take_add_one, getElem?_drop, ← hlength, hn]
      rfl
    rw [htake]
    exact rel_append hfits (.cons hfit .nil)

/-- The characters at the cursor do not go together. -/
def Misses (star any : α) (pattern name : List α) (c : Cursor) : Prop :=
  ∃ y, name[c.n]? = some y ∧ ∀ x, pattern[c.p]? = some x → x ≠ star ∧ x ≠ any ∧ x ≠ y

theorem round_cases [DecidableEq α] (star any : α) (pattern name : List α) (c : Cursor) :
    (∃ x y, pattern[c.p]? = some x ∧ name[c.n]? = some y ∧ (x = any ∨ x = y) ∧
      round star any pattern name c = .inl ⟨c.p + 1, c.n + 1, c.star⟩) ∨
    (c.n < name.length ∧ pattern[c.p]? = some star ∧
      round star any pattern name c = .inl ⟨c.p + 1, c.n, some (c.p, c.n)⟩) ∨
    (Misses star any pattern name c ∧
      ((∃ starP starN, c.star = some (starP, starN) ∧ round star any pattern name c =
          .inl ⟨starP + 1, starN + 1, some (starP, starN + 1)⟩) ∨
        (c.star = none ∧ round star any pattern name c = .inr false))) ∨
    (name.length ≤ c.n ∧ round star any pattern name c =
      .inr ((pattern.drop c.p).all fun a => decide (a = star))) := by
  unfold round
  by_cases hn : c.n < name.length
  · have hy : name[c.n]? = some name[c.n] := getElem?_eq_getElem hn
    rw [if_pos hn]
    by_cases hfit : c.p < pattern.length ∧ (pattern[c.p]? = some any ∨ pattern[c.p]? = name[c.n]?)
    · have hx : pattern[c.p]? = some pattern[c.p] := getElem?_eq_getElem hfit.1
      refine .inl ⟨_, _, hx, hy, ?_, if_pos hfit⟩
      have hsame := hfit.2
      rw [hx, hy, Option.some.injEq, Option.some.injEq] at hsame
      exact hsame
    · rw [if_neg hfit]
      by_cases hatStar : pattern[c.p]? = some star
      · exact .inr (.inl ⟨hn, hatStar, if_pos hatStar⟩)
      · rw [if_neg hatStar]
        refine .inr (.inr (.inl ⟨⟨_, hy, fun x hx => ?_⟩, ?_⟩))
        · have hp := (List.getElem?_eq_some_iff.mp hx).1
          rw [hx, hy] at hfit
          rw [hx] at hatStar
          refine ⟨fun h => hatStar (congrArg some h), fun h => hfit ⟨hp, .inl (congrArg some h)⟩,
            fun h => hfit ⟨hp, .inr (congrArg some h)⟩⟩
        · cases hstar : c.star with
          | none => exact .inr ⟨rfl, rfl⟩
          | some found => exact .inl ⟨found.1, found.2, rfl, rfl⟩
  · exact .inr (.inr (.inr ⟨Nat.le_of_not_lt hn, if_neg hn⟩))

theorem Misses.not_matches (h : Misses star any pattern name c) :
    ¬ Matches star any (pattern.drop c.p) (name.drop c.n) := by
  obtain ⟨y, hy, hmiss⟩ := h
  intro hmatches
  rw [drop_of_getElem? hy] at hmatches
  cases hx : pattern[c.p]? with
  | none =>
    rw [drop_eq_nil_of_le (List.getElem?_eq_none_iff.mp hx), matches_nil] at hmatches
    cases hmatches
  | some x =>
    obtain ⟨hstar, hany, hne⟩ := hmiss x hx
    rw [drop_of_getElem? hx, matches_cons hstar] at hmatches
    obtain ⟨y', t, heq, hfits, -⟩ := hmatches
    rw [(List.cons.inj heq).1] at hne
    rcases hfits with hfits | hfits
    · exact hany hfits
    · exact hne hfits

/-! ## The invariant -/

theorem Invariant.fits (hany : star ≠ any) (hname : star ∉ name)
    (h : Invariant star any pattern name c) {x y : α} (hx : pattern[c.p]? = some x)
    (hy : name[c.n]? = some y) (hfit : x = any ∨ x = y) :
    Invariant star any pattern name ⟨c.p + 1, c.n + 1, c.star⟩ := by
  have hxstar : x ≠ star := by
    rcases hfit with rfl | rfl
    · exact Ne.symm hany
    · exact fun heq => hname (heq ▸ mem_of_getElem? hy)
  refine ⟨(List.getElem?_eq_some_iff.mp hx).1, (List.getElem?_eq_some_iff.mp hy).1, ?_⟩
  have hremains := h.remains
  unfold Remains at hremains ⊢
  cases hstar : c.star with
  | none =>
    rw [hstar] at hremains
    simp only at hremains ⊢
    rw [hremains, drop_of_getElem? hx, drop_of_getElem? hy, matches_cons hxstar]
    constructor
    · intro ⟨y', t, heq, _, hrest⟩
      rw [(List.cons.inj heq).2]
      exact hrest
    · intro hrest
      exact ⟨y, _, rfl, hfit, hrest⟩
  | some found =>
    rw [hstar] at hremains
    exact ⟨hremains.1, hremains.2.1.step hx hy hxstar hfit _, hremains.2.2⟩

/-- At another star the earlier one is no longer needed: the characters between them fit, and a
later place for them leaves less of the name to the new star. -/
theorem Invariant.atStar (h : Invariant star any pattern name c)
    (hatStar : pattern[c.p]? = some star) :
    Invariant star any pattern name ⟨c.p + 1, c.n, some (c.p, c.n)⟩ := by
  have hp := (List.getElem?_eq_some_iff.mp hatStar).1
  refine ⟨hp, h.inName, hp, .refl _ _, ?_⟩
  -- the rest at the star is some later rest of the name
  have hlater (n : Nat) : Matches star any (pattern.drop c.p) (name.drop n) ↔
      ∃ k, n ≤ k ∧ Matches star any (pattern.drop (c.p + 1)) (name.drop k) := by
    rw [drop_of_getElem? hatStar, matches_star]
    constructor
    · intro ⟨k, hk⟩
      rw [drop_drop] at hk
      exact ⟨n + k, by omega, hk⟩
    · intro ⟨k, hle, hk⟩
      refine ⟨k - n, ?_⟩
      rw [drop_drop, Nat.add_sub_cancel' hle]
      exact hk
  have hremains := h.remains
  unfold Remains at hremains
  cases hstar : c.star with
  | none =>
    rw [hstar] at hremains
    exact hremains.trans (hlater c.n)
  | some found =>
    rw [hstar] at hremains
    obtain ⟨-, htrying, hiff⟩ := hremains
    rw [hiff]
    constructor
    · intro ⟨k, hk, hmatches⟩
      obtain ⟨j, hj, hrest⟩ := (hlater _).mp (htrying.matches_drop hmatches)
      exact ⟨j, by omega, hrest⟩
    · intro hrest
      exact ⟨found.2, Nat.le_refl _, htrying.matches_of_drop ((hlater c.n).mpr hrest)⟩

theorem Invariant.backtracks (h : Invariant star any pattern name c)
    (hmiss : Misses star any pattern name c) (hstar : c.star = some (starP, starN)) :
    Invariant star any pattern name ⟨starP + 1, starN + 1, some (starP, starN + 1)⟩ := by
  have hremains := h.remains
  unfold Remains at hremains
  rw [hstar] at hremains
  obtain ⟨hp, htrying, hiff⟩ := hremains
  obtain ⟨y, hy, -⟩ := id hmiss
  have hle := htrying.le
  have hn := (List.getElem?_eq_some_iff.mp hy).1
  refine ⟨hp, by show starN + 1 ≤ name.length; omega, hp, .refl _ _, ?_⟩
  rw [hiff]
  constructor
  · intro ⟨k, hk, hmatches⟩
    by_cases hlast : k = starN
    · -- it was this place that failed
      have hrest := htrying.matches_drop hmatches
      rw [hlast, Nat.add_sub_cancel' hle] at hrest
      exact absurd hrest hmiss.not_matches
    · exact ⟨k, by omega, hmatches⟩
  · intro ⟨k, hk, hmatches⟩
    exact ⟨k, by omega, hmatches⟩

theorem Invariant.fails (h : Invariant star any pattern name c)
    (hmiss : Misses star any pattern name c) (hstar : c.star = none) :
    ¬ Matches star any pattern name := by
  have hremains := h.remains
  unfold Remains at hremains
  rw [hstar] at hremains
  intro hmatches
  exact hmiss.not_matches (Iff.mp hremains hmatches)

theorem Invariant.ends [DecidableEq α] (h : Invariant star any pattern name c) (hn : name.length ≤ c.n) :
    ((pattern.drop c.p).all fun a => decide (a = star)) = true ↔ Matches star any pattern name := by
  have hend (k : Nat) (hk : c.n ≤ k) : name.drop k = [] := drop_eq_nil_of_le (by omega)
  have hempty : Matches star any (pattern.drop c.p) [] ↔ _ := matches_empty
  rw [← hempty]
  have hremains := h.remains
  unfold Remains at hremains
  cases hstar : c.star with
  | none =>
    rw [hstar] at hremains
    simp only at hremains
    rw [hremains, hend c.n (Nat.le_refl _)]
  | some found =>
    rw [hstar] at hremains
    obtain ⟨-, htrying, hiff⟩ := hremains
    rw [hiff]
    constructor
    · intro hmatches
      refine ⟨found.2, Nat.le_refl _, htrying.matches_of_drop ?_⟩
      rw [hend c.n (Nat.le_refl _)]
      exact hmatches
    · intro ⟨k, hk, hmatches⟩
      have hrest := htrying.matches_drop hmatches
      rw [hend _ (by omega)] at hrest
      exact hrest

/-- The places left for the last star. -/
def Cursor.places (name : List α) (c : Cursor) : Nat :=
  match c.star with
  | none => name.length + 1
  | some (_, starN) => name.length - starN

/-- What is left to do: places for the last star, and the rest of the pattern. -/
def Cursor.left (pattern name : List α) (c : Cursor) : Nat :=
  c.places name * (pattern.length + 2) + (pattern.length - c.p)

/-- More rounds than any pattern and name take. -/
def bound (pattern name : List α) : Nat := (name.length + 2) * (pattern.length + 2)

theorem left_start : Cursor.start.left pattern name < bound pattern name := by
  have hsplit : (name.length + 2) * (pattern.length + 2) =
      (name.length + 1) * (pattern.length + 2) + (pattern.length + 2) :=
    Nat.succ_mul (name.length + 1) (pattern.length + 2)
  unfold bound Cursor.left
  rw [hsplit]
  show (name.length + 1) * (pattern.length + 2) + (pattern.length - 0) < _
  omega

theorem left_advance {c' : Cursor} (hplaces : c'.places name ≤ c.places name)
    (hp : c.p < pattern.length) (hp' : c'.p = c.p + 1) :
    c'.left pattern name < c.left pattern name := by
  have hmul := Nat.mul_le_mul_right (pattern.length + 2) hplaces
  unfold Cursor.left
  rw [hp']
  omega

theorem left_backtrack (hn : starN < name.length) (hstar : c.star = some (starP, starN)) :
    (⟨starP + 1, starN + 1, some (starP, starN + 1)⟩ : Cursor).left pattern name <
      c.left pattern name := by
  have hplaces : c.places name = (name.length - (starN + 1)) + 1 := by
    unfold Cursor.places
    rw [hstar]
    show name.length - starN = _
    omega
  unfold Cursor.left
  rw [hplaces, Nat.succ_mul]
  show (name.length - (starN + 1)) * (pattern.length + 2) + (pattern.length - (starP + 1)) < _
  omega

theorem Remains.star_le (h : Remains star any pattern name c)
    (hstar : c.star = some (starP, starN)) : starN ≤ c.n := by
  unfold Remains at h
  rw [hstar] at h
  exact h.2.1.le

theorem Invariant.round [DecidableEq α] (hany : star ≠ any) (hname : star ∉ name)
    (h : Invariant star any pattern name c) :
    (∃ c', Wildcard.round star any pattern name c = .inl c' ∧
      Invariant star any pattern name c' ∧ c'.left pattern name < c.left pattern name) ∨
    ∃ b, Wildcard.round star any pattern name c = .inr b ∧
      (b = true ↔ Matches star any pattern name) := by
  rcases round_cases star any pattern name c with ⟨x, y, hx, hy, hfit, hround⟩ |
    ⟨hn, hatStar, hround⟩ | ⟨hmiss, ⟨starP, starN, hstar, hround⟩ | ⟨hstar, hround⟩⟩ | ⟨hn, hround⟩
  · have hp := (List.getElem?_eq_some_iff.mp hx).1
    exact .inl ⟨_, hround, h.fits hany hname hx hy hfit,
      left_advance (Nat.le_refl (c.places name)) hp rfl⟩
  · have hp := (List.getElem?_eq_some_iff.mp hatStar).1
    refine .inl ⟨_, hround, h.atStar hatStar, left_advance ?_ hp rfl⟩
    -- a star further on has no more places than the one before it
    unfold Cursor.places
    cases hstar : c.star with
    | none =>
      show name.length - c.n ≤ name.length + 1
      omega
    | some found =>
      have hle : found.2 ≤ c.n := Remains.star_le h.remains hstar
      show name.length - c.n ≤ name.length - found.2
      omega
  · obtain ⟨y, hy, -⟩ := id hmiss
    have hn := (List.getElem?_eq_some_iff.mp hy).1
    have hle := h.remains.star_le hstar
    exact .inl ⟨_, hround, h.backtracks hmiss hstar, left_backtrack (by omega) hstar⟩
  · refine .inr ⟨false, hround, ?_⟩
    constructor
    · intro hb
      cases hb
    · intro hmatches
      exact absurd hmatches (h.fails hmiss hstar)
  · exact .inr ⟨_, hround, h.ends hn⟩

theorem Invariant.loop [DecidableEq α] (hany : star ≠ any) (hname : star ∉ name) {fuel : Nat}
    (h : Invariant star any pattern name c) (hfuel : c.left pattern name < fuel) :
    ∃ b, Wildcard.loop star any pattern name fuel c = some b ∧
      (b = true ↔ Matches star any pattern name) := by
  induction fuel generalizing c with
  | zero => omega
  | succ fuel ih =>
    simp only [Wildcard.loop]
    rcases h.round hany hname with ⟨c', hround, hinv, hless⟩ | ⟨b, hround, hb⟩
    · rw [hround]
      exact ih hinv (by omega)
    · rw [hround]
      exact ⟨b, rfl, hb⟩

/-- **Backtracking to the last star is enough**: from the start, within the bound, the loop
ends and says whether the pattern matches the name. -/
theorem loop_start [DecidableEq α] (hany : star ≠ any) (hname : star ∉ name) {fuel : Nat}
    (hfuel : bound pattern name ≤ fuel) :
    ∃ b, loop star any pattern name fuel .start = some b ∧
      (b = true ↔ Matches star any pattern name) :=
  Invariant.start.loop hany hname (Nat.lt_of_lt_of_le left_start hfuel)

end Wildcard
