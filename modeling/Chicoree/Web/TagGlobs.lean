import Chicoree.Registryd.Pushes

/-! # Tag globs on both sides

`MatchTagGlob` of registryd walks over bytes and `matchTagGlob` of the web application over
UTF-16 code units. Patterns and tags are made of characters that are one of either. -/

namespace Chicoree

open List Registryd Wildcard

/-! ## The two matchers -/

namespace Registryd

def bytesOf (s : String) : List UInt8 := s.toList.flatMap String.utf8EncodeChar

/-- `MatchTagGlob` after so many rounds of its loop, `none` where it is not done. -/
def matchTagGlobFor (rounds : Nat) (pattern name : String) : Option Bool :=
  loop '*'.toUInt8 '?'.toUInt8 (bytesOf pattern) (bytesOf name) rounds .start

end Registryd

namespace Web

def utf16Char (c : Char) : List UInt16 :=
  if c.toNat < 0x10000 then [UInt16.ofNat c.toNat]
  else
    [UInt16.ofNat (0xD800 + (c.toNat - 0x10000) / 0x400),
      UInt16.ofNat (0xDC00 + (c.toNat - 0x10000) % 0x400)]

def codeUnits (s : String) : List UInt16 := s.toList.flatMap utf16Char

/-- `matchTagGlob` after so many rounds of its loop, `none` where it is not done. -/
def matchTagGlobFor (rounds : Nat) (pattern name : String) : Option Bool :=
  loop (UInt16.ofNat '*'.toNat) (UInt16.ofNat '?'.toNat) (codeUnits pattern)
    (codeUnits name) rounds .start

/-- A character of `PATTERN_RE`: a tag's, `*` or `?`. -/
def isPatternChar (c : Char) : Bool :=
  isAlphaNum c || ['_', '.', '*', '?', '-'].contains c

end Web

/-! ## Characters of tags -/

section characters

def IsAscii (c : Char) : Prop := c.toNat < 128

instance (c : Char) : Decidable (IsAscii c) := inferInstanceAs (Decidable (_ < _))

theorem IsAscii.toUInt8_inj {c d : Char} (hc : IsAscii c) (hd : IsAscii d)
    (h : c.toUInt8 = d.toUInt8) : c = d := by
  have hnat := congrArg UInt8.toNat h
  simp only [Char.toUInt8, UInt32.toNat_toUInt8] at hnat
  change c.val.toNat < 128 at hc
  change d.val.toNat < 128 at hd
  apply Char.ext
  apply UInt32.toNat_inj.mp
  omega

theorem IsAscii.unit_inj {c d : Char} (hc : IsAscii c) (hd : IsAscii d)
    (h : UInt16.ofNat c.toNat = UInt16.ofNat d.toNat) : c = d := by
  have hnat := congrArg UInt16.toNat h
  rw [UInt16.toNat_ofNat', UInt16.toNat_ofNat'] at hnat
  change c.val.toNat < 128 at hc
  change d.val.toNat < 128 at hd
  change c.val.toNat % _ = d.val.toNat % _ at hnat
  apply Char.ext
  apply UInt32.toNat_inj.mp
  omega

theorem bytesOf_ascii {s : String} (hs : ∀ c ∈ s.toList, IsAscii c) :
    bytesOf s = s.toList.map Char.toUInt8 := by
  unfold bytesOf
  generalize s.toList = cs at hs ⊢
  induction cs with
  | nil => rfl
  | cons c cs ih =>
    have hsize : c.utf8Size = 1 := by
      have hc := hs c mem_cons_self
      unfold Char.utf8Size
      rw [if_pos]
      exact Nat.le_of_lt_succ hc
    rw [flatMap_cons, map_cons, String.utf8EncodeChar_eq_singleton hsize,
      ih fun x hx => hs x (mem_cons_of_mem _ hx)]
    rfl

theorem codeUnits_ascii {s : String} (hs : ∀ c ∈ s.toList, IsAscii c) :
    Web.codeUnits s = s.toList.map fun c => UInt16.ofNat c.toNat := by
  unfold Web.codeUnits
  generalize s.toList = cs at hs ⊢
  induction cs with
  | nil => rfl
  | cons c cs ih =>
    have hunit : Web.utf16Char c = [UInt16.ofNat c.toNat] := by
      have hc := hs c mem_cons_self
      exact if_pos (Nat.lt_trans hc (by omega))
    rw [flatMap_cons, map_cons, hunit, ih fun x hx => hs x (mem_cons_of_mem _ hx)]
    rfl

theorem alphaNum_ascii {c : Char} (h : isAlphaNum c = true) : IsAscii c := by
  have hle (hi : Char) (hhi : hi.toNat < 128) (hc : c ≤ hi) : IsAscii c := Nat.lt_of_le_of_lt hc hhi
  simp only [isAlphaNum, Bool.or_eq_true, Bool.and_eq_true, decide_eq_true_eq] at h
  rcases h with (h | h) | h
  · exact hle 'z' (by decide) h.2
  · exact hle 'Z' (by decide) h.2
  · exact hle '9' (by decide) h.2

theorem isPatternChar_ascii {c : Char} (h : Web.isPatternChar c = true) : IsAscii c := by
  unfold Web.isPatternChar at h
  rw [Bool.or_eq_true] at h
  rcases h with h | h
  · exact alphaNum_ascii h
  · simp only [contains_cons, contains_nil, Bool.or_false, Bool.or_eq_true, beq_iff_eq] at h
    rcases h with rfl | rfl | rfl | rfl | rfl <;> exact by decide

theorem isTagName_char {name : String} (h : isTagName name = true) :
    ∀ c ∈ name.toList, IsAscii c ∧ c ≠ '*' := by
  have halpha {c : Char} (hc : isAlphaNum c = true) : IsAscii c ∧ c ≠ '*' := by
    refine ⟨alphaNum_ascii hc, ?_⟩
    rintro rfl
    exact absurd hc (by decide)
  have hother {c : Char} (hc : c ∈ ['.', '_', '-']) : IsAscii c ∧ c ≠ '*' := by
    simp only [mem_cons, not_mem_nil, or_false] at hc
    rcases hc with rfl | rfl | rfl <;> exact ⟨by decide, by decide⟩
  unfold isTagName at h
  cases hlist : name.toList with
  | nil => simp
  | cons c cs =>
    rw [hlist] at h
    simp only [Bool.and_eq_true, Bool.or_eq_true, decide_eq_true_eq, all_eq_true] at h
    obtain ⟨⟨hfirst, -⟩, hrest⟩ := h
    intro x hx
    rcases mem_cons.mp hx with rfl | hx
    · rcases hfirst with hfirst | rfl
      · exact halpha hfirst
      · exact hother (by simp)
    · rcases hrest x hx with ((hx | rfl) | rfl) | rfl
      · exact halpha hx
      · exact hother (by simp)
      · exact hother (by simp)
      · exact hother (by simp)

end characters

/-! ## The matchers agree -/

theorem loop_written {β : Type} [DecidableEq β] {f : Char → β}
    (hf : ∀ x y, IsAscii x → IsAscii y → f x = f y → x = y) {pattern name : List Char}
    (hpattern : ∀ c ∈ pattern, IsAscii c) (hname : ∀ c ∈ name, IsAscii c ∧ c ≠ '*') {rounds : Nat}
    (hrounds : bound pattern name ≤ rounds) :
    ∃ b, loop (f '*') (f '?') (pattern.map f) (name.map f) rounds .start = some b ∧
      (b = true ↔ Wildcard.Matches '*' '?' pattern name) := by
  have hstar : IsAscii '*' := by decide
  have hany : IsAscii '?' := by decide
  have hne : f '*' ≠ f '?' := fun h => absurd (hf _ _ hstar hany h) (by decide)
  have hmem : f '*' ∉ name.map f := by
    intro hmem
    obtain ⟨c, hc, heq⟩ := mem_map.mp hmem
    exact (hname c hc).2 (hf _ _ (hname c hc).1 hstar heq)
  have hbound : bound (pattern.map f) (name.map f) ≤ rounds := by
    unfold bound at hrounds ⊢
    rw [length_map, length_map]
    exact hrounds
  obtain ⟨b, hloop, hb⟩ := loop_start hne hmem hbound
  rw [matches_map hf hstar hany hpattern fun c hc => (hname c hc).1] at hb
  exact ⟨b, hloop, hb⟩

theorem matchLoop_eq_loop (pattern name : List Char) (fuel : Nat) (c : Wildcard.Cursor) :
    matchLoop pattern name fuel c.p c.n c.star =
      (loop '*' '?' pattern name fuel c).getD false := by
  induction fuel generalizing c with
  | zero => rfl
  | succ fuel ih =>
    simp only [matchLoop, loop]
    unfold Wildcard.round
    by_cases hn : c.n < name.length
    · rw [if_pos hn, if_pos hn]
      by_cases hfit : c.p < pattern.length ∧ (pattern[c.p]? = some '?' ∨ pattern[c.p]? = name[c.n]?)
      · rw [if_pos hfit, if_pos hfit]
        exact ih ⟨c.p + 1, c.n + 1, c.star⟩
      · rw [if_neg hfit, if_neg hfit]
        by_cases hstar : pattern[c.p]? = some '*'
        · rw [if_pos hstar, if_pos hstar]
          exact ih ⟨c.p + 1, c.n, some (c.p, c.n)⟩
        · rw [if_neg hstar, if_neg hstar]
          cases c.star with
          | none => rfl
          | some found => exact ih ⟨found.1 + 1, found.2 + 1, some (found.1, found.2 + 1)⟩
    · rw [if_neg hn, if_neg hn]
      rfl

/-- Both matchers end, whatever the pattern and the tag, and both say whether the pattern with
its wildcards matches the whole tag. -/
theorem tag_globs_agree (pattern name : String)
    (hpattern : ∀ c ∈ pattern.toList, Web.isPatternChar c = true)
    (hname : isTagName name = true) :
    ∃ b, (b = true ↔ Wildcard.Matches '*' '?' pattern.toList name.toList) ∧
      matchTagGlob pattern name = b ∧
      ∀ rounds, bound pattern.toList name.toList ≤ rounds →
        matchTagGlobFor rounds pattern name = some b ∧
          Web.matchTagGlobFor rounds pattern name = some b := by
  have hp : ∀ c ∈ pattern.toList, IsAscii c := fun c hc => isPatternChar_ascii (hpattern c hc)
  have hn := isTagName_char hname
  have hn' : ∀ c ∈ name.toList, IsAscii c := fun c hc => (hn c hc).1
  obtain ⟨b, hloop, hb⟩ := loop_written (f := id) (fun x y _ _ h => h) hp hn (Nat.le_refl _)
  refine ⟨b, hb, ?_, fun rounds hrounds => ⟨?_, ?_⟩⟩
  · show matchLoop _ _ (matchFuel pattern.toList name.toList)
      Wildcard.Cursor.start.p Wildcard.Cursor.start.n Wildcard.Cursor.start.star = b
    rw [matchLoop_eq_loop]
    have hfuel : matchFuel pattern.toList name.toList =
        bound pattern.toList name.toList := Nat.mul_comm _ _
    rw [map_id, map_id] at hloop
    rw [hfuel]
    exact congrArg (Option.getD · false) hloop
  · obtain ⟨b', hloop', hb'⟩ := loop_written (f := Char.toUInt8)
      (fun x y hx hy h => hx.toUInt8_inj hy h) hp hn hrounds
    rw [← Bool.eq_iff_iff.mpr (hb'.trans hb.symm)]
    unfold matchTagGlobFor
    rw [bytesOf_ascii hp, bytesOf_ascii hn']
    exact hloop'
  · obtain ⟨b', hloop', hb'⟩ := loop_written (f := fun c => UInt16.ofNat c.toNat)
      (fun x y hx hy h => hx.unit_inj hy h) hp hn hrounds
    rw [← Bool.eq_iff_iff.mpr (hb'.trans hb.symm)]
    unfold Web.matchTagGlobFor
    rw [codeUnits_ascii hp, codeUnits_ascii hn']
    exact hloop'

theorem tag_globs_agree_twoStars :
    ∃ b, (b = true ↔ Wildcard.Matches '*' '?' "v*.1?*".toList "v1.1.12".toList) ∧
      matchTagGlob "v*.1?*" "v1.1.12" = b ∧
      ∀ rounds, bound "v*.1?*".toList "v1.1.12".toList ≤ rounds →
        matchTagGlobFor rounds "v*.1?*" "v1.1.12" = some b ∧
          Web.matchTagGlobFor rounds "v*.1?*" "v1.1.12" = some b :=
  tag_globs_agree _ _ (all_eq_true.mp (by decide)) (by decide)

end Chicoree
