import Mathlib.Data.List.Induction
import Chicoree.Images.TagAdmin

/-! # Which image is the newest

Nothing that a loop for the greatest has seen is above what it ends with, as the loop compares.
It compares version numbers as doubles and ranks attached artifacts with the images; where
neither makes a difference, what it ends with is the newest of the images. -/

namespace Chicoree.Images

open Bool List
open Doubles (Whole)
open Registryd (Digest Time)

/-! ## The last of the greatest -/

section lastBest

variable {α : Type} {atLeast : α → α → Bool} {xs ys : List α} {b : α}

theorem lastBest_append (best : Option α) :
    lastBest atLeast best (xs ++ ys) = lastBest atLeast (lastBest atLeast best xs) ys := by
  induction xs generalizing best with
  | nil => cases best <;> rfl
  | cons x xs ih =>
    cases best with
    | none => exact ih (some x)
    | some b => exact ih _

theorem lastBest_isSome (hxs : xs ≠ []) : ∃ b, lastBest atLeast none xs = some b := by
  have hsome (a : α) (zs : List α) : ∃ b, lastBest atLeast (some a) zs = some b := by
    induction zs generalizing a with
    | nil => exact ⟨a, rfl⟩
    | cons z _ ih => exact ih _
  cases xs with
  | nil => exact absurd rfl hxs
  | cons x xs => exact hsome x xs

/-- One comparison after another does not lead out of the order. -/
def Chains (atLeast : α → α → Bool) (xs : List α) : Prop :=
  ∀ x ∈ xs, ∀ y ∈ xs, ∀ z ∈ xs, atLeast x y = true → atLeast y z = true → atLeast x z = true

/-- What the loop ends with is one of those it saw, and none of them is above it. -/
theorem lastBest_max (h : Chains atLeast xs) (hb : lastBest atLeast none xs = some b) :
    b ∈ xs ∧ ∀ x ∈ xs, atLeast x b = true → atLeast b x = true := by
  induction xs using List.reverseRecOn generalizing b with
  | nil => cases hb
  | append_singleton xs x ih =>
    have hsub : ∀ y ∈ xs, y ∈ xs ++ [x] := fun y hy => mem_append_left _ hy
    have hx : x ∈ xs ++ [x] := by simp
    have hchains : Chains atLeast xs :=
      fun a ha b hb c hc => h a (hsub a ha) b (hsub b hb) c (hsub c hc)
    rw [lastBest_append] at hb
    cases hbest : lastBest atLeast none xs with
    | none =>
      obtain rfl : xs = [] := by
        by_contra hne
        obtain ⟨c, hc⟩ : ∃ c, lastBest atLeast none xs = some c := lastBest_isSome hne
        rw [hbest] at hc
        cases hc
      cases hb
      simp
    | some c =>
      obtain ⟨hc, hmax⟩ := ih hchains hbest
      rw [hbest] at hb
      have hb : (if atLeast x c then x else c) = b := Option.some.inj hb
      cases hxc : atLeast x c with
      | false =>
        rw [hxc, if_neg (by simp)] at hb
        subst hb
        refine ⟨hsub c hc, fun y hy hyc => ?_⟩
        obtain hold | hnew := mem_append.mp hy
        · exact hmax y hold hyc
        · rw [mem_singleton.mp hnew, hxc] at hyc
          cases hyc
      | true =>
        rw [hxc, if_pos rfl] at hb
        subst hb
        refine ⟨hx, fun y hy hyx => ?_⟩
        obtain hold | hnew := mem_append.mp hy
        · have hyc := h y hy x hx c (hsub c hc) hyx hxc
          exact h x hx c (hsub c hc) y hy hxc (hmax y hold hyc)
        · rw [mem_singleton.mp hnew] at hyx ⊢
          exact hyx

end lastBest

/-! ## Versions -/

theorem keyAtLeast_trans {as bs cs : List Whole} (hab : as.length = bs.length)
    (hbc : bs.length = cs.length) (h : keyAtLeast as bs = true) (h' : keyAtLeast bs cs = true) :
    keyAtLeast as cs = true := by
  induction as generalizing bs cs with
  | nil =>
    obtain rfl : cs = [] := length_eq_zero_iff.mp (by simp only [length_nil] at hab; omega)
    rfl
  | cons a as ih =>
    cases bs with
    | nil => simp at hab
    | cons b bs =>
    cases cs with
    | nil => simp at hbc
    | cons c cs =>
    simp only [length_cons, Nat.add_right_cancel_iff] at hab hbc
    cases a with
    | nan => simp [keyAtLeast] at h
    | infinity =>
      cases b with
      | nan | infinity => simp [keyAtLeast] at h
      | whole n =>
        cases c with
        | nan | infinity => simp [keyAtLeast] at h'
        | whole k => rfl
    | whole m =>
      cases b with
      | nan | infinity => simp [keyAtLeast] at h
      | whole n =>
        cases c with
        | nan | infinity => simp [keyAtLeast] at h'
        | whole k =>
          unfold keyAtLeast at h h' ⊢
          by_cases hmn : m = n
          · subst hmn
            rw [if_pos rfl] at h
            by_cases hmk : m = k
            · rw [if_pos hmk] at h' ⊢
              exact ih hab hbc h h'
            · rw [if_neg hmk] at h' ⊢
              exact h'
          · rw [if_neg hmn] at h
            have hlt : n < m := of_decide_eq_true h
            have hle : k ≤ n := by
              by_cases hnk : n = k
              · exact Int.le_of_eq hnk.symm
              · rw [if_neg hnk] at h'
                exact Int.le_of_lt (of_decide_eq_true h')
            rw [if_neg (by omega)]
            exact decide_eq_true (by omega)

theorem versionParts_length {tag : String} {parts : List Nat}
    (h : versionParts tag = some parts) : parts.length = 4 := by
  have hkey {three : List Nat} (hthree : three.length = 3) {rest : List Char} {out : List Nat}
      (hk : (endsVersion rest).map (fun suffix => three ++ [if suffix then 0 else 1]) = some out) :
      out.length = 4 := by
    obtain ⟨suffix, -, rfl⟩ := Option.map_eq_some_iff.mp hk
    rw [length_append, hthree]
    rfl
  unfold versionParts at h
  simp only at h
  split at h
  · cases h
  · split at h
    · exact hkey rfl h
    · split at h
      · rename_i hbind
        cases h
        obtain ⟨part, -, hpart⟩ := Option.bind_eq_some_iff.mp hbind
        exact hkey rfl hpart
      · rcases Option.or_eq_some_iff.mp h with hfirst | ⟨-, hsecond⟩
        · exact hkey rfl hfirst
        · exact hkey rfl hsecond

/-- The version tags among some tags, with their parts. -/
def versionedTags (tags : List TagRow) : List (TagRow × List Nat) :=
  tags.filterMap fun t => (versionParts t.name).map fun parts => (t, parts)

/-- The parts of a version as the code compares them. -/
def keyOf (parts : List Nat) : List Whole := parts.map fun n => Whole.ofInt n

/-- One version is below another as the code compares them. -/
def keyBelow (as bs : List Nat) : Bool :=
  keyAtLeast (keyOf bs) (keyOf as) && !keyAtLeast (keyOf as) (keyOf bs)

/-- One version is below another. -/
def partsBelow : List Nat → List Nat → Bool
  | a :: as, b :: bs => if a = b then partsBelow as bs else decide (a < b)
  | _, _ => false

/-- When the image of a tag was built; the epoch where that is not known. -/
def builtAt (built : List (Digest × Time)) (t : TagRow) : Time :=
  (built.lookup t.manifestDigest).getD 0

/-- The tag names the newest of the images: no version among them is above it where there is
one, and none was built after it where there is not. -/
def NewestAmong (images : List TagRow) (built : List (Digest × Time)) (t : TagRow) : Prop :=
  t ∈ images ∧ if versionedTags images = [] then ∀ x ∈ images, builtAt built x ≤ builtAt built t
    else ∃ parts, versionParts t.name = some parts ∧
      ∀ v ∈ versionedTags images, partsBelow parts v.2 = false

/-! ## What the ranking of the code must not get wrong -/

section Ranks

variable (image : TagRow → Bool) (tags : List TagRow) (built : List (Digest × Time))

/-- Every version that is no image's is below one that is, and of two images the doubles of
the code tell the lower one. -/
structure VersionsRank : Prop where
  artifacts : ∀ v ∈ versionedTags tags, image v.1 = false →
    ∃ w ∈ versionedTags tags, image w.1 = true ∧ keyBelow v.2 w.2 = true
  doubles : ∀ v ∈ versionedTags tags, ∀ w ∈ versionedTags tags, image v.1 = true →
    image w.1 = true → partsBelow v.2 w.2 = true → keyBelow v.2 w.2 = true

/-- The tags that the code asks build dates of. -/
def recentTags : List TagRow := tags.drop (tags.length - 100)

/-- Among the last hundred tags, what is no image was built before one that is; and one of
them was built as late as any image before them. -/
structure DatesRank : Prop where
  artifacts : ∀ t ∈ recentTags tags, image t = false →
    ∃ x ∈ recentTags tags, image x = true ∧ builtAt built t < builtAt built x
  earlier : ∀ t ∈ tags, image t = true →
    ∃ x ∈ recentTags tags, image x = true ∧ builtAt built t ≤ builtAt built x

/-- The ranking puts an image first that no other image is newer than. -/
def RanksImages : Prop :=
  if versionedTags tags = [] then DatesRank image tags built else VersionsRank image tags

instance : Decidable (VersionsRank image tags) :=
  decidable_of_iff (_ ∧ _) ⟨fun h => ⟨h.1, h.2⟩, fun h => ⟨h.artifacts, h.doubles⟩⟩

instance : Decidable (DatesRank image tags built) :=
  decidable_of_iff (_ ∧ _) ⟨fun h => ⟨h.1, h.2⟩, fun h => ⟨h.artifacts, h.earlier⟩⟩

instance : Decidable (RanksImages image tags built) :=
  inferInstanceAs (Decidable (if versionedTags tags = [] then _ else _))

end Ranks

/-! ## What is picked -/

section images

variable {image : TagRow → Bool} {tags : List TagRow} {built : List (Digest × Time)} {t : TagRow}

theorem mem_versionedTags {v : TagRow × List Nat} :
    v ∈ versionedTags tags ↔ v.1 ∈ tags ∧ versionParts v.1.name = some v.2 := by
  simp only [versionedTags, mem_filterMap, Option.map_eq_some_iff]
  constructor
  · rintro ⟨x, hx, parts, hparts, rfl⟩
    exact ⟨hx, hparts⟩
  · intro ⟨hmem, hparts⟩
    exact ⟨v.1, hmem, v.2, hparts, rfl⟩

theorem versionedTags_filter {v : TagRow × List Nat} :
    v ∈ versionedTags (tags.filter image) ↔ v ∈ versionedTags tags ∧ image v.1 = true := by
  rw [mem_versionedTags, mem_versionedTags, mem_filter]
  exact ⟨fun h => ⟨⟨h.1.1, h.2⟩, h.1.2⟩, fun h => ⟨⟨h.1.1, h.2⟩, h.1.2⟩⟩

/-- The tags with the keys that the code compares. -/
theorem versionKeys_eq : (tags.filterMap fun t => (versionKey t.name).map fun k => (t, k)) =
    (versionedTags tags).map fun v => (v.1, keyOf v.2) := by
  unfold versionedTags
  rw [map_filterMap]
  congr 1
  funext t
  unfold versionKey
  rw [Option.map_map, Option.map_map]
  rfl

theorem pickNewest_versioned (h : versionedTags tags ≠ []) :
    pickNewest tags built = (lastBest (fun x b : TagRow × List Whole => keyAtLeast x.2 b.2) none
      ((versionedTags tags).map fun v => (v.1, keyOf v.2))).map (·.1) := by
  unfold pickNewest
  rw [versionKeys_eq]
  simp only [isEmpty_map, isEmpty_eq_false_iff.mpr h, false_eq_true, if_false]

theorem pickNewest_dated (h : versionedTags tags = []) :
    pickNewest tags built = (lastBest (fun x b : TagRow × Time => decide (b.2 ≤ x.2)) none
      ((recentTags tags).map fun t => (t, builtAt built t))).map (·.1) := by
  unfold pickNewest
  rw [versionKeys_eq, h]
  rfl

theorem keys_chain (tags : List TagRow) :
    Chains (fun x b : TagRow × List Whole => keyAtLeast x.2 b.2)
      ((versionedTags tags).map fun v => (v.1, keyOf v.2)) := by
  have hlength (x : TagRow × List Whole)
      (hx : x ∈ (versionedTags tags).map fun v => (v.1, keyOf v.2)) : x.2.length = 4 := by
    obtain ⟨v, hv, rfl⟩ := mem_map.mp hx
    have hparts := versionParts_length (mem_versionedTags.mp hv).2
    simpa [keyOf] using hparts
  intro x hx y hy z hz h h'
  refine keyAtLeast_trans ?_ ?_ h h'
  · rw [hlength x hx, hlength y hy]
  · rw [hlength y hy, hlength z hz]

theorem dates_chain (dated : List (TagRow × Time)) :
    Chains (fun x b : TagRow × Time => decide (b.2 ≤ x.2)) dated := by
  intro x _ y _ z _ h h'
  exact decide_eq_true (Int.le_trans (of_decide_eq_true h') (of_decide_eq_true h))

/-- What is picked is a version, and none is above it as the code compares. -/
theorem pickNewest_version (hsome : versionedTags tags ≠ [])
    (hpick : pickNewest tags built = some t) :
    ∃ parts, (t, parts) ∈ versionedTags tags ∧
      ∀ v ∈ versionedTags tags, keyBelow parts v.2 = false := by
  rw [pickNewest_versioned hsome] at hpick
  obtain ⟨b, hb, rfl⟩ := Option.map_eq_some_iff.mp hpick
  obtain ⟨hmem, hmax⟩ := lastBest_max (keys_chain tags) hb
  obtain ⟨v, hv, rfl⟩ := mem_map.mp hmem
  refine ⟨v.2, hv, fun w hw => ?_⟩
  have hnot := hmax _ (mem_map.mpr ⟨w, hw, rfl⟩)
  unfold keyBelow
  cases habove : keyAtLeast (keyOf w.2) (keyOf v.2) with
  | false => rfl
  | true =>
    have hback : keyAtLeast (keyOf v.2) (keyOf w.2) = true := hnot habove
    rw [hback]
    rfl

/-- What is picked is among the last hundred, and none of these was built after it. -/
theorem pickNewest_date (hnone : versionedTags tags = []) (hpick : pickNewest tags built = some t) :
    t ∈ recentTags tags ∧ ∀ x ∈ recentTags tags, builtAt built x ≤ builtAt built t := by
  rw [pickNewest_dated hnone] at hpick
  obtain ⟨b, hb, rfl⟩ := Option.map_eq_some_iff.mp hpick
  obtain ⟨hmem, hmax⟩ := lastBest_max (dates_chain _) hb
  obtain ⟨y, hy, rfl⟩ := mem_map.mp hmem
  refine ⟨hy, fun x hx => ?_⟩
  by_contra hlater
  have hle : builtAt built y ≤ builtAt built x := Int.le_of_lt (Int.not_le.mp hlater)
  have hback := hmax _ (mem_map.mpr ⟨x, hx, rfl⟩) (decide_eq_true hle)
  exact hlater (of_decide_eq_true hback)

/-- **What is picked is the newest image**, where the ranking does not go wrong. -/
theorem pickNewest_newest (h : RanksImages image tags built)
    (hpick : pickNewest tags built = some t) : NewestAmong (tags.filter image) built t := by
  unfold RanksImages at h
  by_cases hnone : versionedTags tags = []
  · rw [if_pos hnone] at h
    obtain ⟨hrecent, hmax⟩ := pickNewest_date hnone hpick
    have himage : image t = true := by
      by_contra hno
      obtain ⟨x, hx, -, hlater⟩ := h.artifacts t hrecent (by simpa using hno)
      exact Int.not_lt.mpr (hmax x hx) hlater
    refine ⟨mem_filter.mpr ⟨mem_of_mem_drop hrecent, himage⟩, ?_⟩
    have hfiltered : versionedTags (tags.filter image) = [] := by
      rw [eq_nil_iff_forall_not_mem] at hnone ⊢
      exact fun v hv => hnone v (versionedTags_filter.mp hv).1
    rw [if_pos hfiltered]
    intro x hx
    obtain ⟨hx, hximage⟩ := mem_filter.mp hx
    obtain ⟨y, hy, -, hle⟩ := h.earlier x hx hximage
    exact Int.le_trans hle (hmax y hy)
  · rw [if_neg hnone] at h
    obtain ⟨parts, hmem, hmax⟩ := pickNewest_version hnone hpick
    have himage : image t = true := by
      by_contra hno
      obtain ⟨w, hw, -, hbelow⟩ := h.artifacts _ hmem (by simpa using hno)
      rw [hmax w hw] at hbelow
      cases hbelow
    obtain ⟨ht, hparts⟩ := mem_versionedTags.mp hmem
    refine ⟨mem_filter.mpr ⟨ht, himage⟩, ?_⟩
    rw [if_neg (ne_nil_of_mem (versionedTags_filter.mpr ⟨hmem, himage⟩))]
    refine ⟨parts, hparts, fun v hv => ?_⟩
    obtain ⟨hv, hvimage⟩ := versionedTags_filter.mp hv
    rw [← not_eq_true]
    intro hbelow
    have hkey := h.doubles _ hmem v hv himage hvimage hbelow
    rw [hmax v hv] at hkey
    cases hkey

theorem pickNewest_isSome (htags : tags ≠ []) : ∃ t, pickNewest tags built = some t := by
  by_cases hnone : versionedTags tags = []
  · have hdated : ((recentTags tags).map fun t => (t, builtAt built t)) ≠ [] := by
      have hlength : 0 < tags.length := length_pos_iff.mpr htags
      rw [← length_pos_iff, length_map, recentTags, length_drop]
      omega
    obtain ⟨v, hv⟩ : ∃ v, lastBest (fun x b : TagRow × Time => decide (b.2 ≤ x.2)) none
        ((recentTags tags).map fun t => (t, builtAt built t)) = some v := lastBest_isSome hdated
    exact ⟨v.1, by rw [pickNewest_dated hnone, hv]; rfl⟩
  · obtain ⟨v, hv⟩ : ∃ v, lastBest (fun x b : TagRow × List Whole => keyAtLeast x.2 b.2) none
        ((versionedTags tags).map fun v => (v.1, keyOf v.2)) = some v :=
      lastBest_isSome (by simpa using hnone)
    exact ⟨v.1, by rw [pickNewest_versioned hnone, hv]; rfl⟩

end images

end Chicoree.Images
