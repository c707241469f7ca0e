import Chicoree.Images.Retention
import Chicoree.Lib.Rank

/-! # What a retention plan removes

The plan against the policy as it is documented: the tags and the untagged manifests it
removes are those the policy names, in whatever order they are listed, and a more generous
policy removes no more. -/

namespace Chicoree.Images

open Bool (and_eq_true not_eq_true not_eq_true')
open List
open Registryd (Digest Time TagRule matchTagGlob protectedRule)

/-! ## The documented policy -/

section policy

variable (localeCompare : String → String → Ordering)

/-- Whether a tag was pushed later than another, or at the same time under an earlier name. -/
def PlanTag.newer (a b : PlanTag) : Bool :=
  decide (b.pushedAt < a.pushedAt) ||
    decide (a.pushedAt = b.pushedAt ∧ localeCompare a.name b.name = .lt)

def RetentionSettings.removesTag (policy : RetentionSettings) (rules : List TagRule) (now : Time)
    (tags : List PlanTag) (t : PlanTag) : Bool :=
  policy.hasTagRule &&
    rules.all (fun r => !(r.protected_ && matchTagGlob r.pattern t.name)) &&
    (parseKeepMatching policy.keepMatching).all (fun p => !matchTagGlob p t.name) &&
    policy.keepLast.all (fun n => decide (n ≤ tags.countP fun u => u.newer localeCompare t)) &&
    policy.deleteOlderThanDays.all (fun days : Nat => decide (days < ageDays t.pushedAt now))

def RetentionSettings.removesManifest (policy : RetentionSettings) (now : Time)
    (m : PlanManifest) : Bool :=
  policy.deleteUntaggedAfterDays.any (fun days : Nat => decide (days < ageDays m.pushedAt now)) &&
    !m.isChild && !m.isReferrer && !m.hasReferrers

def ToldApart (tags : List PlanTag) : Prop :=
  ∀ a ∈ tags, ∀ b ∈ tags, localeCompare a.name b.name = .eq → a.name = b.name

end policy

/-- A policy with limits raised that are set and with more patterns to keep. -/
structure RetentionSettings.Gentler (policy gentle : RetentionSettings) : Prop where
  keepLast : Option.Rel (· ≤ ·) policy.keepLast gentle.keepLast
  deleteOlderThanDays : Option.Rel (· ≤ ·) policy.deleteOlderThanDays gentle.deleteOlderThanDays
  deleteUntaggedAfterDays :
    Option.Rel (· ≤ ·) policy.deleteUntaggedAfterDays gentle.deleteUntaggedAfterDays
  keepMatching : parseKeepMatching policy.keepMatching ⊆ parseKeepMatching gentle.keepMatching

def PlanTag.entry (t : PlanTag) : String × Digest := (t.name, t.digest)

def PlannedTag.entry (t : PlannedTag) : String × Digest := (t.name, t.digest)

/-- The plan splits the tags and the untagged manifests as the policy says. -/
structure RetentionPlan.Splits (plan : RetentionPlan) (tags : List PlanTag)
    (untagged : List PlanManifest) (goes : PlanTag → Bool) (drops : PlanManifest → Bool) :
    Prop where
  removed : (plan.tags.map PlannedTag.entry).Perm ((tags.filter goes).map PlanTag.entry)
  kept : (plan.keptTags.map PlannedTag.entry).Perm
    ((tags.filter fun t => !goes t).map PlanTag.entry)
  removedManifests : plan.manifests.map (·.digest) = (untagged.filter drops).map (·.digest)
  keptManifests : plan.keptManifests.map (·.digest) =
    (untagged.filter fun m => !drops m).map (·.digest)

section fates

variable {policy : RetentionSettings} {rules : List TagRule} {now : Time}

theorem keepReason_isSome (fate : Fate) : fate.keepReason.isSome = !fate.deleteReason.isSome := by
  cases fate with
  | delete reason | keep reason => rfl

theorem find?_isNone {α : Type} (p : α → Bool) (l : List α) :
    (l.find? p).isNone = l.all fun a => !p a := by
  rw [Bool.eq_iff_iff]
  simp

theorem tagFate_isSome (policy : RetentionSettings) (rules : List TagRule) (now : Time)
    (recent : List String) (t : PlanTag) :
    (tagFate policy rules now recent t).deleteReason.isSome = (policy.hasTagRule &&
        rules.all (fun r => !(r.protected_ && matchTagGlob r.pattern t.name)) &&
        (parseKeepMatching policy.keepMatching).all (fun p => !matchTagGlob p t.name) &&
        !recent.contains t.name &&
        policy.deleteOlderThanDays.all (fun days : Nat => decide (days < ageDays t.pushedAt now))) := by
  have hrules : rules.all (fun r => !(r.protected_ && matchTagGlob r.pattern t.name)) =
      (protectedRule rules t.name).isNone := by
    unfold protectedRule Registryd.firstRule
    rw [find?_isNone]
  have hkeep : (parseKeepMatching policy.keepMatching).all (fun p => !matchTagGlob p t.name) =
      ((parseKeepMatching policy.keepMatching).find? fun p => matchTagGlob p t.name).isNone := by
    rw [find?_isNone]
  rw [hrules, hkeep]
  unfold tagFate
  rw [tagFlags_protected]
  cases protectedRule rules t.name with
  | some r => simp [Fate.deleteReason]
  | none =>
    cases (parseKeepMatching policy.keepMatching).find? fun p => matchTagGlob p t.name with
    | some keep => simp [Fate.deleteReason]
    | none =>
      cases htag : policy.hasTagRule with
      | false => simp [Fate.deleteReason]
      | true =>
        cases hrecent : recent.contains t.name with
        | true => simp [Fate.deleteReason]
        | false =>
          cases hdays : policy.deleteOlderThanDays with
          | none => simp [Fate.deleteReason]
          | some days =>
            by_cases hold : days < ageDays t.pushedAt now
            · simp [hold, Fate.deleteReason]
            · simp [hold, Fate.deleteReason]

/-- An untagged manifest goes where no other manifest needs it and it is too old. -/
theorem manifestFate_isSome (policy : RetentionSettings) (now : Time) (m : PlanManifest) :
    (manifestFate policy now m).deleteReason.isSome = policy.removesManifest now m := by
  unfold manifestFate RetentionSettings.removesManifest
  cases policy.deleteUntaggedAfterDays with
  | none => rfl
  | some days =>
    cases hchild : m.isChild with
    | true => simp [Fate.deleteReason]
    | false =>
      cases hreferrer : m.isReferrer with
      | true => simp [Fate.deleteReason]
      | false =>
        cases hhas : m.hasReferrers with
        | true => simp [Fate.deleteReason]
        | false =>
          by_cases hold : days < ageDays m.pushedAt now
          · simp [hold, Fate.deleteReason]
          · simp [hold, Fate.deleteReason]

end fates

section order

variable {localeCompare : String → String → Ordering} {tags : List PlanTag} {t u : PlanTag}

theorem newestFirst_iff (a b : PlanTag) : newestFirst localeCompare a b = true ↔
    b.pushedAt < a.pushedAt ∨
      a.pushedAt = b.pushedAt ∧ (localeCompare a.name b.name).isLE = true := by
  unfold newestFirst
  rw [Ordering.isLE_then_iff_or]
  simp only [compare_lt_iff_lt, compare_eq_iff_eq]
  rw [eq_comm]

variable [Std.TransCmp localeCompare]

theorem localeCompare_swap (localeCompare : String → String → Ordering)
    [Std.TransCmp localeCompare] (a b : String) : localeCompare a b = (localeCompare b a).swap :=
  Std.OrientedCmp.eq_swap

theorem newestFirst_total (a b : PlanTag) :
    (newestFirst localeCompare a b || newestFirst localeCompare b a) = true := by
  rw [Bool.or_eq_true, newestFirst_iff, newestFirst_iff]
  rcases Int.lt_trichotomy a.pushedAt b.pushedAt with h | h | h
  · exact .inr (.inl h)
  · have htotal : (localeCompare a.name b.name).isLE = true ∨
        (localeCompare b.name a.name).isLE = true := by
      rw [localeCompare_swap localeCompare b.name a.name]
      cases localeCompare a.name b.name <;> simp
    rcases htotal with hle | hle
    · exact .inl (.inr ⟨h, hle⟩)
    · exact .inr (.inr ⟨h.symm, hle⟩)
  · exact .inl (.inl h)

theorem newestFirst_trans (a b c : PlanTag) (hab : newestFirst localeCompare a b = true)
    (hbc : newestFirst localeCompare b c = true) : newestFirst localeCompare a c = true := by
  rw [newestFirst_iff] at hab hbc ⊢
  rcases hab with hab | ⟨hab, hnames⟩
  · rcases hbc with hbc | ⟨hbc, -⟩
    · exact .inl (Int.lt_trans hbc hab)
    · exact .inl (hbc ▸ hab)
  · rcases hbc with hbc | ⟨hbc, hlater⟩
    · exact .inl (hab ▸ hbc)
    · exact .inr ⟨hab.trans hbc, Std.TransCmp.isLE_trans hnames hlater⟩

/-- Sorting puts the tags in one order, as their names differ. -/
theorem newestFirst_orders (hapart : ToldApart localeCompare tags)
    (hnames : (tags.map (·.name)).Nodup) : Rank.Orders (newestFirst localeCompare) tags where
  total := newestFirst_total
  trans := newestFirst_trans
  antisymm := by
    intro a ha b hb hab hba
    rw [newestFirst_iff] at hab hba
    have hsame : localeCompare a.name b.name = .eq := by
      rcases hab with hab | ⟨htime, hab⟩
      · rcases hba with hba | ⟨htime, -⟩
        · exact absurd hab (Int.not_lt.mpr (Int.le_of_lt hba))
        · exact absurd hab (htime ▸ Int.lt_irrefl _)
      · rcases hba with hba | ⟨-, hba⟩
        · exact absurd hba (htime ▸ Int.lt_irrefl _)
        · exact Std.OrientedCmp.isLE_antisymm hab hba
    exact inj_on_of_nodup_map hnames ha hb (hapart a ha b hb hsame)

theorem rank_newestFirst (tags : List PlanTag) (t : PlanTag) :
    Rank.rank (newestFirst localeCompare) tags t =
      tags.countP fun u => u.newer localeCompare t := by
  refine countP_congr fun u _ => ?_
  have hname : ¬ (localeCompare t.name u.name).isLE = true ↔ localeCompare u.name t.name = .lt := by
    rw [localeCompare_swap localeCompare t.name u.name]
    cases localeCompare u.name t.name <;> simp
  rw [not_eq_true', ← not_eq_true, newestFirst_iff]
  unfold PlanTag.newer
  rw [Bool.or_eq_true, decide_eq_true_eq, decide_eq_true_eq, ← hname]
  rcases Int.lt_trichotomy t.pushedAt u.pushedAt with h | h | h
  · have hne : t.pushedAt ≠ u.pushedAt := Int.ne_of_lt h
    simp [h, hne, Int.not_lt.mpr (Int.le_of_lt h)]
  · simp [h]
  · have hne : t.pushedAt ≠ u.pushedAt := (Int.ne_of_lt h).symm
    simp [h, hne.symm, Int.not_lt.mpr (Int.le_of_lt h)]

end order

/-! ## The plan -/

section plan

variable {localeCompare : String → String → Ordering} {tags : List PlanTag}
  {untagged : List PlanManifest} {policy : RetentionSettings} {rules : List TagRule} {now : Time}

theorem entries_of_fates {α β γ : Type} (fate : α → Fate) (reason : Fate → Option String)
    (entry : α → String → β) (key : β → γ) (name : α → γ)
    (hkey : ∀ a r, key (entry a r) = name a) (l : List α) :
    ((l.map fun a => (a, fate a)).filterMap fun x => (reason x.2).map (entry x.1)).map key =
      (l.filter fun a => (reason (fate a)).isSome).map name := by
  induction l with
  | nil => rfl
  | cons a l ih =>
    rw [map_cons]
    cases hf : reason (fate a) with
    | none =>
      rw [filterMap_cons_none (by rw [hf]; rfl), filter_cons_of_neg (by simp [hf]), ih]
    | some r =>
      rw [filterMap_cons_some (b := entry a r) (by rw [hf]; rfl),
        filter_cons_of_pos (by simp [hf]), map_cons, map_cons, hkey, ih]

def recentNames (localeCompare : String → String → Ordering) (tags : List PlanTag)
    (keepLast : Option Nat) : List String :=
  match keepLast with
  | some n => ((tags.mergeSort (newestFirst localeCompare)).take n).map (·.name)
  | none => []

theorem recentNames_contains [Std.TransCmp localeCompare] (hapart : ToldApart localeCompare tags)
    (hnames : (tags.map (·.name)).Nodup) (keepLast : Option Nat) {t : PlanTag} (ht : t ∈ tags) :
    (!(recentNames localeCompare tags keepLast).contains t.name) =
      keepLast.all fun n => decide (n ≤ tags.countP fun u => u.newer localeCompare t) := by
  cases keepLast with
  | none => rfl
  | some n =>
    have horders := newestFirst_orders hapart hnames
    have htake := Rank.mem_take_mergeSort (n := n) horders hnames.of_map ht
    have hname : t.name ∈ recentNames localeCompare tags (some n) ↔
        t ∈ (tags.mergeSort (newestFirst localeCompare)).take n := by
      constructor
      · intro hmem
        obtain ⟨u, hu, hsame⟩ := mem_map.mp hmem
        have htags := (mergeSort_perm tags _).mem_iff.mp (mem_of_mem_take hu)
        rwa [← inj_on_of_nodup_map hnames htags ht hsame]
      · intro hmem
        exact mem_map_of_mem hmem
    rw [rank_newestFirst] at htake
    rw [Option.all_some, Bool.eq_iff_iff, not_eq_true', ← not_eq_true,
      contains_iff_mem, hname, htake, decide_eq_true_eq]
    omega

section decisions

variable [Std.TransCmp localeCompare] (hapart : ToldApart localeCompare tags)
  (hnames : (tags.map (·.name)).Nodup)

include hapart hnames

theorem tagFate_removes {t : PlanTag} (ht : t ∈ tags) :
    (tagFate policy rules now (recentNames localeCompare tags policy.keepLast) t).deleteReason.isSome =
      policy.removesTag localeCompare rules now tags t := by
  rw [tagFate_isSome, recentNames_contains hapart hnames policy.keepLast ht]
  rfl

theorem planRetention_removed :
    (planRetention localeCompare tags untagged policy rules now).tags.map PlannedTag.entry =
      ((tags.mergeSort (newestFirst localeCompare)).filter
        (policy.removesTag localeCompare rules now tags)).map PlanTag.entry := by
  have hloop := entries_of_fates
    (tagFate policy rules now (recentNames localeCompare tags policy.keepLast)) Fate.deleteReason
    (fun t reason => (⟨t.name, t.digest, reason⟩ : PlannedTag)) PlannedTag.entry PlanTag.entry
    (fun _ _ => rfl) (tags.mergeSort (newestFirst localeCompare))
  rw [filter_congr fun t ht => tagFate_removes hapart hnames
    ((mergeSort_perm tags _).mem_iff.mp ht)] at hloop
  exact hloop

theorem planRetention_kept :
    (planRetention localeCompare tags untagged policy rules now).keptTags.map PlannedTag.entry =
      ((tags.mergeSort (newestFirst localeCompare)).filter fun t =>
        !policy.removesTag localeCompare rules now tags t).map PlanTag.entry := by
  have hloop := entries_of_fates
    (tagFate policy rules now (recentNames localeCompare tags policy.keepLast)) Fate.keepReason
    (fun t reason => (⟨t.name, t.digest, reason⟩ : PlannedTag)) PlannedTag.entry PlanTag.entry
    (fun _ _ => rfl) (tags.mergeSort (newestFirst localeCompare))
  have hkept (t : PlanTag) (ht : t ∈ tags.mergeSort (newestFirst localeCompare)) :
      (tagFate policy rules now (recentNames localeCompare tags policy.keepLast) t).keepReason.isSome =
        !policy.removesTag localeCompare rules now tags t := by
    rw [keepReason_isSome, tagFate_removes hapart hnames ((mergeSort_perm tags _).mem_iff.mp ht)]
  rw [filter_congr hkept] at hloop
  exact hloop

end decisions

theorem planRetention_manifests :
    (planRetention localeCompare tags untagged policy rules now).manifests.map (·.digest) =
      (untagged.filter (policy.removesManifest now)).map (·.digest) := by
  have hloop := entries_of_fates (manifestFate policy now) Fate.deleteReason
    (fun m reason => (⟨m.digest, reason⟩ : PlannedDigest)) PlannedDigest.digest PlanManifest.digest
    (fun _ _ => rfl) untagged
  rw [filter_congr fun m _ => manifestFate_isSome policy now m] at hloop
  exact hloop

theorem planRetention_keptManifests :
    (planRetention localeCompare tags untagged policy rules now).keptManifests.map (·.digest) =
      (untagged.filter fun m => !policy.removesManifest now m).map (·.digest) := by
  have hloop := entries_of_fates (manifestFate policy now) Fate.keepReason
    (fun m reason => (⟨m.digest, reason⟩ : PlannedDigest)) PlannedDigest.digest PlanManifest.digest
    (fun _ _ => rfl) untagged
  have hkept (m : PlanManifest) (_ : m ∈ untagged) :
      (manifestFate policy now m).keepReason.isSome = !policy.removesManifest now m := by
    rw [keepReason_isSome, manifestFate_isSome]
  rw [filter_congr hkept] at hloop
  exact hloop

/-! ## More generous policies -/

section gentler

variable {gentle : RetentionSettings} {more : List TagRule}

section

variable {o o' : Option Nat} {p : Nat → Bool} (h : Option.Rel (· ≤ ·) o o')
  (hp : ∀ m n, m ≤ n → p n = true → p m = true)
include h hp

theorem all_of_raised (hall : o'.all p = true) : o.all p = true := by
  cases h with
  | none => rfl
  | some hle => exact hp _ _ hle hall

theorem any_of_raised (hany : o'.any p = true) : o.any p = true := by
  cases h with
  | none => exact hany
  | some hle => exact hp _ _ hle hany

end

theorem isSome_of_raised {o o' : Option Nat} (h : Option.Rel (· ≤ ·) o o') :
    o.isSome = o'.isSome := by
  cases h with
  | none | some hle => rfl

theorem older_of_raised (age : Int) (m n : Nat) (hle : m ≤ n)
    (hold : decide ((n : Int) < age) = true) : decide ((m : Int) < age) = true := by
  rw [decide_eq_true_eq] at hold ⊢
  omega

theorem removesTag_gentler (h : policy.Gentler gentle)
    (hrules : ∀ r ∈ rules, r.protected_ = true → r ∈ more) {t : PlanTag}
    (hgoes : gentle.removesTag localeCompare more now tags t = true) :
    policy.removesTag localeCompare rules now tags t = true := by
  unfold RetentionSettings.removesTag RetentionSettings.hasTagRule at hgoes ⊢
  simp only [and_eq_true] at hgoes ⊢
  obtain ⟨⟨⟨⟨hset, hfree⟩, hpatterns⟩, hrank⟩, hold⟩ := hgoes
  refine ⟨⟨⟨⟨?_, ?_⟩, ?_⟩, ?_⟩, ?_⟩
  · rw [isSome_of_raised h.keepLast, isSome_of_raised h.deleteOlderThanDays]
    exact hset
  · rw [all_eq_true] at hfree ⊢
    intro r hr
    cases hprotected : r.protected_ with
    | false => rfl
    | true =>
      have hmore := hfree r (hrules r hr hprotected)
      rwa [hprotected] at hmore
  · rw [all_eq_true] at hpatterns ⊢
    intro p hp
    exact hpatterns p (h.keepMatching hp)
  · refine all_of_raised h.keepLast (fun m n hle hn => ?_) hrank
    rw [decide_eq_true_eq] at hn ⊢
    omega
  · exact all_of_raised h.deleteOlderThanDays (older_of_raised _) hold

theorem removesManifest_gentler (h : policy.Gentler gentle) {m : PlanManifest}
    (hgoes : gentle.removesManifest now m = true) : policy.removesManifest now m = true := by
  unfold RetentionSettings.removesManifest at hgoes ⊢
  simp only [and_eq_true] at hgoes ⊢
  obtain ⟨⟨⟨hold, hchild⟩, hreferrer⟩, hhas⟩ := hgoes
  exact ⟨⟨⟨any_of_raised h.deleteUntaggedAfterDays (older_of_raised _) hold, hchild⟩, hreferrer⟩,
    hhas⟩

end gentler

end plan

variable {localeCompare : String → String → Ordering}

theorem perm_of_sorted {tags : List PlanTag} {entries : List PlannedTag} {goes : PlanTag → Bool}
    (h : entries.map PlannedTag.entry =
      ((tags.mergeSort (newestFirst localeCompare)).filter goes).map PlanTag.entry) :
    (entries.map PlannedTag.entry).Perm ((tags.filter goes).map PlanTag.entry) := by
  rw [h]
  exact ((mergeSort_perm tags _).filter goes).map _

/-- **A retention plan is the documented policy**: it splits the tags and the untagged manifests
as the policy says, whatever the order they are listed in, and a policy with higher limits,
more patterns to keep or more protected rules removes nothing else. -/
theorem planRetention_exact (localeCompare : String → String → Ordering)
    [Std.TransCmp localeCompare] (tags : List PlanTag) (untagged : List PlanManifest)
    (policy : RetentionSettings) (rules : List TagRule) (now : Time)
    (hnames : (tags.map (·.name)).Nodup) (hapart : ToldApart localeCompare tags) :
    (planRetention localeCompare tags untagged policy rules now).Splits tags untagged
        (policy.removesTag localeCompare rules now tags) (policy.removesManifest now) ∧
      (∀ (tags' : List PlanTag) (untagged' : List PlanManifest), tags'.Perm tags →
        untagged'.Perm untagged →
        (planRetention localeCompare tags' untagged' policy rules now).tags =
            (planRetention localeCompare tags untagged policy rules now).tags ∧
          (planRetention localeCompare tags' untagged' policy rules now).keptTags =
            (planRetention localeCompare tags untagged policy rules now).keptTags ∧
          (planRetention localeCompare tags' untagged' policy rules now).manifests.Perm
            (planRetention localeCompare tags untagged policy rules now).manifests ∧
          (planRetention localeCompare tags' untagged' policy rules now).keptManifests.Perm
            (planRetention localeCompare tags untagged policy rules now).keptManifests) ∧
      ∀ (gentle : RetentionSettings) (more : List TagRule), policy.Gentler gentle →
        (∀ r ∈ rules, r.protected_ = true → r ∈ more) →
        ((planRetention localeCompare tags untagged gentle more now).tags.map
            PlannedTag.entry).Sublist
          ((planRetention localeCompare tags untagged policy rules now).tags.map
            PlannedTag.entry) ∧
        ((planRetention localeCompare tags untagged gentle more now).manifests.map
            (·.digest)).Sublist
          ((planRetention localeCompare tags untagged policy rules now).manifests.map
            (·.digest)) := by
  refine ⟨⟨?_, ?_, planRetention_manifests, planRetention_keptManifests⟩, ?_, ?_⟩
  · exact perm_of_sorted (planRetention_removed hapart hnames)
  · exact perm_of_sorted (planRetention_kept hapart hnames)
  · intro tags' untagged' htags huntagged
    have hsorted : tags'.mergeSort (newestFirst localeCompare) =
        tags.mergeSort (newestFirst localeCompare) :=
      Rank.mergeSort_perm_eq (newestFirst_orders hapart hnames) htags
    unfold planRetention
    rw [hsorted]
    exact ⟨rfl, rfl, (huntagged.map _).filterMap _, (huntagged.map _).filterMap _⟩
  · intro gentle more hgentle hrules
    rw [planRetention_removed hapart hnames, planRetention_removed hapart hnames,
      planRetention_manifests, planRetention_manifests]
    constructor
    · exact (monotone_filter_right _ fun t => removesTag_gentler hgentle hrules).map _
    · exact (monotone_filter_right _ fun m => removesManifest_gentler hgentle).map _

/-- Two tags of the same push, a newer one, a protected one and one that a pattern keeps. -/
def someTags : List PlanTag :=
  [⟨"1.0", "sha256:a", 0⟩, ⟨"1.1", "sha256:b", 0⟩, ⟨"edge", "sha256:c", 86400000⟩,
    ⟨"v1", "sha256:d", 0⟩, ⟨"latest", "sha256:b", 0⟩]

theorem planRetention_exact_ties : ((planRetention compare someTags []
    { keepLast := some 2, keepMatching := some "late*, stable", deleteOlderThanDays := some 6 }
        [⟨"v?", false, true, none⟩] (7 * 86400000)).tags.map PlannedTag.entry).Perm
      [("1.1", "sha256:b")] := by
  have hapart : ToldApart compare someTags := by
    intro a _ b _ heq
    exact Std.LawfulEqCmp.eq_of_compare heq
  have hexact := planRetention_exact compare someTags []
    { keepLast := some 2, keepMatching := some "late*, stable", deleteOlderThanDays := some 6 }
    [⟨"v?", false, true, none⟩] (7 * 86400000) (by decide) hapart
  have hgoes : (someTags.filter (RetentionSettings.removesTag compare
      { keepLast := some 2, keepMatching := some "late*, stable", deleteOlderThanDays := some 6 }
      [⟨"v?", false, true, none⟩] (7 * 86400000) someTags)).map PlanTag.entry =
      [("1.1", "sha256:b")] := by
    decide +kernel
  rw [← hgoes]
  exact hexact.1.removed

/-! ## Loose manifests

The `prune-untagged` job and the untagged rule of a retention policy look for manifests that
nothing needs any more. A signature or another artifact has no tag and no index lists it: its
subject needs it. The rule asks for the subject, the job does not. -/

open Registryd (Digest RepoId Time TagRule)

namespace Tables

def HasSubject (s : Tables) (m : ManifestRow) : Prop :=
  ∃ x ∈ s.manifests, x.repositoryId = m.repositoryId ∧ m.subjectDigest = some x.digest

/-- The manifest is attached to one that is there, an index lists it or a tag names it. -/
def Live (s : Tables) (m : ManifestRow) : Prop :=
  s.HasSubject m ∨
    (∃ r ∈ s.manifestRefs, r.repositoryId = m.repositoryId ∧ r.refDigest = m.digest) ∨
    ∃ t ∈ s.tags, t.repositoryId = m.repositoryId ∧ t.manifestDigest = m.digest

/-- Of the manifests that are gone, none is live among what remains. -/
def BreaksNothing (s s' : Tables) : Prop :=
  ∀ m ∈ s.manifests, m ∉ s'.manifests → ¬ s'.Live m

/-- What is gone is what the untagged rule deletes of the same state as well, once it is older
than the rule asks for. -/
def AsTheRule (s s' : Tables) : Prop :=
  ∀ m ∈ s.manifests, m ∉ s'.manifests →
    ∀ (localeCompare : String → String → Ordering) (tags : List PlanTag)
      (policy : RetentionSettings) (rules : List TagRule) (now : Time) (days : Nat),
      policy.deleteUntaggedAfterDays = some days → days < ageDays m.createdAt now →
      m.digest ∈ (planRetention localeCompare tags (s.untaggedManifests m.repositoryId) policy
        rules now).manifests.map (·.digest)

/-- The manifest is not older than the cutoff, a tag names it, or an index lists it. -/
def Holds (s : Tables) (cutoff : Time) (m : ManifestRow) : Prop :=
  cutoff ≤ m.createdAt ∨
    (∃ t ∈ s.tags, t.repositoryId = m.repositoryId ∧ t.manifestDigest = m.digest) ∨
    ∃ r ∈ s.manifestRefs, r.repositoryId = m.repositoryId ∧ r.refDigest = m.digest

/-- Where one manifest is attached to another of its repository, each of the two is held by
something else than the attachment. -/
def AttachmentsHeld (s : Tables) (cutoff : Time) : Prop :=
  ∀ m ∈ s.manifests, ∀ x ∈ s.manifests, x.repositoryId = m.repositoryId →
    m.subjectDigest = some x.digest → s.Holds cutoff m ∧ s.Holds cutoff x

section

variable {s : Tables} {cutoff : Time} {m : ManifestRow}

theorem loose_iff : s.loose cutoff m = true ↔ m.createdAt < cutoff ∧
    (∀ t ∈ s.tags, ¬ (t.repositoryId = m.repositoryId ∧ t.manifestDigest = m.digest)) ∧
    ∀ r ∈ s.manifestRefs, ¬ (r.repositoryId = m.repositoryId ∧ r.refDigest = m.digest) := by
  unfold loose tagsForDigest
  simp only [and_eq_true, decide_eq_true_eq, List.isEmpty_iff, map_eq_nil_iff,
    filter_eq_nil_iff, not_eq_true', any_eq_false, and_assoc]

theorem loose_eq_false : s.loose cutoff m = false ↔ s.Holds cutoff m := by
  rw [← not_eq_true, loose_iff, Holds, not_and_or, not_and_or, Int.not_lt]
  simp only [not_forall, not_not, exists_prop]

theorem mem_pruneUntagged : m ∈ (s.pruneUntagged cutoff).manifests ↔
    m ∈ s.manifests ∧ s.loose cutoff m = false := by
  simp [pruneUntagged]

theorem live_pruneUntagged (hloose : s.loose cutoff m = true) :
    (s.pruneUntagged cutoff).Live m ↔ (s.pruneUntagged cutoff).HasSubject m := by
  obtain ⟨-, htags, hrefs⟩ := loose_iff.mp hloose
  constructor
  · rintro (hsubject | ⟨r, hr, hlists⟩ | ⟨t, ht, hnames⟩)
    · exact hsubject
    · exact absurd hlists (hrefs r (mem_filter.mp hr).1)
    · exact absurd hnames (htags t (mem_tags_pruneUntagged.mp ht))
  · exact .inl

theorem gone_iff (hm : m ∈ s.manifests) :
    m ∉ (s.pruneUntagged cutoff).manifests ↔ s.loose cutoff m = true := by
  rw [mem_pruneUntagged, not_and, Bool.not_eq_false]
  exact ⟨fun h => h hm, fun h _ => h⟩

/-- The entry of a loose manifest in what the untagged rule reads. -/
theorem mem_untaggedManifests {repo : RepoId} {p : PlanManifest} :
    p ∈ s.untaggedManifests repo ↔ ∃ m ∈ s.manifests, m.repositoryId = repo ∧
      (∀ t ∈ s.tags, ¬ (t.repositoryId = repo ∧ t.manifestDigest = m.digest)) ∧
      p = { digest := m.digest
            pushedAt := m.createdAt
            isChild := s.manifestRefs.any
              fun r => decide (r.repositoryId = repo ∧ r.refDigest = m.digest)
            isReferrer := match m.subjectDigest with
              | none => false
              | some d => s.manifestExists repo d
            hasReferrers := s.manifests.any
              fun x => decide (x.repositoryId = repo ∧ x.subjectDigest = some m.digest) } := by
  unfold untaggedManifests
  simp only [mem_map, mem_mergeSort, mem_filter, and_eq_true, decide_eq_true_eq,
    List.isEmpty_iff, tagsForDigest, map_eq_nil_iff, filter_eq_nil_iff]
  constructor
  · rintro ⟨m, ⟨hm, rfl, htags⟩, rfl⟩
    exact ⟨m, hm, rfl, htags, rfl⟩
  · rintro ⟨m, hm, rfl, htags, rfl⟩
    exact ⟨m, ⟨hm, rfl, htags⟩, rfl⟩

/-- Where attachments are held, nothing that goes has a subject or something attached. -/
theorem AttachmentsHeld.alone (h : s.AttachmentsHeld cutoff) (hm : m ∈ s.manifests)
    (hloose : s.loose cutoff m = true) {x : ManifestRow} (hx : x ∈ s.manifests)
    (hrepo : x.repositoryId = m.repositoryId) :
    m.subjectDigest ≠ some x.digest ∧ x.subjectDigest ≠ some m.digest := by
  have hnot : ¬ s.Holds cutoff m := by
    rw [← loose_eq_false, hloose]
    simp
  constructor
  · intro hsubject
    exact hnot (h m hm x hx hrepo hsubject).1
  · intro hsubject
    exact hnot (h x hx m hm hrepo.symm hsubject).2

theorem AttachmentsHeld.breaksNothing (h : s.AttachmentsHeld cutoff) :
    s.BreaksNothing (s.pruneUntagged cutoff) := by
  intro m hm hgone hlive
  have hloose := (gone_iff hm).mp hgone
  obtain ⟨x, hx, hrepo, hsubject⟩ := (live_pruneUntagged hloose).mp hlive
  exact (h.alone hm hloose (mem_pruneUntagged.mp hx).1 hrepo).1 hsubject

theorem AttachmentsHeld.asTheRule (h : s.AttachmentsHeld cutoff) :
    s.AsTheRule (s.pruneUntagged cutoff) := by
  intro m hm hgone localeCompare tags policy rules now days hdays hold
  have hloose := (gone_iff hm).mp hgone
  obtain ⟨-, htags, hrefs⟩ := loose_iff.mp hloose
  rw [planRetention_manifests]
  refine mem_map.mpr ⟨_, mem_filter.mpr
    ⟨mem_untaggedManifests.mpr ⟨m, hm, rfl, htags, rfl⟩, ?_⟩, rfl⟩
  unfold RetentionSettings.removesManifest
  simp only [hdays, Option.any_some, and_eq_true, not_eq_true', decide_eq_true_eq]
  refine ⟨⟨⟨hold, ?_⟩, ?_⟩, ?_⟩
  · rw [any_eq_false]
    exact fun r hr hlists => hrefs r hr (of_decide_eq_true hlists)
  · cases hsubject : m.subjectDigest with
    | none => rfl
    | some d =>
      show s.manifestExists m.repositoryId d = false
      rw [← not_eq_true]
      intro hexists
      obtain ⟨x, hx, hthis⟩ := any_eq_true.mp hexists
      obtain ⟨hrepo, rfl⟩ := of_decide_eq_true hthis
      exact (h.alone hm hloose hx hrepo).1 hsubject
  · rw [any_eq_false]
    intro x hx hthis
    obtain ⟨hrepo, hsubject⟩ := of_decide_eq_true hthis
    exact (h.alone hm hloose hx hrepo).2 hsubject

/-- What the job takes of an attachment, at either end, the rule keeps. -/
theorem attachmentsHeld_of_asTheRule
    (hkeys : Table.Keyed (fun m : ManifestRow => (m.repositoryId, m.digest)) s.manifests)
    (h : s.AsTheRule (s.pruneUntagged cutoff)) : s.AttachmentsHeld cutoff := by
  have hdeletes (m : ManifestRow) (hm : m ∈ s.manifests) (hloose : s.loose cutoff m = true) :
      ∀ x ∈ s.manifests, x.repositoryId = m.repositoryId →
        m.subjectDigest ≠ some x.digest ∧ x.subjectDigest ≠ some m.digest := by
    -- a rule that asks for no age, a day later
    have hage : ((0 : Nat) : Int) < ageDays m.createdAt (m.createdAt + 86400000) := by
      have hday (t : Int) : t + 86400000 - t = 86400000 := by omega
      unfold ageDays
      rw [hday]
      decide
    have hrule := h m hm ((gone_iff hm).mpr hloose) compare []
      { deleteUntaggedAfterDays := some 0 } [] _ 0 rfl hage
    rw [planRetention_manifests] at hrule
    obtain ⟨p, hp, hd⟩ := mem_map.mp hrule
    obtain ⟨hread, hgoes⟩ := mem_filter.mp hp
    obtain ⟨m', hm', hrepo', -, rfl⟩ := mem_untaggedManifests.mp hread
    obtain rfl := hkeys.eq_of_key hm' hm (Prod.ext hrepo' hd)
    unfold RetentionSettings.removesManifest at hgoes
    simp only [and_eq_true, not_eq_true'] at hgoes
    obtain ⟨⟨-, hreferrer⟩, hhas⟩ := hgoes
    intro x hx hrepo
    constructor
    · intro hsubject
      have hexists : s.manifestExists m'.repositoryId x.digest = true :=
        any_eq_true.mpr ⟨x, hx, decide_eq_true ⟨hrepo, rfl⟩⟩
      simp only [hsubject, hexists] at hreferrer
      cases hreferrer
    · intro hsubject
      rw [any_eq_false] at hhas
      exact hhas x hx (decide_eq_true ⟨hrepo, hsubject⟩)
  intro m hm x hx hrepo hsubject
  rw [← loose_eq_false, ← loose_eq_false, ← not_eq_true, ← not_eq_true]
  constructor
  · intro hloose
    exact (hdeletes m hm hloose x hx hrepo).1 hsubject
  · intro hloose
    exact (hdeletes x hx hloose m hm hrepo.symm).2 hsubject

theorem planRetention_loose {repo : RepoId} {tags : List PlanTag} {policy : RetentionSettings}
    {rules : List TagRule} {now : Time} {d : Digest}
    (hd : d ∈ (planRetention localeCompare tags (s.untaggedManifests repo) policy rules
      now).manifests.map (·.digest)) :
    ∃ m ∈ s.manifests, m.repositoryId = repo ∧ m.digest = d ∧ ¬ s.Live m := by
  rw [planRetention_manifests] at hd
  obtain ⟨p, hp, rfl⟩ := mem_map.mp hd
  obtain ⟨hread, hgoes⟩ := mem_filter.mp hp
  unfold RetentionSettings.removesManifest at hgoes
  simp only [and_eq_true, not_eq_true'] at hgoes
  obtain ⟨⟨⟨-, hchild⟩, hreferrer⟩, -⟩ := hgoes
  obtain ⟨m, hm, rfl⟩ := mem_map.mp hread
  rw [mem_mergeSort] at hm
  obtain ⟨hmem, hrow⟩ := mem_filter.mp hm
  rw [and_eq_true, decide_eq_true_eq, List.isEmpty_iff] at hrow
  obtain ⟨rfl, huntagged⟩ := hrow
  refine ⟨m, hmem, rfl, rfl, ?_⟩
  rintro (⟨x, hx, hrepo, hsubject⟩ | ⟨r, hr, hlists⟩ | ⟨t, ht, hrepo, hnames⟩)
  · have hexists : s.manifestExists m.repositoryId x.digest = true :=
      any_eq_true.mpr ⟨x, hx, decide_eq_true ⟨hrepo, rfl⟩⟩
    simp only [hsubject, hexists] at hreferrer
    cases hreferrer
  · rw [any_eq_false] at hchild
    exact hchild r hr (decide_eq_true hlists)
  · have htag := mem_tagsForDigest ht
    rw [hrepo, hnames, huntagged] at htag
    cases htag

end

end Tables

/-- The `prune-untagged` job breaks nothing and deletes what the untagged rule would, exactly
where an attachment is not all that holds the two manifests it joins; and the rule never
deletes a manifest that is live. -/
theorem prune_untagged_breaksNothing_iff (s : Tables) (cutoff : Time)
    (hkeys : Table.Keyed (fun m : ManifestRow => (m.repositoryId, m.digest)) s.manifests) :
    (s.BreaksNothing (s.pruneUntagged cutoff) ∧ s.AsTheRule (s.pruneUntagged cutoff) ↔
      s.AttachmentsHeld cutoff) ∧
    ∀ (localeCompare : String → String → Ordering) (repo : RepoId) (tags : List PlanTag)
      (policy : RetentionSettings) (rules : List TagRule) (now : Time) (d : Digest),
      d ∈ (planRetention localeCompare tags (s.untaggedManifests repo) policy rules
        now).manifests.map (·.digest) →
      ∃ m ∈ s.manifests, m.repositoryId = repo ∧ m.digest = d ∧ ¬ s.Live m := by
  refine ⟨⟨fun h => Tables.attachmentsHeld_of_asTheRule hkeys h.2,
    fun h => ⟨h.breaksNothing, h.asTheRule⟩⟩, ?_⟩
  intro _ _ _ _ _ _ _ hd
  exact Tables.planRetention_loose hd

/-- An image and its signature under tags of their own, beside an image that nothing needs. -/
def cosignedImage : Tables where
  manifests := [⟨"r1", "sha256:a", none, 0⟩, ⟨"r1", "sha256:s", some "sha256:a", 1⟩,
    ⟨"r1", "sha256:o", none, 2⟩]
  tags := [⟨"r1", "v1", "sha256:a", 0, 0, none⟩, ⟨"r1", "sha256-a.sig", "sha256:s", 1, 1, none⟩]

theorem prune_untagged_breaksNothing_cosigned :
    (cosignedImage.pruneUntagged 1000).manifests.map (·.digest) = ["sha256:a", "sha256:s"] ∧
      cosignedImage.BreaksNothing (cosignedImage.pruneUntagged 1000) ∧
      cosignedImage.AsTheRule (cosignedImage.pruneUntagged 1000) := by
  refine ⟨by decide, (prune_untagged_breaksNothing_iff cosignedImage 1000 (by decide)).1.mpr ?_⟩
  intro m hm x hx _ hsubject
  simp only [cosignedImage, mem_cons, not_mem_nil, or_false] at hm hx
  obtain rfl | rfl | rfl := hm
  · cases hsubject
  · obtain rfl | rfl | rfl := hx
    · exact ⟨.inr (.inl ⟨_, mem_cons_of_mem _ mem_cons_self, rfl, rfl⟩),
        .inr (.inl ⟨_, mem_cons_self, rfl, rfl⟩)⟩
    · exact absurd hsubject (by decide)
    · exact absurd hsubject (by decide)
  · cases hsubject

def signedImage : Tables where
  manifests := [⟨"r1", "sha256:a", none, 0⟩, ⟨"r1", "sha256:s", some "sha256:a", 1⟩]
  tags := [⟨"r1", "v1", "sha256:a", 0, 0, none⟩]

theorem prune_untagged_breaks_signature :
    ¬ ∀ (s : Tables) (cutoff : Time),
      Table.Keyed (fun m : ManifestRow => (m.repositoryId, m.digest)) s.manifests →
        s.BreaksNothing (s.pruneUntagged cutoff) := by
  intro hall
  have hgone : (⟨"r1", "sha256:s", some "sha256:a", 1⟩ : ManifestRow) ∉
      (signedImage.pruneUntagged 1000).manifests := by
    decide
  have hsubject : (signedImage.pruneUntagged 1000).HasSubject
      ⟨"r1", "sha256:s", some "sha256:a", 1⟩ :=
    ⟨⟨"r1", "sha256:a", none, 0⟩, by decide, rfl, rfl⟩
  exact hall signedImage 1000 (by decide) _ (by decide) hgone (.inl hsubject)

end Chicoree.Images
