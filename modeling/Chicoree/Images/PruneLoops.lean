import Chicoree.Images.Retention
import Chicoree.Lib.Folds

/-! # What the removal of a manifest does to a plan

One call of `removeManifest` with everything it calls: which manifests can go, what is left
of the picture, and that the calls end where no chain of subjects closes on itself. -/

namespace Chicoree.Images

open Option
open List
open Registryd (Digest RepoId)
open Folds (foldlM_rule foldlM_keeps foldlM_total)

/-! ## The picture by its keys -/

/-- A repository is in the scope once, and a manifest and the name of a tag in their
repository. -/
structure ScopeKeys (repos : List ScopeRepository) : Prop where
  ids : (repos.map (·.id)).Nodup
  digests : ∀ r ∈ repos, (r.manifests.map (·.digest)).Nodup
  tags : ∀ r ∈ repos, (r.tags.map (·.name)).Nodup

variable {repos : List ScopeRepository} {repo : ScopeRepository}

theorem findScope_of_mem (hkeys : ScopeKeys repos) (hrepo : repo ∈ repos) :
    findScope repos repo.id = some repo := by
  obtain ⟨found, hfound⟩ : ∃ found, findScope repos repo.id = some found := by
    have hsome : (findScope repos repo.id).isSome := by
      rw [findScope, find?_isSome]
      exact ⟨repo, hrepo, by simp⟩
    exact isSome_iff_exists.mp hsome
  have hid : found.id = repo.id := by simpa using find?_some hfound
  have hmem : found ∈ repos := mem_of_find?_eq_some hfound
  rw [hfound, inj_on_of_nodup_map hkeys.ids hmem hrepo hid]

theorem repo_eq_of_id (hkeys : ScopeKeys repos) {r : ScopeRepository} (hrepo : repo ∈ repos)
    (hr : r ∈ repos) (hid : r.id = repo.id) : r = repo :=
  inj_on_of_nodup_map hkeys.ids hr hrepo hid

theorem scopeManifests_of_mem (hkeys : ScopeKeys repos) (hrepo : repo ∈ repos) :
    scopeManifests repos repo.id = repo.manifests := by
  rw [scopeManifests, findScope_of_mem hkeys hrepo]
  rfl

variable {d : Digest} {m : ScopeManifest}

theorem manifestOf_eq_some (hkeys : ScopeKeys repos) (hrepo : repo ∈ repos) :
    manifestOf repos repo.id d = some m ↔ m ∈ repo.manifests ∧ m.digest = d := by
  rw [manifestOf, scopeManifests_of_mem hkeys hrepo]
  constructor
  · intro h
    exact ⟨mem_of_find?_eq_some h, by simpa using find?_some h⟩
  · rintro ⟨hm, rfl⟩
    obtain ⟨x, hx⟩ : ∃ x, repo.manifests.find? (fun x => decide (x.digest = m.digest)) = some x :=
      isSome_iff_exists.mp (find?_isSome.mpr ⟨m, hm, by simp⟩)
    have hdigest : x.digest = m.digest := by simpa using find?_some hx
    rw [hx, inj_on_of_nodup_map (hkeys.digests repo hrepo) (mem_of_find?_eq_some hx)
      hm hdigest]

theorem mem_startPruning_live (hrepo : repo ∈ repos) (hm : m ∈ repo.manifests) :
    (repo.id, m.digest) ∈ (startPruning repos).live := by
  simp only [startPruning, mem_flatMap, List.mem_map]
  exact ⟨repo, hrepo, m, hm, rfl⟩

namespace Pruning

variable {st : Pruning}

theorem isLive_iff {id : RepoId} : st.isLive id d = true ↔ (id, d) ∈ st.live := by
  simp [isLive]

section

variable {d : Digest} (hkeys : ScopeKeys repos) (hrepo : repo ∈ repos)
include hkeys hrepo

theorem mem_tagsOf {t : PlanTag} :
    t ∈ st.tagsOf repos repo.id d ↔
      t ∈ repo.tags ∧ t.digest = d ∧ (repo.id, t.name) ∉ st.removedTags := by
  simp [tagsOf, findScope_of_mem hkeys hrepo]

theorem mem_liveParents {p : ScopeManifest} :
    p ∈ st.liveParents repos repo.id d ↔
      p ∈ repo.manifests ∧ (repo.id, p.digest) ∈ st.live ∧ d ∈ p.children := by
  simp [liveParents, scopeManifests_of_mem hkeys hrepo, isLive]

theorem mem_liveReferrers {r : ScopeManifest} :
    r ∈ st.liveReferrers repos repo.id d ↔
      r ∈ repo.manifests ∧ (repo.id, r.digest) ∈ st.live ∧ r.subjectDigest = some d := by
  simp [liveReferrers, scopeManifests_of_mem hkeys hrepo, isLive]

end

/-- Nothing came back, and no tag was taken meanwhile. -/
structure Later (st st' : Pruning) : Prop where
  sub : st'.live.Sublist st.live
  tags : st'.removedTags = st.removedTags

theorem Later.refl (st : Pruning) : Later st st := ⟨List.Sublist.refl st.live, rfl⟩

theorem Later.trans {a b c : Pruning} (hab : Later a b) (hbc : Later b c) : Later a c :=
  ⟨hbc.sub.trans hab.sub, hbc.tags.trans hab.tags⟩

variable {st' : Pruning}

theorem Later.live (h : Later st st') : ∀ l ∈ st'.live, l ∈ st.live :=
  fun _ hl => h.sub.subset hl

theorem mem_drop_live {reason : String} {l : RepoId × Digest} :
    l ∈ (st.drop repo m reason).live ↔ l ∈ st.live ∧ l ≠ (repo.id, m.digest) := by
  simp [drop]

@[simp] theorem drop_removedTags (st : Pruning) (m : ScopeManifest) (reason : String) :
    (st.drop repo m reason).removedTags = st.removedTags := rfl

@[simp] theorem drop_steps (st : Pruning) (m : ScopeManifest) (reason : String) :
    (st.drop repo m reason).steps =
      st.steps ++ [⟨repo.id, repo.path, .manifest, m.digest, reason⟩] := rfl

theorem later_drop (st : Pruning) (m : ScopeManifest) (reason : String) :
    Later st (st.drop repo m reason) :=
  ⟨filter_sublist, rfl⟩

theorem Later.tagsOf (h : Later st st') (id : RepoId) (d : Digest) :
    st'.tagsOf repos id d = st.tagsOf repos id d := by
  unfold Pruning.tagsOf
  rw [h.tags]

theorem Later.noParents (hkeys : ScopeKeys repos) (hrepo : repo ∈ repos)
    (h : Later st st') (hno : st.liveParents repos repo.id d = []) :
    st'.liveParents repos repo.id d = [] := by
  rw [eq_nil_iff_forall_not_mem] at hno ⊢
  intro p hp
  obtain ⟨hp, hlive, hchild⟩ := (mem_liveParents hkeys hrepo).mp hp
  exact hno p ((mem_liveParents hkeys hrepo).mpr ⟨hp, h.live _ hlive, hchild⟩)

end Pruning

open Pruning (Later mem_liveParents mem_liveReferrers mem_tagsOf mem_drop_live later_drop)

/-! ## One call -/

def attachedTo (d : Digest) : String := "attached to " ++ shortHex d ++ ", which is removed"

def variantOf (d : Digest) : String := "variant of " ++ shortHex d ++ ", which is removed"

def removeChild (repos : List ScopeRepository) (fuel : Nat) (repo : ScopeRepository) (d : Digest)
    (st : Pruning) (child : Digest) : Option Pruning :=
  if !st.isLive repo.id child || !(st.liveParents repos repo.id child).isEmpty ||
      !(st.tagsOf repos repo.id child).isEmpty then some st
  else removeManifest repos fuel st repo child (variantOf d)

theorem removeManifest_succ (fuel : Nat) (st : Pruning) (repo : ScopeRepository) (d : Digest)
    (reason : String) :
    removeManifest repos (fuel + 1) st repo d reason =
      match manifestOf repos repo.id d with
      | none => some st
      | some m =>
        if !st.isLive repo.id d then some st
        else
          ((st.liveReferrers repos repo.id d).foldlM (fun st ref =>
            removeManifest repos fuel st repo ref.digest (attachedTo d)) st).bind fun st₁ =>
              m.children.foldlM (removeChild repos fuel repo d) (st₁.drop repo m reason) := rfl

variable {fuel : Nat}

variable {st' : Pruning} {reason : String} {st : Pruning}

theorem removeManifest_cases (h : removeManifest repos fuel st repo d reason = some st') :
    (st' = st ∧ (manifestOf repos repo.id d = none ∨ (repo.id, d) ∉ st.live)) ∨
      ∃ n m st₁, fuel = n + 1 ∧ manifestOf repos repo.id d = some m ∧ (repo.id, d) ∈ st.live ∧
        (st.liveReferrers repos repo.id d).foldlM (fun st ref =>
          removeManifest repos n st repo ref.digest (attachedTo d)) st = some st₁ ∧
        m.children.foldlM (removeChild repos n repo d) (st₁.drop repo m reason) = some st' := by
  cases fuel with
  | zero => cases h
  | succ n =>
    rw [removeManifest_succ] at h
    cases hm : manifestOf repos repo.id d with
    | none =>
      rw [hm] at h
      exact .inl ⟨by simpa using h.symm, .inl rfl⟩
    | some m =>
      rw [hm] at h
      by_cases hlive : (repo.id, d) ∈ st.live
      · have : st.isLive repo.id d = true := Pruning.isLive_iff.mpr hlive
        simp only [this, Bool.not_true, Bool.false_eq_true, if_false] at h
        obtain ⟨st₁, h₁, h₂⟩ := bind_eq_some_iff.mp h
        exact .inr ⟨n, m, st₁, rfl, rfl, hlive, h₁, h₂⟩
      · have : st.isLive repo.id d = false := by
          rw [← Bool.not_eq_true, Pruning.isLive_iff]
          exact hlive
        simp only [this, Bool.not_false, if_true] at h
        exact .inl ⟨by simpa using h.symm, .inr hlive⟩

variable {child : Digest}

theorem removeChild_cases (h : removeChild repos fuel repo d st child = some st') :
    (st' = st ∧ ((repo.id, child) ∉ st.live ∨ st.liveParents repos repo.id child ≠ [] ∨
      st.tagsOf repos repo.id child ≠ [])) ∨
    ((repo.id, child) ∈ st.live ∧ st.liveParents repos repo.id child = [] ∧
      st.tagsOf repos repo.id child = [] ∧
      removeManifest repos fuel st repo child (variantOf d) = some st') := by
  unfold removeChild at h
  split at h
  · rename_i hneeded
    simp only [Bool.or_eq_true, Bool.not_eq_true', ← Bool.not_eq_true, Pruning.isLive_iff,
      List.isEmpty_iff] at hneeded
    exact .inl ⟨by simpa using h.symm, or_assoc.mp hneeded⟩
  · rename_i hfree
    simp only [Bool.or_eq_true, Bool.not_eq_true', ← Bool.not_eq_true, Pruning.isLive_iff,
      List.isEmpty_iff, not_or, not_not] at hfree
    exact .inr ⟨hfree.1.1, hfree.1.2, hfree.2, h⟩

theorem removeManifest_later (h : removeManifest repos fuel st repo d reason = some st') :
    Later st st' := by
  induction fuel generalizing st st' d reason with
  | zero => cases h
  | succ fuel ih =>
    obtain ⟨rfl, -⟩ | ⟨n, m, st₁, hn, -, -, hrefs, hchildren⟩ := removeManifest_cases h
    · exact Later.refl st'
    · obtain rfl : fuel = n := by omega
      have h₁ : Later st st₁ :=
        foldlM_keeps (I := Later st) (fun r _ s s' hs hr => hs.trans (ih hr)) (Later.refl st)
          hrefs
      refine foldlM_keeps (I := Later st) (fun c _ s s' hs hc => ?_)
        (h₁.trans (later_drop st₁ m reason)) hchildren
      obtain ⟨rfl, -⟩ | ⟨-, -, -, hc⟩ := removeChild_cases hc
      · exact hs
      · exact hs.trans (ih hc)

theorem removeChild_later (h : removeChild repos fuel repo d st child = some st') :
    Later st st' := by
  obtain ⟨rfl, -⟩ | ⟨-, -, -, h⟩ := removeChild_cases h
  · exact Later.refl st'
  · exact removeManifest_later h

theorem removeManifest_gone (hd : manifestOf repos repo.id d ≠ none)
    (h : removeManifest repos fuel st repo d reason = some st') : (repo.id, d) ∉ st'.live := by
  obtain ⟨rfl, hnone | hdead⟩ | ⟨n, m, st₁, -, hm, -, -, hchildren⟩ := removeManifest_cases h
  · exact absurd hnone hd
  · exact hdead
  · have hdigest : m.digest = d := by simpa using find?_some hm
    intro hlive
    have hlater : Later (st₁.drop repo m reason) st' :=
      foldlM_keeps (I := Later (st₁.drop repo m reason))
        (fun c _ s s' hs hc => hs.trans (removeChild_later hc)) (Later.refl _) hchildren
    exact (mem_drop_live.mp (hlater.live _ hlive)).2 (by rw [hdigest])

theorem referrers_gone (hkeys : ScopeKeys repos) (hrepo : repo ∈ repos) {st st₁ : Pruning}
    (h : (st.liveReferrers repos repo.id d).foldlM (fun st ref =>
      removeManifest repos fuel st repo ref.digest reason) st = some st₁) :
    st₁.liveReferrers repos repo.id d = [] := by
  have hend := foldlM_rule (J := fun rest s => Later st s ∧
      ∀ r ∈ st.liveReferrers repos repo.id d, r ∈ rest ∨ (repo.id, r.digest) ∉ s.live)
    (fun r rest s s' hJ hr => by
      have hlater : Later s s' := removeManifest_later hr
      refine ⟨hJ.1.trans hlater, fun x hx => ?_⟩
      obtain hx' | hdead := hJ.2 x hx
      · obtain rfl | hrest := mem_cons.mp hx'
        · refine .inr (removeManifest_gone ?_ hr)
          rw [(manifestOf_eq_some hkeys hrepo).mpr ⟨((mem_liveReferrers hkeys hrepo).mp hx).1, rfl⟩]
          exact some_ne_none x
        · exact .inl hrest
      · exact .inr fun hl => hdead (hlater.live _ hl))
    ⟨Later.refl st, fun r hr => .inl hr⟩ h
  rw [eq_nil_iff_forall_not_mem]
  intro r hr
  obtain ⟨hmem, hlive, hsubject⟩ := (mem_liveReferrers hkeys hrepo).mp hr
  have hr' : r ∈ st.liveReferrers repos repo.id d :=
    (mem_liveReferrers hkeys hrepo).mpr ⟨hmem, hend.1.live _ hlive, hsubject⟩
  obtain hnil | hdead := hend.2 r hr'
  · cases hnil
  · exact hdead hlive

/-- An assertion on the state of the plan that removals keep, and which manifests may be
handed to one. -/
structure RemovalRule (repos : List ScopeRepository) (repo : ScopeRepository)
    (I : Pruning → Prop) (May : Pruning → Digest → Prop) : Prop where
  later : ∀ {st st' d}, Later st st' → May st d → May st' d
  referrer : ∀ {st m r}, I st → m ∈ repo.manifests → May st m.digest →
    r ∈ st.liveReferrers repos repo.id m.digest → May st r.digest
  drop : ∀ {st m reason}, I st → m ∈ repo.manifests → May st m.digest →
    st.liveReferrers repos repo.id m.digest = [] → I (st.drop repo m reason)
  child : ∀ {st m c}, I st → m ∈ repo.manifests → May st m.digest → c ∈ m.children →
    (repo.id, c) ∈ st.live → st.liveParents repos repo.id c = [] →
    st.tagsOf repos repo.id c = [] → May st c

theorem RemovalRule.removeManifest {I : Pruning → Prop} {May : Pruning → Digest → Prop}
    (hkeys : ScopeKeys repos) (hrepo : repo ∈ repos) (hrule : RemovalRule repos repo I May)
    (hI : I st) (hmay : May st d) (h : removeManifest repos fuel st repo d reason = some st') :
    I st' := by
  induction fuel generalizing st st' d reason with
  | zero => cases h
  | succ fuel ih =>
    obtain ⟨rfl, -⟩ | ⟨n, m, st₁, hn, hm, -, hrefs, hchildren⟩ := removeManifest_cases h
    · exact hI
    · obtain rfl : fuel = n := by omega
      obtain ⟨hmem, rfl⟩ := (manifestOf_eq_some hkeys hrepo).mp hm
      -- the referrers may go at the start, and still may when their turn comes
      have hloop : I st₁ ∧ Later st st₁ :=
        foldlM_keeps (I := fun s => I s ∧ Later st s) (fun r hr s s' hs hrem =>
          ⟨ih hs.1 (hrule.later hs.2 (hrule.referrer hI hmem hmay hr)) hrem,
            hs.2.trans (removeManifest_later hrem)⟩) ⟨hI, Later.refl st⟩ hrefs
      have hdrop : I (st₁.drop repo m reason) :=
        hrule.drop hloop.1 hmem (hrule.later hloop.2 hmay) (referrers_gone hkeys hrepo hrefs)
      have hafter : I st' ∧ Later (st₁.drop repo m reason) st' := by
        refine foldlM_keeps (I := fun s => I s ∧ Later (st₁.drop repo m reason) s)
          (fun c hc s s' hs hturn => ?_) ⟨hdrop, Later.refl _⟩ hchildren
        have hmay' : May s m.digest :=
          hrule.later ((hloop.2.trans (later_drop st₁ m reason)).trans hs.2) hmay
        refine ⟨?_, hs.2.trans (removeChild_later hturn)⟩
        obtain ⟨rfl, -⟩ | ⟨hlive, hparents, htags, hrem⟩ := removeChild_cases hturn
        · exact hs.1
        · exact ih hs.1 (hrule.child hs.1 hmem hmay' hc hlive hparents htags) hrem
      exact hafter.1

end Chicoree.Images

/-! ## The two loops of a plan

What a turn of each loop does, the rule for what every turn keeps, and that a plan comes to
its end wherever no chain of subjects closes on itself. -/

namespace Chicoree.Images

open Option
open List
open Registryd (Digest RepoId)
open Folds (foldlM_rule foldlM_keeps foldlM_past foldlM_split foldlM_total)
open Pruning (Later mem_drop_live later_drop)

variable {repos : List ScopeRepository} {repo : ScopeRepository}

def untaggedSince (m : ScopeManifest) : String :=
  "untagged since " ++ isoDay m.pushedAt ++ ", oldest first to fit the storage limit"

def Pruning.take (st : Pruning) (repo : ScopeRepository) (t : PlanTag) : Pruning :=
  { st with
    removedTags := st.removedTags ++ [(repo.id, t.name)]
    steps := st.steps ++ [⟨repo.id, repo.path, .tag, t.name,
      "pushed " ++ isoDay t.pushedAt ++ ", oldest first to fit the storage limit"⟩] }

@[simp] theorem Pruning.take_removedTags (st : Pruning) (t : PlanTag) :
    (st.take repo t).removedTags = st.removedTags ++ [(repo.id, t.name)] := rfl

@[simp] theorem Pruning.take_steps (st : Pruning) (t : PlanTag) :
    (st.take repo t).steps = st.steps ++ [⟨repo.id, repo.path, .tag, t.name,
      "pushed " ++ isoDay t.pushedAt ++ ", oldest first to fit the storage limit"⟩] := rfl

def ProtectedTag (repo : ScopeRepository) (name : String) : Prop :=
  (tagFlags repo.rules name).protected_.isSome = true

instance (repo : ScopeRepository) (name : String) : Decidable (ProtectedTag repo name) :=
  inferInstanceAs (Decidable (_ = true))

def Pruning.passesOver (repos : List ScopeRepository) (st : Pruning) (repo : ScopeRepository)
    (t : PlanTag) : Prop :=
  (repo.id, t.name) ∈ st.removedTags ∨ ProtectedTag repo t.name ∨
    st.isProtected repos repo t.digest = true

instance (st : Pruning) (t : PlanTag) : Decidable (st.passesOver repos repo t) :=
  inferInstanceAs (Decidable (_ ∨ _ ∨ _))

variable (repos) in
/-- A turn of the first loop, which does nothing once the rest fits. -/
def leftoverTurn (limitBytes : Nat) (st : Pruning) :
    ScopeRepository × ScopeManifest → Option Pruning
  | (repo, m) =>
    if limitBytes < st.usage repos ∧ (repo.id, m.digest) ∈ st.live then
      removeManifest repos (stackDepth repos) st repo m.digest (untaggedSince m)
    else some st

variable (repos) in
/-- A turn of the second loop. -/
def tagTurn (limitBytes : Nat) (st : Pruning) : ScopeRepository × PlanTag → Option Pruning
  | (repo, t) =>
    if limitBytes < st.usage repos ∧ ¬ st.passesOver repos repo t then
      if ((st.take repo t).tagsOf repos repo.id t.digest).isEmpty &&
          (st.liveParents repos repo.id t.digest).isEmpty then
        removeManifest repos (stackDepth repos) (st.take repo t) repo t.digest
          ("its last tag " ++ t.name ++ " is removed")
      else some (st.take repo t)
    else some st

variable {limitBytes : Nat} {st st' : Pruning} {t : PlanTag}

theorem leftoverTurn_cases {m : ScopeManifest}
    (h : leftoverTurn repos limitBytes st (repo, m) = some st') :
    (st' = st ∧ (st.usage repos ≤ limitBytes ∨ (repo.id, m.digest) ∉ st.live)) ∨
    (limitBytes < st.usage repos ∧ (repo.id, m.digest) ∈ st.live ∧
      removeManifest repos (stackDepth repos) st repo m.digest (untaggedSince m) = some st') := by
  dsimp only [leftoverTurn] at h
  split at h
  · rename_i hturn
    exact .inr ⟨hturn.1, hturn.2, h⟩
  · rename_i hidle
    rw [not_and_or, Nat.not_lt] at hidle
    exact .inl ⟨(Option.some.inj h).symm, hidle⟩

theorem tagTurn_cases (h : tagTurn repos limitBytes st (repo, t) = some st') :
    (st' = st ∧ (st.usage repos ≤ limitBytes ∨ st.passesOver repos repo t)) ∨
    (limitBytes < st.usage repos ∧ ¬ st.passesOver repos repo t ∧
      ((((st.take repo t).tagsOf repos repo.id t.digest = [] ∧
          st.liveParents repos repo.id t.digest = []) ∧
        removeManifest repos (stackDepth repos) (st.take repo t) repo t.digest
          ("its last tag " ++ t.name ++ " is removed") = some st') ∨
      (¬ ((st.take repo t).tagsOf repos repo.id t.digest = [] ∧
          st.liveParents repos repo.id t.digest = []) ∧ st' = st.take repo t))) := by
  dsimp only [tagTurn] at h
  split at h
  · rename_i hturn
    refine .inr ⟨hturn.1, hturn.2, ?_⟩
    split at h
    · rename_i hlast
      exact .inl ⟨by simpa using hlast, h⟩
    · rename_i hneeded
      exact .inr ⟨by simpa using hneeded, (Option.some.inj h).symm⟩
  · rename_i hidle
    rw [not_and_or, Nat.not_lt, not_not] at hidle
    exact .inl ⟨(Option.some.inj h).symm, hidle⟩

theorem pruneLeftovers_fits {l : List (ScopeRepository × ScopeManifest)}
    (h : st.usage repos ≤ limitBytes) : pruneLeftovers repos limitBytes l st = some st := by
  cases l with
  | nil => rfl
  | cons item rest => rw [pruneLeftovers, if_pos h]

theorem pruneLeftovers_eq (l : List (ScopeRepository × ScopeManifest)) (st : Pruning) :
    pruneLeftovers repos limitBytes l st = l.foldlM (leftoverTurn repos limitBytes) st := by
  induction l generalizing st with
  | nil => rfl
  | cons item rest ih =>
    obtain ⟨repo, m⟩ := item
    rw [foldlM_cons]
    dsimp only [leftoverTurn]
    by_cases hfits : st.usage repos ≤ limitBytes
    · rw [pruneLeftovers_fits hfits, if_neg (by omega), bind_eq_bind, bind_some,
        ← ih, pruneLeftovers_fits hfits]
    rw [pruneLeftovers, if_neg hfits]
    have hover : limitBytes < st.usage repos := Nat.lt_of_not_le hfits
    by_cases hlive : (repo.id, m.digest) ∈ st.live
    · simp only [Pruning.isLive_iff.mpr hlive, hover, hlive, and_self, if_true, Bool.not_true,
        Bool.false_eq_true, if_false]
      exact congrArg _ (funext ih)
    · have hdead : st.isLive repo.id m.digest = false := by
        rw [← Bool.not_eq_true, Pruning.isLive_iff]
        exact hlive
      simp only [hdead, hlive, and_false, if_false, Bool.not_false, if_true, bind_eq_bind,
        bind_some]
      exact ih st

variable {l : List (ScopeRepository × PlanTag)} {I : Pruning → Prop}

theorem pruneTags_fits (h : st.usage repos ≤ limitBytes) :
    pruneTags repos limitBytes l st = some st := by
  cases l with
  | nil => rfl
  | cons item rest => rw [pruneTags, if_pos h]

theorem pruneTags_eq (l : List (ScopeRepository × PlanTag)) (st : Pruning) :
    pruneTags repos limitBytes l st = l.foldlM (tagTurn repos limitBytes) st := by
  induction l generalizing st with
  | nil => rfl
  | cons item rest ih =>
    obtain ⟨repo, t⟩ := item
    rw [foldlM_cons]
    dsimp only [tagTurn]
    by_cases hfits : st.usage repos ≤ limitBytes
    · rw [pruneTags_fits hfits, if_neg (by omega), bind_eq_bind, bind_some, ← ih,
        pruneTags_fits hfits]
    rw [pruneTags, if_neg hfits]
    have hover : limitBytes < st.usage repos := Nat.lt_of_not_le hfits
    by_cases hpasses : st.passesOver repos repo t
    · simp only [hpasses, not_true_eq_false, and_false, if_false, bind_eq_bind,
        bind_some]
      simp only [Pruning.passesOver, ProtectedTag] at hpasses
      split
      · exact ih st
      split
      · exact ih st
      split
      · exact ih st
      rename_i htaken hprotected hbeside
      exact absurd hpasses (by simpa [hprotected, hbeside] using htaken)
    · simp only [hover, hpasses, not_false_eq_true, and_self, if_true]
      simp only [Pruning.passesOver, ProtectedTag, not_or] at hpasses
      obtain ⟨htaken, hprotected, hbeside⟩ := hpasses
      rw [if_neg (by simpa using htaken), if_neg hprotected, if_neg hbeside]
      by_cases hlast : (((st.take repo t).tagsOf repos repo.id t.digest).isEmpty &&
          (st.liveParents repos repo.id t.digest).isEmpty) = true
      · rw [if_pos hlast]
        exact (if_pos hlast).trans (congrArg _ (funext ih))
      · rw [if_neg hlast]
        exact (if_neg hlast).trans (ih _)

/-! ## The rules of the loops -/

/-- What each turn of the first loop keeps holds where it ends: at the end of its list, or
where the rest fits. -/
theorem pruneLeftovers_rule {J : List (ScopeRepository × ScopeManifest) → Pruning → Prop}
    (hpass : ∀ repo m rest st, J ((repo, m) :: rest) st → (repo.id, m.digest) ∉ st.live → J rest st)
    (hremove : ∀ repo m rest st st₁, J ((repo, m) :: rest) st → (repo.id, m.digest) ∈ st.live →
      removeManifest repos (stackDepth repos) st repo m.digest (untaggedSince m) = some st₁ →
      J rest st₁)
    {l : List (ScopeRepository × ScopeManifest)} (hJ : J l st)
    (h : pruneLeftovers repos limitBytes l st = some st') :
    J [] st' ∨ ∃ rest, J rest st' ∧ st'.usage repos ≤ limitBytes := by
  rw [pruneLeftovers_eq] at h
  refine foldlM_rule
    (J := fun rest st => J rest st ∨ ∃ rest', J rest' st ∧ st.usage repos ≤ limitBytes)
    (fun (repo, m) rest st st₁ hJ hturn => ?_) (.inl hJ) h
  obtain hJ | ⟨rest', hJ, hfits⟩ := hJ
  · obtain ⟨rfl, hfits | hgone⟩ | ⟨-, hlive, h₁⟩ := leftoverTurn_cases hturn
    · exact .inr ⟨_, hJ, hfits⟩
    · exact .inl (hpass repo m rest _ hJ hgone)
    · exact .inl (hremove repo m rest st st₁ hJ hlive h₁)
  · obtain ⟨rfl, -⟩ | ⟨hover, -⟩ := leftoverTurn_cases hturn
    · exact .inr ⟨rest', hJ, hfits⟩
    · omega

theorem pruneLeftovers_kept {l : List (ScopeRepository × ScopeManifest)}
    (hremove : ∀ repo m st st₁, (repo, m) ∈ l → I st →
      removeManifest repos (stackDepth repos) st repo m.digest (untaggedSince m) = some st₁ → I st₁)
    (hst : I st) (h : pruneLeftovers repos limitBytes l st = some st') : I st' := by
  rw [pruneLeftovers_eq] at h
  refine foldlM_keeps (fun (repo, m) hx st st₁ hI hturn => ?_) hst h
  obtain ⟨rfl, -⟩ | ⟨-, -, h₁⟩ := leftoverTurn_cases hturn
  · exact hI
  · exact hremove repo m st st₁ hx hI h₁

theorem pruneTags_rule {J : List (ScopeRepository × PlanTag) → Pruning → Prop}
    (hpass : ∀ repo t rest st, J ((repo, t) :: rest) st → st.passesOver repos repo t → J rest st)
    (htake : ∀ repo t rest st, J ((repo, t) :: rest) st → ¬ st.passesOver repos repo t →
      ¬ ((st.take repo t).tagsOf repos repo.id t.digest = [] ∧
        st.liveParents repos repo.id t.digest = []) → J rest (st.take repo t))
    (hremove : ∀ repo t rest st st₁, J ((repo, t) :: rest) st → ¬ st.passesOver repos repo t →
      (st.take repo t).tagsOf repos repo.id t.digest = [] →
      st.liveParents repos repo.id t.digest = [] →
      removeManifest repos (stackDepth repos) (st.take repo t) repo t.digest
        ("its last tag " ++ t.name ++ " is removed") = some st₁ → J rest st₁)
    (hJ : J l st)
    (h : pruneTags repos limitBytes l st = some st') :
    J [] st' ∨ ∃ rest, J rest st' ∧ st'.usage repos ≤ limitBytes := by
  rw [pruneTags_eq] at h
  refine foldlM_rule
    (J := fun rest st => J rest st ∨ ∃ rest', J rest' st ∧ st.usage repos ≤ limitBytes)
    (fun (repo, t) rest st st₁ hJ hturn => ?_) (.inl hJ) h
  obtain hJ | ⟨rest', hJ, hfits⟩ := hJ
  · obtain ⟨rfl, hfits | hpasses⟩ | ⟨-, hnot, ⟨hlast, h₁⟩ | ⟨hneeded, rfl⟩⟩ := tagTurn_cases hturn
    · exact .inr ⟨_, hJ, hfits⟩
    · exact .inl (hpass repo t rest _ hJ hpasses)
    · exact .inl (hremove repo t rest st st₁ hJ hnot hlast.1 hlast.2 h₁)
    · exact .inl (htake repo t rest st hJ hnot hneeded)
  · obtain ⟨rfl, -⟩ | ⟨hover, -⟩ := tagTurn_cases hturn
    · exact .inr ⟨rest', hJ, hfits⟩
    · omega

theorem pruneTags_kept
    (htake : ∀ repo t st, (repo, t) ∈ l → ¬ st.passesOver repos repo t → I st → I (st.take repo t))
    (hremove : ∀ repo t st st₁, (repo, t) ∈ l → ¬ st.passesOver repos repo t → I st →
      (st.take repo t).tagsOf repos repo.id t.digest = [] →
      st.liveParents repos repo.id t.digest = [] →
      removeManifest repos (stackDepth repos) (st.take repo t) repo t.digest
        ("its last tag " ++ t.name ++ " is removed") = some st₁ → I st₁) (hst : I st)
    (h : pruneTags repos limitBytes l st = some st') : I st' := by
  rw [pruneTags_eq] at h
  refine foldlM_keeps (fun (repo, t) hx st st₁ hI hturn => ?_) hst h
  obtain ⟨rfl, -⟩ | ⟨-, hnot, ⟨hlast, h₁⟩ | ⟨-, rfl⟩⟩ := tagTurn_cases hturn
  · exact hI
  · exact hremove repo t st st₁ hx hnot hI hlast.1 hlast.2 h₁
  · exact htake repo t st hx hnot hI

/-! ## A turn by how the loop came to it -/

/-- Between what was before it and what comes after it. -/
theorem pruneLeftovers_split {past rest : List (ScopeRepository × ScopeManifest)}
    {m : ScopeManifest} {st₁ : Pruning}
    (h : pruneLeftovers repos limitBytes (past ++ (repo, m) :: rest) st = some st')
    (hpast : pruneLeftovers repos limitBytes past st = some st₁) :
    ∃ st₂, leftoverTurn repos limitBytes st₁ (repo, m) = some st₂ ∧
      pruneLeftovers repos limitBytes rest st₂ = some st' := by
  simp only [pruneLeftovers_eq] at h hpast ⊢
  exact foldlM_split h hpast

theorem pruneTags_split {past rest : List (ScopeRepository × PlanTag)} {st₁ : Pruning}
    (h : pruneTags repos limitBytes (past ++ (repo, t) :: rest) st = some st')
    (hpast : pruneTags repos limitBytes past st = some st₁) :
    ∃ st₂, tagTurn repos limitBytes st₁ (repo, t) = some st₂ ∧
      pruneTags repos limitBytes rest st₂ = some st' := by
  simp only [pruneTags_eq] at h hpast ⊢
  exact foldlM_split h hpast

theorem pruneLeftovers_past {l : List (ScopeRepository × ScopeManifest)} {start : Pruning}
    (hremove : ∀ past repo m rest st st₁, l = past ++ (repo, m) :: rest →
      pruneLeftovers repos limitBytes past start = some st → limitBytes < st.usage repos →
      (repo.id, m.digest) ∈ st.live → I st →
      removeManifest repos (stackDepth repos) st repo m.digest (untaggedSince m) = some st₁ → I st₁)
    (hst : I start) (h : pruneLeftovers repos limitBytes l start = some st') : I st' := by
  rw [pruneLeftovers_eq] at h
  refine foldlM_past (fun past (repo, m) rest st st₁ hl hpast hI hturn => ?_) hst h
  rw [← pruneLeftovers_eq] at hpast
  obtain ⟨rfl, -⟩ | ⟨hover, hlive, h₁⟩ := leftoverTurn_cases hturn
  · exact hI
  · exact hremove past repo m rest st st₁ hl hpast hover hlive hI h₁

theorem pruneTags_past {start : Pruning}
    (htake : ∀ past repo t rest st, l = past ++ (repo, t) :: rest →
      pruneTags repos limitBytes past start = some st → limitBytes < st.usage repos →
      ¬ st.passesOver repos repo t → I st → I (st.take repo t))
    (hremove : ∀ past repo t rest st st₁, l = past ++ (repo, t) :: rest →
      pruneTags repos limitBytes past start = some st → limitBytes < st.usage repos →
      ¬ st.passesOver repos repo t → I (st.take repo t) →
      (st.take repo t).tagsOf repos repo.id t.digest = [] →
      st.liveParents repos repo.id t.digest = [] →
      removeManifest repos (stackDepth repos) (st.take repo t) repo t.digest
        ("its last tag " ++ t.name ++ " is removed") = some st₁ → I st₁) (hst : I start)
    (h : pruneTags repos limitBytes l start = some st') : I st' := by
  rw [pruneTags_eq] at h
  refine foldlM_past (fun past (repo, t) rest st st₁ hl hpast hI hturn => ?_) hst h
  rw [← pruneTags_eq] at hpast
  obtain ⟨rfl, -⟩ | ⟨hover, hnot, hturn⟩ := tagTurn_cases hturn
  · exact hI
  have htaken := htake past repo t rest st hl hpast hover hnot hI
  obtain ⟨hlast, h₁⟩ | ⟨-, rfl⟩ := hturn
  · exact hremove past repo t rest st st₁ hl hpast hover hnot htaken hlast.1 hlast.2 h₁
  · exact htaken

variable {localeCompare : String → String → Ordering}

theorem planPruneToFit_cases
    {plan : PrunePlan} (h : planPruneToFit repos localeCompare limitBytes = some plan) :
    ((startPruning repos).usage repos ≤ limitBytes ∧
      plan = ⟨[], (startPruning repos).usage repos, (startPruning repos).usage repos, false⟩) ∨
    ∃ st₁ st₂, limitBytes < (startPruning repos).usage repos ∧
      pruneLeftovers repos limitBytes (leftovers repos (startPruning repos))
        (startPruning repos) = some st₁ ∧
      pruneTags repos limitBytes (tagsByAge repos localeCompare) st₁ = some st₂ ∧
      plan = ⟨st₂.steps, (startPruning repos).usage repos, st₂.usage repos,
        decide (limitBytes < st₂.usage repos)⟩ := by
  unfold planPruneToFit at h
  by_cases hfits : (startPruning repos).usage repos ≤ limitBytes
  · simp only [hfits, if_true, Option.some.injEq] at h
    exact .inl ⟨hfits, h.symm⟩
  · simp only [hfits, if_false] at h
    obtain ⟨st₁, h₁, h⟩ := bind_eq_some_iff.mp h
    obtain ⟨st₂, h₂, h⟩ := bind_eq_some_iff.mp h
    exact .inr ⟨st₁, st₂, Nat.lt_of_not_le hfits, h₁, h₂, by simpa using h.symm⟩

theorem mem_leftovers {m : ScopeManifest} : (repo, m) ∈ leftovers repos st ↔
      repo ∈ repos ∧ m ∈ repo.manifests ∧ isLeftover repos st repo m = true := by
  simp only [leftovers, mem_mergeSort, mem_flatMap, List.mem_map, mem_filter, Prod.mk.injEq]
  constructor
  · rintro ⟨r, hr, x, ⟨hx, hleft⟩, rfl, rfl⟩
    exact ⟨hr, hx, hleft⟩
  · intro ⟨hr, hx, hleft⟩
    exact ⟨repo, hr, m, ⟨hx, hleft⟩, rfl, rfl⟩

theorem mem_tagsByAge :
    (repo, t) ∈ tagsByAge repos localeCompare ↔ repo ∈ repos ∧ t ∈ repo.tags := by
  simp only [tagsByAge, mem_mergeSort, mem_flatMap, List.mem_map, Prod.mk.injEq]
  constructor
  · rintro ⟨r, hr, x, hx, rfl, rfl⟩
    exact ⟨hr, hx⟩
  · intro ⟨hr, ht⟩
    exact ⟨repo, hr, t, ht, rfl, rfl⟩

variable {fuel : Nat} {d : Digest}

theorem removeManifest_steps (hkeys : ScopeKeys repos) (hrepo : repo ∈ repos) {reason : String}
    (h : removeManifest repos fuel st repo d reason = some st') : st.steps <+: st'.steps := by
  have hrule : RemovalRule repos repo (fun s => st.steps <+: s.steps) (fun _ _ => True) :=
    { later := fun _ _ => trivial
      referrer := fun _ _ _ _ => trivial
      drop := fun hs _ _ _ => hs.trans (prefix_append _ _)
      child := fun _ _ _ _ _ _ _ => trivial }
  exact hrule.removeManifest hkeys hrepo (prefix_refl st.steps) trivial h

theorem pruneLeftovers_steps (hkeys : ScopeKeys repos)
    {l : List (ScopeRepository × ScopeManifest)} (hl : ∀ x ∈ l, x.1 ∈ repos)
    (h : pruneLeftovers repos limitBytes l st = some st') : st.steps <+: st'.steps :=
  pruneLeftovers_kept (I := fun s => st.steps <+: s.steps)
    (fun _ _ _ _ hx hs hremove => hs.trans (removeManifest_steps hkeys (hl _ hx) hremove))
    (prefix_refl st.steps) h

theorem pruneTags_steps (hkeys : ScopeKeys repos) (hl : ∀ x ∈ l, x.1 ∈ repos)
    (h : pruneTags repos limitBytes l st = some st') : st.steps <+: st'.steps := by
  refine pruneTags_kept (I := fun s => st.steps <+: s.steps)
    (fun repo t s _ _ hs => hs.trans (prefix_append _ _)) ?_ (prefix_refl st.steps) h
  intro repo t s s₁ hx _ hs _ _ hremove
  have htaken : s.steps <+: (s.take repo t).steps := prefix_append _ _
  exact (hs.trans htaken).trans (removeManifest_steps hkeys (hl _ hx) hremove)

/-! ## Plans end -/

/-- Subjects come before what is attached to them: a digest is made from the manifest, and
the manifest names its subject. -/
def SubjectsEnd (repos : List ScopeRepository) : Prop :=
  ∃ rank : RepoId → Digest → Nat, ∀ repo ∈ repos, ∀ m ∈ repo.manifests, ∀ subject,
    m.subjectDigest = some subject → rank repo.id subject < rank repo.id m.digest

section Ends

variable (rank : RepoId → Digest → Nat)

/-- The live manifests that a chain of referrers can still lead to. -/
def above (st : Pruning) (id : RepoId) (d : Digest) : Nat :=
  st.live.countP fun l => decide (l.1 = id ∧ rank id d < rank id l.2)

theorem above_le (st : Pruning) (id : RepoId) (d : Digest) :
    above rank st id d ≤ st.live.length := countP_le_length

variable {rank}

theorem above_referrer {s : Pruning} {id : RepoId} {r : Digest} (hlater : Later st s)
    (hlive : (id, r) ∈ s.live) (hrank : rank id d < rank id r) :
    above rank s id r < above rank st id d := by
  have hsub : above rank s id d ≤ above rank st id d := hlater.sub.countP_le
  refine Nat.lt_of_lt_of_le ?_ hsub
  unfold above
  obtain ⟨l₁, l₂, hl⟩ := append_of_mem hlive
  rw [hl, countP_append, countP_append, countP_cons, countP_cons]
  have hle (l : List (RepoId × Digest)) :
      l.countP (fun l => decide (l.1 = id ∧ rank id r < rank id l.2)) ≤
        l.countP (fun l => decide (l.1 = id ∧ rank id d < rank id l.2)) := by
    refine countP_mono_left fun x _ hx => ?_
    simp only [decide_eq_true_eq] at hx ⊢
    exact ⟨hx.1, by omega⟩
  have h₁ := hle l₁
  have h₂ := hle l₂
  have hr : decide ((id, r).1 = id ∧ rank id r < rank id (id, r).2) = false := by simp
  have hd : decide ((id, r).1 = id ∧ rank id d < rank id (id, r).2) = true := by simp [hrank]
  rw [hr, hd]
  simp only [Bool.false_eq_true, if_false, if_true]
  omega

/-- A call has a result where its fuel covers the manifests that are live, taken as often as
a chain of referrers is long. -/
theorem removeManifest_total (hkeys : ScopeKeys repos) (hrepo : repo ∈ repos)
    (hrank : ∀ m ∈ repo.manifests, ∀ subject, m.subjectDigest = some subject →
      rank repo.id subject < rank repo.id m.digest) {n : Nat}
    {reason : String} (hn : st.live.length < n)
    (hfuel : st.live.length * n + above rank st repo.id d < fuel) :
    ∃ st', removeManifest repos fuel st repo d reason = some st' := by
  induction fuel generalizing st d reason with
  | zero => omega
  | succ fuel ih =>
    rw [removeManifest_succ]
    cases hm : manifestOf repos repo.id d with
    | none => exact ⟨st, rfl⟩
    | some m =>
      by_cases hlive : (repo.id, d) ∈ st.live
      swap
      · have hdead : st.isLive repo.id d = false := by
          rw [← Bool.not_eq_true, Pruning.isLive_iff]
          exact hlive
        exact ⟨st, by simp [hdead]⟩
      have hislive : st.isLive repo.id d = true := Pruning.isLive_iff.mpr hlive
      obtain ⟨-, rfl⟩ := (manifestOf_eq_some hkeys hrepo).mp hm
      -- a referrer is one link further up the chain
      have hreferrers : ∃ st₁, (st.liveReferrers repos repo.id m.digest).foldlM (fun st ref =>
          removeManifest repos fuel st repo ref.digest (attachedTo m.digest)) st = some st₁ ∧
          Later st st₁ := by
        refine foldlM_total (I := Later st) (fun r hr s hs => ?_) (Later.refl st)
        obtain ⟨hrmem, -, hsubject⟩ := (Pruning.mem_liveReferrers hkeys hrepo).mp hr
        have hstep : ∃ s', removeManifest repos fuel s repo r.digest (attachedTo m.digest) =
            some s' := by
          have hlen : s.live.length ≤ st.live.length := hs.sub.length_le
          by_cases hrlive : (repo.id, r.digest) ∈ s.live
          · have hless := above_referrer hs hrlive (hrank r hrmem m.digest hsubject)
            have hmul : s.live.length * n ≤ st.live.length * n := Nat.mul_le_mul_right n hlen
            exact ih (by omega) (by omega)
          · have hpos : 0 < st.live.length := length_pos_of_mem hlive
            have hmul : 1 * 1 ≤ st.live.length * n := Nat.mul_le_mul hpos (by omega)
            obtain ⟨k, rfl⟩ : ∃ k, fuel = k + 1 := ⟨fuel - 1, by omega⟩
            have hdead : s.isLive repo.id r.digest = false := by
              rw [← Bool.not_eq_true, Pruning.isLive_iff]
              exact hrlive
            rw [removeManifest_succ]
            cases manifestOf repos repo.id r.digest with
            | none => exact ⟨s, rfl⟩
            | some _ => exact ⟨s, by simp [hdead]⟩
        obtain ⟨s', hs'⟩ := hstep
        exact ⟨s', hs', hs.trans (removeManifest_later hs')⟩
      obtain ⟨st₁, h₁, hlater₁⟩ := hreferrers
      -- a child is removed from a picture that has lost a manifest
      have hshorter : (st₁.drop repo m reason).live.length < st.live.length := by
        have hsub : (st₁.drop repo m reason).live.Sublist
            (st.live.filter fun l => decide (l ≠ (repo.id, m.digest))) :=
          hlater₁.sub.filter _
        refine Nat.lt_of_le_of_lt hsub.length_le ?_
        exact length_filter_lt_length_iff_exists.mpr ⟨_, hlive, by simp⟩
      have hchildren : ∃ st', m.children.foldlM (removeChild repos fuel repo m.digest)
          (st₁.drop repo m reason) = some st' ∧ Later (st₁.drop repo m reason) st' := by
        refine foldlM_total (I := Later (st₁.drop repo m reason)) (fun c _ s hs => ?_)
          (Later.refl _)
        have hlen : s.live.length < st.live.length := Nat.lt_of_le_of_lt hs.sub.length_le hshorter
        have habove := above_le rank s repo.id c
        have hmul : (s.live.length + 1) * n ≤ st.live.length * n := Nat.mul_le_mul_right n hlen
        rw [Nat.add_mul, Nat.one_mul] at hmul
        obtain ⟨s', hs'⟩ : ∃ s', removeChild repos fuel repo m.digest s c = some s' := by
          unfold removeChild
          split
          · exact ⟨s, rfl⟩
          · exact ih (by omega) (by omega)
        exact ⟨s', hs', hs.trans (removeChild_later hs')⟩
      obtain ⟨st', h₂, -⟩ := hchildren
      refine ⟨st', ?_⟩
      simp only [hislive, Bool.not_true, Bool.false_eq_true, if_false, h₁, bind_some]
      exact h₂

end Ends

theorem startPruning_live_length (repos : List ScopeRepository) :
    (startPruning repos).live.length + 1 = repos.foldl (fun n r => n + r.manifests.length) 1 := by
  have hsum (l : List ScopeRepository) (n : Nat) :
      (l.flatMap fun r => r.manifests.map fun m => (r.id, m.digest)).length + n =
        l.foldl (fun n r => n + r.manifests.length) n := by
    induction l generalizing n with
    | nil => simp
    | cons r l ih =>
      rw [flatMap_cons, length_append, foldl_cons, ← ih, length_map]
      omega
  exact hsum repos 1

section

variable (hkeys : ScopeKeys repos) (hends : SubjectsEnd repos)
include hkeys hends

theorem removeManifest_loop_total (hrepo : repo ∈ repos)
  (hlive : st.live.Sublist (startPruning repos).live) (d : Digest) (reason : String) :
    ∃ st', removeManifest repos (stackDepth repos) st repo d reason = some st' := by
  obtain ⟨rank, hrank⟩ := hends
  have hlen := startPruning_live_length repos
  have hle := hlive.length_le
  have habove := above_le rank st repo.id d
  refine removeManifest_total (n := st.live.length + 1) hkeys hrepo
    (hrank repo hrepo) (Nat.lt_succ_self _) ?_
  show st.live.length * (st.live.length + 1) + above rank st repo.id d <
    repos.foldl (fun n r => n + r.manifests.length) 1 *
      repos.foldl (fun n r => n + r.manifests.length) 1
  rw [← hlen]
  have hsquare : (st.live.length + 1) * (st.live.length + 1) ≤
      ((startPruning repos).live.length + 1) * ((startPruning repos).live.length + 1) :=
    Nat.mul_le_mul (by omega) (by omega)
  have hexpand : (st.live.length + 1) * (st.live.length + 1) =
      st.live.length * (st.live.length + 1) + (st.live.length + 1) := by
    rw [Nat.add_mul, Nat.one_mul]
  omega

theorem pruneLeftovers_total {l : List (ScopeRepository × ScopeManifest)}
  (hl : ∀ x ∈ l, x.1 ∈ repos) (hlive : st.live.Sublist (startPruning repos).live) :
    ∃ st', pruneLeftovers repos limitBytes l st = some st' ∧
      st'.live.Sublist (startPruning repos).live := by
  simp only [pruneLeftovers_eq]
  refine foldlM_total (I := fun st : Pruning => st.live.Sublist (startPruning repos).live)
    (fun (repo, m) hx st hst => ?_) hlive
  rw [leftoverTurn]
  split
  · obtain ⟨st₁, h₁⟩ := removeManifest_loop_total hkeys hends (hl _ hx) hst m.digest
      (untaggedSince m)
    exact ⟨st₁, h₁, (removeManifest_later h₁).sub.trans hst⟩
  · exact ⟨st, rfl, hst⟩

theorem pruneTags_total (hl : ∀ x ∈ l, x.1 ∈ repos)
  (hlive : st.live.Sublist (startPruning repos).live) :
    ∃ st', pruneTags repos limitBytes l st = some st' ∧
      st'.live.Sublist (startPruning repos).live := by
  simp only [pruneTags_eq]
  refine foldlM_total (I := fun st : Pruning => st.live.Sublist (startPruning repos).live)
    (fun (repo, t) hx st hst => ?_) hlive
  rw [tagTurn]
  split
  · have htaken : (st.take repo t).live.Sublist (startPruning repos).live := hst
    split
    · obtain ⟨st₁, h₁⟩ := removeManifest_loop_total hkeys hends (hl _ hx) htaken t.digest
        ("its last tag " ++ t.name ++ " is removed")
      exact ⟨st₁, h₁, (removeManifest_later h₁).sub.trans htaken⟩
    · exact ⟨_, rfl, htaken⟩
  · exact ⟨st, rfl, hst⟩

theorem planPruneToFit_total (localeCompare : String → String → Ordering) (limitBytes : Nat) :
    ∃ plan, planPruneToFit repos localeCompare limitBytes = some plan := by
  obtain ⟨st₁, h₁, hlive₁⟩ : ∃ st₁, pruneLeftovers repos limitBytes
      (leftovers repos (startPruning repos)) (startPruning repos) = some st₁ ∧
      st₁.live.Sublist (startPruning repos).live :=
    pruneLeftovers_total hkeys hends (fun (_, _) hx => (mem_leftovers.mp hx).1)
      (List.Sublist.refl _)
  obtain ⟨st₂, h₂, -⟩ : ∃ st₂, pruneTags repos limitBytes (tagsByAge repos localeCompare) st₁ =
      some st₂ ∧ st₂.live.Sublist (startPruning repos).live :=
    pruneTags_total hkeys hends (fun (_, _) hx => (mem_tagsByAge.mp hx).1) hlive₁
  unfold planPruneToFit
  simp only [h₁, bind_eq_bind, bind_some, h₂]
  split <;> exact ⟨_, rfl⟩

end

end Chicoree.Images
