import Mathlib.Logic.Relation
import Chicoree.Images.PruneInStep

/-! # Executing what was planned

The planner leaves out three checks: whether a manifest is still live once its referrers went,
whether a referrer only existed for its subject, and whether the image of a tag is still live
when the tag is taken. The steps of a plan can be executed exactly where none of the three
would have failed. -/

namespace Chicoree.Images

open List Pruning Relation
open Registryd (Digest RepoId Repository)
open Folds (foldlM_past foldlM_split foldlM_keeps)
open Pruning (Later mem_liveParents mem_tagsOf later_drop)

/-! ## The calls of a plan -/

/-- A call of `removeManifest`. -/
structure Removal where
  fuel : Nat
  st : Pruning
  digest : Digest
  reason : String
  /-- Made for a referrer of a manifest that goes. -/
  attached : Bool

section Calls

variable (repos : List ScopeRepository)

section

variable (repo : ScopeRepository)

/-- A call takes a manifest out, in the state that the removal of its referrers left. -/
inductive Removal.Drops : Removal → ScopeManifest → Pruning → Prop where
  | after {fuel : Nat} {st st₁ : Pruning} {d : Digest} {reason : String} {attached : Bool}
      {m : ScopeManifest} :
      manifestOf repos repo.id d = some m → (repo.id, d) ∈ st.live →
      (st.liveReferrers repos repo.id d).foldlM (fun st ref =>
        removeManifest repos fuel st repo ref.digest (attachedTo d)) st = some st₁ →
      Drops ⟨fuel + 1, st, d, reason, attached⟩ m st₁

/-- The calls that a call makes: one for every referrer, and one for every child that nothing
else needs. -/
inductive Removal.Calls : Removal → Removal → Prop where
  | referrer {fuel : Nat} {st s : Pruning} {d : Digest} {reason : String} {attached : Bool}
      {m r : ScopeManifest} {past rest : List ScopeManifest} :
      manifestOf repos repo.id d = some m → (repo.id, d) ∈ st.live →
      st.liveReferrers repos repo.id d = past ++ r :: rest →
      past.foldlM (fun st ref =>
        removeManifest repos fuel st repo ref.digest (attachedTo d)) st = some s →
      Calls ⟨fuel + 1, st, d, reason, attached⟩ ⟨fuel, s, r.digest, attachedTo d, true⟩
  | child {fuel : Nat} {st st₁ s : Pruning} {d : Digest} {reason : String} {attached : Bool}
      {m : ScopeManifest} {past rest : List Digest} {c : Digest} :
      Removal.Drops repos repo ⟨fuel + 1, st, d, reason, attached⟩ m st₁ →
      m.children = past ++ c :: rest →
      past.foldlM (removeChild repos fuel repo d) (st₁.drop repo m reason) = some s →
      (repo.id, c) ∈ s.live → s.liveParents repos repo.id c = [] →
      s.tagsOf repos repo.id c = [] →
      Calls ⟨fuel + 1, st, d, reason, attached⟩ ⟨fuel, s, c, variantOf d, false⟩

end

variable (localeCompare : String → String → Ordering) (limitBytes : Nat)

/-- The second loop comes to a tag and takes it. -/
inductive TakesTag : ScopeRepository → PlanTag → Pruning → Prop where
  | turn {repo : ScopeRepository} {t : PlanTag} {st₁ st : Pruning}
      {past rest : List (ScopeRepository × PlanTag)} :
      pruneLeftovers repos limitBytes (leftovers repos (startPruning repos))
        (startPruning repos) = some st₁ →
      tagsByAge repos localeCompare = past ++ (repo, t) :: rest →
      pruneTags repos limitBytes past st₁ = some st →
      limitBytes < st.usage repos → ¬ st.passesOver repos repo t → TakesTag repo t st

/-- The calls that the two loops make. -/
inductive Begins : ScopeRepository → Removal → Prop where
  | leftover {repo : ScopeRepository} {m : ScopeManifest} {st : Pruning}
      {past rest : List (ScopeRepository × ScopeManifest)} :
      leftovers repos (startPruning repos) = past ++ (repo, m) :: rest →
      pruneLeftovers repos limitBytes past (startPruning repos) = some st →
      limitBytes < st.usage repos → (repo.id, m.digest) ∈ st.live →
      Begins repo ⟨stackDepth repos, st, m.digest, untaggedSince m, false⟩
  | tag {repo : ScopeRepository} {t : PlanTag} {st : Pruning} :
      TakesTag repos localeCompare limitBytes repo t st →
      (st.take repo t).tagsOf repos repo.id t.digest = [] →
      st.liveParents repos repo.id t.digest = [] →
      Begins repo ⟨stackDepth repos, st.take repo t, t.digest,
        "its last tag " ++ t.name ++ " is removed", false⟩

/-- A call that planning makes, in a loop or within another call. -/
def Made (repo : ScopeRepository) (x : Removal) : Prop :=
  ∃ x₀, Begins repos localeCompare limitBytes repo x₀ ∧
    ReflTransGen (Removal.Calls repos repo) x₀ x

/-- A manifest that a call takes out is still live, and one that goes as a referrer is listed by
no live index and named by no protected tag. -/
structure DropPasses (repo : ScopeRepository) (attached : Bool) (m : ScopeManifest)
    (st : Pruning) : Prop where
  live : (repo.id, m.digest) ∈ st.live
  unlisted : attached = true → st.liveParents repos repo.id m.digest = []
  unprotected : attached = true → st.isProtected repos repo m.digest = false

/-- The checks that the planner leaves out would all have passed. -/
structure MissingChecksPass : Prop where
  drop : ∀ repo x m st, Made repos localeCompare limitBytes repo x → x.Drops repos repo m st →
    DropPasses repos repo x.attached m st
  /-- The image of a tag that is taken did not go before. -/
  tag : ∀ repo t st, TakesTag repos localeCompare limitBytes repo t st →
    ∀ m ∈ repo.manifests, m.digest = t.digest → (repo.id, m.digest) ∈ st.live

end Calls

variable {repos : List ScopeRepository} {repo : ScopeRepository} {st st' : Pruning}
  {d : Digest} {reason : String} {fuel : Nat} {s : Tables}

theorem TakesTag.mem {localeCompare : String → String → Ordering} {limitBytes : Nat} {t : PlanTag}
    (h : TakesTag repos localeCompare limitBytes repo t st) :
    repo ∈ repos ∧ t ∈ repo.tags ∧ ¬ st.passesOver repos repo t := by
  cases h with
  | turn _ hall _ _ hnot =>
    have hmem : (repo, t) ∈ tagsByAge repos localeCompare := by
      rw [hall]
      exact mem_append_right _ mem_cons_self
    obtain ⟨hrepo, ht⟩ := mem_tagsByAge.mp hmem
    exact ⟨hrepo, ht, hnot⟩

/-! ## The checks are enough -/

section Enough

variable (hkeys : ScopeKeys repos) (hshows : Shows s repos)
include hkeys hshows

/-- One call keeps the tables in step. A call that is not made for a referrer starts with a
manifest that no tag and no live index needs. -/
theorem InStep.removeManifest (hrepo : repo ∈ repos) {attached : Bool} (hst : InStep s repos st)
    (hdrops : ∀ y m st₁, ReflTransGen (Removal.Calls repos repo) ⟨fuel, st, d, reason, attached⟩ y →
      y.Drops repos repo m st₁ → DropPasses repos repo y.attached m st₁)
    (hfree : attached = false →
      st.tagsOf repos repo.id d = [] ∧ st.liveParents repos repo.id d = [])
    (h : removeManifest repos fuel st repo d reason = some st') : InStep s repos st' := by
  induction fuel generalizing st st' d reason attached with
  | zero => cases h
  | succ fuel ih =>
    obtain ⟨rfl, -⟩ | ⟨n, m, st₁, hn, hm, hlive, hrefs, hchildren⟩ := removeManifest_cases h
    · exact hst
    obtain rfl : fuel = n := by omega
    obtain ⟨hmem, hd⟩ := (manifestOf_eq_some hkeys hrepo).mp hm
    have hloop : InStep s repos st₁ ∧ Later st st₁ := by
      refine foldlM_past (I := fun s' => InStep s repos s' ∧ Later st s')
        (fun past r rest s₁ s₂ hl hpast hs₁ hr => ?_) ⟨hst, Later.refl st⟩ hrefs
      have hcall : Removal.Calls repos repo ⟨fuel + 1, st, d, reason, attached⟩
          ⟨fuel, s₁, r.digest, attachedTo d, true⟩ := .referrer hm hlive hl hpast
      refine ⟨ih hs₁.1 (fun y x s₃ hy => hdrops y x s₃ (.head hcall hy)) (fun hno => ?_) hr,
        hs₁.2.trans (removeManifest_later hr)⟩
      cases hno
    have hdrop : Removal.Drops repos repo ⟨fuel + 1, st, d, reason, attached⟩ m st₁ :=
      .after hm hlive hrefs
    have hpasses := hdrops _ m st₁ .refl hdrop
    have hfree₁ : attached = false →
        st₁.tagsOf repos repo.id d = [] ∧ st₁.liveParents repos repo.id d = [] := by
      intro hroot
      obtain ⟨htags, hparents⟩ := hfree hroot
      rw [hloop.2.tagsOf]
      exact ⟨htags, hloop.2.noParents hkeys hrepo hparents⟩
    have hallowed : (CleanupStep.manifest repo.id m.digest).Allowed
        (runSteps s (st₁.steps.map PruneStep.cleanup)) := by
      refine (hloop.1.manifest_allowed_iff hkeys hshows hrepo hmem).mpr ⟨hpasses.live, ?_⟩
      cases attached with
      | true => exact ⟨hpasses.unlisted rfl, hpasses.unprotected rfl⟩
      | false =>
        obtain ⟨htags, hparents⟩ := hfree₁ rfl
        rw [hd]
        exact ⟨hparents, by simp [isProtected, htags]⟩
    have hdropped : InStep s repos (st₁.drop repo m reason) := by
      refine ⟨hloop.1.toAccounted.drop hrepo hmem, ?_⟩
      rw [drop_steps, map_append]
      exact executes_append.mpr ⟨hloop.1.executes, hallowed⟩
    refine foldlM_past (I := InStep s repos) (fun past c rest s₁ s₂ hl hpast hs₁ hturn => ?_)
      hdropped hchildren
    obtain ⟨rfl, -⟩ | ⟨hclive, hparents, htags, hrem⟩ := removeChild_cases hturn
    · exact hs₁
    · have hcall := Removal.Calls.child hdrop hl hpast hclive hparents htags
      exact ih hs₁ (fun y x s₃ hy => hdrops y x s₃ (.head hcall hy)) (fun _ => ⟨htags, hparents⟩) hrem

variable {localeCompare : String → String → Ordering} {limitBytes : Nat} {st₁ st₂ : Pruning}
  (hpass : MissingChecksPass repos localeCompare limitBytes)
include hpass

theorem pruneLeftovers_inStep
    (h : pruneLeftovers repos limitBytes (leftovers repos (startPruning repos))
      (startPruning repos) = some st₁) : InStep s repos st₁ := by
  have hend := pruneLeftovers_past (I := fun st => InStep s repos st ∧ Later (startPruning repos) st)
    (fun past repo m rest st s₁ hall hpast hover hlive hst hremove => ?_)
    ⟨inStep_start, Later.refl _⟩ h
  · exact hend.1
  obtain ⟨hst, hlater⟩ := hst
  obtain ⟨hrepo, -, hleft⟩ : repo ∈ repos ∧ m ∈ repo.manifests ∧
      isLeftover repos (startPruning repos) repo m = true := by
    rw [← mem_leftovers, hall]
    exact mem_append_right past mem_cons_self
  simp only [isLeftover, Bool.and_eq_true, List.isEmpty_iff] at hleft
  have hbegins : Begins repos localeCompare limitBytes repo
      ⟨stackDepth repos, st, m.digest, untaggedSince m, false⟩ := .leftover hall hpast hover hlive
  refine ⟨hst.removeManifest hkeys hshows hrepo
    (fun y x s₂ hy => hpass.drop repo y x s₂ ⟨_, hbegins, hy⟩) (fun _ => ⟨?_, ?_⟩) hremove,
    hlater.trans (removeManifest_later hremove)⟩
  · rw [hlater.tagsOf]
    exact hleft.1.1
  · exact hlater.noParents hkeys hrepo hleft.1.2

theorem InStep.take (hst : InStep s repos st) {t : PlanTag}
    (htake : TakesTag repos localeCompare limitBytes repo t st) : InStep s repos (st.take repo t) := by
  obtain ⟨hrepo, ht, hnot⟩ := htake.mem
  refine ⟨hst.toAccounted.take hrepo, ?_⟩
  rw [take_steps, map_append]
  exact executes_append.mpr ⟨hst.executes,
    (hst.tag_allowed_iff hkeys hshows hrepo ht hnot).mpr (hpass.tag repo t st htake)⟩

theorem pruneTags_inStep
    (h₁ : pruneLeftovers repos limitBytes (leftovers repos (startPruning repos))
      (startPruning repos) = some st₁)
    (h₂ : pruneTags repos limitBytes (tagsByAge repos localeCompare) st₁ = some st₂) :
    InStep s repos st₂ := by
  refine pruneTags_past (fun past repo t rest st hall hpast hover hnot hst => ?_)
    (fun past repo t rest st s₁ hall hpast hover hnot hst htags hparents hremove => ?_)
    (pruneLeftovers_inStep hkeys hshows hpass h₁) h₂
  · exact hst.take hkeys hshows hpass (.turn h₁ hall hpast hover hnot)
  · have htake : TakesTag repos localeCompare limitBytes repo t st :=
      .turn h₁ hall hpast hover hnot
    have hbegins := Begins.tag htake htags hparents
    exact hst.removeManifest hkeys hshows htake.mem.1
      (fun y x s₂ hy => hpass.drop repo y x s₂ ⟨_, hbegins, hy⟩)
      (fun _ => ⟨htags, hparents⟩) hremove

end Enough

/-! ## The checks are needed -/

/-- A call with what it starts from and what it leaves: its steps are among the first of the
plan. -/
structure Within (repos : List ScopeRepository) (repo : ScopeRepository) (steps : List PruneStep)
    (x : Removal) : Prop where
  accounted : Accounted repos x.st
  ends : ∃ st', removeManifest repos x.fuel x.st repo x.digest x.reason = some st' ∧
    st'.steps <+: steps

section Needed

variable {steps : List PruneStep} (hkeys : ScopeKeys repos)
include hkeys

section

variable (hrepo : repo ∈ repos)
include hrepo

theorem accounted_referrers {refs : List ScopeManifest} (hst : Accounted repos st)
    (h : refs.foldlM (fun st ref =>
      removeManifest repos fuel st repo ref.digest reason) st = some st') :
    Accounted repos st' ∧ st.steps <+: st'.steps :=
  foldlM_keeps (I := fun s' => Accounted repos s' ∧ st.steps <+: s'.steps)
    (fun _ _ _ _ hs hr => ⟨(accounted_rule hrepo).removeManifest hkeys hrepo hs.1 trivial hr,
      hs.2.trans (removeManifest_steps hkeys hrepo hr)⟩) ⟨hst, prefix_refl st.steps⟩ h

theorem accounted_children {cs : List Digest} (hst : Accounted repos st)
    (h : cs.foldlM (removeChild repos fuel repo d) st = some st') :
    Accounted repos st' ∧ st.steps <+: st'.steps := by
  refine foldlM_keeps (I := fun s' => Accounted repos s' ∧ st.steps <+: s'.steps)
    (fun _ _ s₁ s₂ hs hturn => ?_) ⟨hst, prefix_refl st.steps⟩ h
  obtain ⟨rfl, -⟩ | ⟨-, -, -, hremove⟩ := removeChild_cases hturn
  · exact hs
  · exact ⟨(accounted_rule hrepo).removeManifest hkeys hrepo hs.1 trivial hremove,
      hs.2.trans (removeManifest_steps hkeys hrepo hremove)⟩

/-- What a call does that goes past its first line. -/
theorem Within.runs {attached : Bool} {m : ScopeManifest}
    (h : Within repos repo steps ⟨fuel + 1, st, d, reason, attached⟩)
    (hm : manifestOf repos repo.id d = some m) (hlive : (repo.id, d) ∈ st.live) :
    ∃ st₁ st', (st.liveReferrers repos repo.id d).foldlM (fun st ref =>
        removeManifest repos fuel st repo ref.digest (attachedTo d)) st = some st₁ ∧
      m.children.foldlM (removeChild repos fuel repo d) (st₁.drop repo m reason) = some st' ∧
      Accounted repos st₁ ∧ (st₁.drop repo m reason).steps <+: st'.steps ∧ st'.steps <+: steps := by
  obtain ⟨st', hends, hsteps⟩ := h.ends
  obtain ⟨-, hnone | hdead⟩ | ⟨n, m', st₁, hn, hm', -, hrefs, hchildren⟩ := removeManifest_cases hends
  · rw [hm] at hnone
    cases hnone
  · exact absurd hlive hdead
  obtain rfl : fuel = n := Nat.succ.inj hn
  obtain rfl : m = m' := Option.some.inj (hm.symm.trans hm')
  obtain ⟨hmem, -⟩ := (manifestOf_eq_some hkeys hrepo).mp hm
  have hst₁ := accounted_referrers hkeys hrepo h.accounted hrefs
  exact ⟨st₁, st', hrefs, hchildren, hst₁.1,
    (accounted_children hkeys hrepo (hst₁.1.drop hrepo hmem) hchildren).2, hsteps⟩

theorem Within.drops {x : Removal} {m : ScopeManifest} {st₁ : Pruning}
    (h : Within repos repo steps x) (hdrop : x.Drops repos repo m st₁) :
    m ∈ repo.manifests ∧ Accounted repos st₁ ∧ (st₁.drop repo m x.reason).steps <+: steps := by
  cases hdrop with
  | after hm hlive hrefs =>
    obtain ⟨st₂, st', hrefs₂, -, hst₂, hbefore, hsteps⟩ := h.runs hkeys hrepo hm hlive
    obtain rfl : st₁ = st₂ := Option.some.inj (hrefs.symm.trans hrefs₂)
    exact ⟨((manifestOf_eq_some hkeys hrepo).mp hm).1, hst₂, hbefore.trans hsteps⟩

theorem Within.calls {x y : Removal} (h : Within repos repo steps x)
    (hcall : Removal.Calls repos repo x y) : Within repos repo steps y := by
  cases hcall with
  | @referrer fuel st s d reason attached m r past rest hm hlive hall hpast =>
    obtain ⟨st₁, st', hrefs, -, -, hbefore, hsteps⟩ := h.runs hkeys hrepo hm hlive
    rw [hall] at hrefs
    obtain ⟨s₁, hr, hrest⟩ := foldlM_split hrefs hpast
    have hs := accounted_referrers hkeys hrepo h.accounted hpast
    have hs₁ := (accounted_rule hrepo).removeManifest hkeys hrepo hs.1 trivial hr
    refine ⟨hs.1, s₁, hr, ?_⟩
    -- the rest of the loop, the drop and the children come after it
    have hdropped : s₁.steps <+: (st₁.drop repo m reason).steps :=
      (accounted_referrers hkeys hrepo hs₁ hrest).2.trans (prefix_append _ _)
    exact (hdropped.trans hbefore).trans hsteps
  | @child fuel st st₁ s d reason attached m past rest c hdrop hall hpast hclive hparents htags =>
    obtain ⟨hmem, hst₁, -⟩ := h.drops hkeys hrepo hdrop
    cases hdrop with
    | after hm hlive hrefs =>
      obtain ⟨st₂, st', hrefs₂, hchildren, -, -, hsteps⟩ := h.runs hkeys hrepo hm hlive
      obtain rfl : st₁ = st₂ := Option.some.inj (hrefs.symm.trans hrefs₂)
      rw [hall] at hchildren
      obtain ⟨s₁, hturn, hrest⟩ := foldlM_split hchildren hpast
      have hs := accounted_children hkeys hrepo (hst₁.drop hrepo hmem) hpast
      obtain ⟨-, hno | hno | hno⟩ | ⟨-, -, -, hremove⟩ := removeChild_cases hturn
      · exact absurd hclive hno
      · exact absurd hparents hno
      · exact absurd htags hno
      · have hs₁ := (accounted_rule hrepo).removeManifest hkeys hrepo hs.1 trivial hremove
        exact ⟨hs.1, s₁, hremove, (accounted_children hkeys hrepo hs₁ hrest).2.trans hsteps⟩

end

variable {localeCompare : String → String → Ordering} {limitBytes : Nat} {st₁ st₂ : Pruning}
  (h₁ : pruneLeftovers repos limitBytes (leftovers repos (startPruning repos))
    (startPruning repos) = some st₁)
  (h₂ : pruneTags repos limitBytes (tagsByAge repos localeCompare) st₁ = some st₂)

theorem accounted_leftovers {l : List (ScopeRepository × ScopeManifest)} (hl : ∀ x ∈ l, x.1 ∈ repos)
    (h : pruneLeftovers repos limitBytes l (startPruning repos) = some st) : Accounted repos st :=
  pruneLeftovers_kept (fun _ _ _ _ hx hst hremove =>
    (accounted_rule (hl _ hx)).removeManifest hkeys (hl _ hx) hst trivial hremove) accounted_start h

include h₁ h₂

/-- The state in which a tag is taken, and where its turn leads. -/
theorem takesTag_within {t : PlanTag} (h : TakesTag repos localeCompare limitBytes repo t st) :
    Accounted repos st ∧ (st.take repo t).steps <+: st₂.steps ∧
      ((st.take repo t).tagsOf repos repo.id t.digest = [] →
        st.liveParents repos repo.id t.digest = [] →
        ∃ s₁, removeManifest repos (stackDepth repos) (st.take repo t) repo t.digest
          ("its last tag " ++ t.name ++ " is removed") = some s₁ ∧ s₁.steps <+: st₂.steps) := by
  obtain ⟨hrepo, -, -⟩ := h.mem
  cases h with
  | turn hleft hall hpast hover hnot =>
    rename_i s₁ past rest
    obtain rfl : st₁ = s₁ := Option.some.inj (h₁.symm.trans hleft)
    have hmem : ∀ x ∈ past ++ (repo, t) :: rest, x.1 ∈ repos := by
      intro x hx
      rw [← hall] at hx
      exact (mem_tagsByAge.mp hx).1
    have hpastMem : ∀ x ∈ past, x.1 ∈ repos := fun x hx => hmem x (mem_append_left _ hx)
    have hrest : ∀ x ∈ rest, x.1 ∈ repos :=
      fun x hx => hmem x (mem_append_right past (mem_cons_of_mem _ hx))
    rw [hall] at h₂
    obtain ⟨s₂, hturn, hafter⟩ := pruneTags_split h₂ hpast
    have hst : Accounted repos st :=
      pruneTags_kept (fun _ _ _ hx _ hs => hs.take (hpastMem _ hx))
        (fun _ _ _ _ hx _ hs _ _ hremove => (accounted_rule (hpastMem _ hx)).removeManifest hkeys
          (hpastMem _ hx) (hs.take (hpastMem _ hx)) trivial hremove)
        (accounted_leftovers hkeys (fun _ hx => (mem_leftovers.mp hx).1) h₁) hpast
    have hs₂ : s₂.steps <+: st₂.steps := pruneTags_steps hkeys hrest hafter
    obtain ⟨-, hidle⟩ | ⟨-, -, ⟨-, hremove⟩ | ⟨hneeded, rfl⟩⟩ := tagTurn_cases hturn
    · exact absurd hidle (not_or.mpr ⟨Nat.not_le_of_lt hover, hnot⟩)
    · exact ⟨hst, (removeManifest_steps hkeys hrepo hremove).trans hs₂,
        fun _ _ => ⟨s₂, hremove, hs₂⟩⟩
    · exact ⟨hst, hs₂, fun htags hparents => absurd ⟨htags, hparents⟩ hneeded⟩

theorem Begins.within {x : Removal} (h : Begins repos localeCompare limitBytes repo x) :
    repo ∈ repos ∧ Within repos repo st₂.steps x := by
  cases h with
  | leftover hall hpast hover hlive =>
    rename_i m st past rest
    have hmem : ∀ x ∈ past ++ (repo, m) :: rest, x.1 ∈ repos := by
      intro x hx
      rw [← hall] at hx
      exact (mem_leftovers.mp hx).1
    have hrest : ∀ x ∈ rest, x.1 ∈ repos :=
      fun x hx => hmem x (mem_append_right past (mem_cons_of_mem _ hx))
    have hrepo : repo ∈ repos := hmem _ (mem_append_right past mem_cons_self)
    have hst : Accounted repos st :=
      accounted_leftovers hkeys (fun x hx => hmem x (mem_append_left _ hx)) hpast
    rw [hall] at h₁
    obtain ⟨s₁, hturn, hafter⟩ := pruneLeftovers_split h₁ hpast
    obtain ⟨-, hfits | hgone⟩ | ⟨-, -, hremove⟩ := leftoverTurn_cases hturn
    · omega
    · exact absurd hlive hgone
    · have hloop : st₁.steps <+: st₂.steps :=
        pruneTags_steps hkeys (fun _ hx => (mem_tagsByAge.mp hx).1) h₂
      exact ⟨hrepo, hst, s₁, hremove, (pruneLeftovers_steps hkeys hrest hafter).trans hloop⟩
  | tag htake htags hparents =>
    obtain ⟨hst, -, hends⟩ := takesTag_within hkeys h₁ h₂ htake
    exact ⟨htake.mem.1, hst.take htake.mem.1, hends htags hparents⟩

theorem Made.within {x : Removal} (h : Made repos localeCompare limitBytes repo x) :
    repo ∈ repos ∧ Within repos repo st₂.steps x := by
  obtain ⟨x₀, hbegins, hcalls⟩ := h
  obtain ⟨hrepo, hwithin⟩ := hbegins.within hkeys h₁ h₂
  refine ⟨hrepo, ?_⟩
  induction hcalls with
  | refl => exact hwithin
  | tail _ hcall ih => exact ih.calls hkeys hrepo hcall

theorem missingChecksPass_of_executes (hshows : Shows s repos)
    (hexec : Executes s (st₂.steps.map PruneStep.cleanup)) :
    MissingChecksPass repos localeCompare limitBytes := by
  refine ⟨?_, ?_⟩
  · intro repo x m st hmade hdrop
    obtain ⟨hrepo, hwithin⟩ := hmade.within hkeys h₁ h₂
    obtain ⟨hm, hst, hsteps⟩ := hwithin.drops hkeys hrepo hdrop
    have hexec' := hexec.of_prefix (hsteps.map PruneStep.cleanup)
    rw [drop_steps, map_append] at hexec'
    obtain ⟨hlive, hparents, hfree⟩ :=
      (hst.manifest_allowed_iff hkeys hshows hrepo hm).mp (executes_append.mp hexec').2
    exact ⟨hlive, fun _ => hparents, fun _ => hfree⟩
  · intro repo t st htake
    obtain ⟨hrepo, ht, hnot⟩ := htake.mem
    obtain ⟨hst, hsteps, -⟩ := takesTag_within hkeys h₁ h₂ htake
    have hexec' := hexec.of_prefix (hsteps.map PruneStep.cleanup)
    rw [take_steps, map_append] at hexec'
    exact (hst.tag_allowed_iff hkeys hshows hrepo ht hnot).mp (executes_append.mp hexec').2

end Needed

/-! ## The plan -/

section Plan

variable {localeCompare : String → String → Ordering} {limitBytes : Nat} {plan : PrunePlan}

theorem missingChecksPass_of_fits (hfits : (startPruning repos).usage repos ≤ limitBytes) :
    MissingChecksPass repos localeCompare limitBytes := by
  have hleft {l : List (ScopeRepository × ScopeManifest)} {st : Pruning}
      (h : pruneLeftovers repos limitBytes l (startPruning repos) = some st) :
      st = startPruning repos := by
    rw [pruneLeftovers_fits hfits] at h
    exact (Option.some.inj h).symm
  have htags : ∀ repo t st, ¬ TakesTag repos localeCompare limitBytes repo t st := by
    intro repo t st h
    cases h with
    | turn h₁ _ h₂ hover _ =>
      obtain rfl := hleft h₁
      rw [pruneTags_fits hfits] at h₂
      obtain rfl := Option.some.inj h₂
      omega
  refine ⟨?_, fun repo t st h => absurd h (htags repo t st)⟩
  intro repo x m st ⟨x₀, hbegins, _⟩
  cases hbegins with
  | leftover _ hpast hover _ =>
    obtain rfl := hleft hpast
    omega
  | tag htake _ _ => exact absurd htake (htags _ _ _)

theorem executes_iff_missingChecksPass (hkeys : ScopeKeys repos) (hshows : Shows s repos)
    (h : planPruneToFit repos localeCompare limitBytes = some plan) :
    Executes s (plan.steps.map PruneStep.cleanup) ↔
      MissingChecksPass repos localeCompare limitBytes := by
  obtain ⟨hfits, rfl⟩ | ⟨st₁, st₂, -, h₁, h₂, rfl⟩ := planPruneToFit_cases h
  · exact iff_of_true (.nil s) (missingChecksPass_of_fits hfits)
  · constructor
    · intro hexec
      exact missingChecksPass_of_executes hkeys h₁ h₂ hshows hexec
    · intro hpass
      exact (pruneTags_inStep hkeys hshows hpass h₁ h₂).executes

theorem planPruneToFit_ids (hkeys : ScopeKeys repos)
    (h : planPruneToFit repos localeCompare limitBytes = some plan) :
    ∀ step ∈ plan.steps, ∃ repo ∈ repos, step.repositoryId = repo.id := by
  obtain ⟨-, rfl⟩ | ⟨st₁, st₂, -, h₁, h₂, rfl⟩ := planPruneToFit_cases h
  · intro step hstep
    cases hstep
  have hst₁ := accounted_leftovers hkeys (fun _ hx => (mem_leftovers.mp hx).1) h₁
  have hst₂ : Accounted repos st₂ :=
    pruneTags_kept (fun _ _ _ hx _ hs => hs.take (mem_tagsByAge.mp hx).1)
      (fun _ _ _ _ hx _ hs _ _ hremove => (accounted_rule (mem_tagsByAge.mp hx).1).removeManifest
        hkeys (mem_tagsByAge.mp hx).1 (hs.take (mem_tagsByAge.mp hx).1) trivial hremove) hst₁ h₂
  exact hst₂.ids

/-- **Every planned step is executable**, exactly where the checks that the planner leaves out
would have passed: the steps of a plan, carried out in order on tables that hold what the
planner was shown, each name a tag or a manifest that is still there, take no manifest that an
index still lists, and are not refused. -/
theorem prune_steps_executable_iff (hkeys : ScopeKeys repos) (hshows : Shows s repos)
    (h : planPruneToFit repos localeCompare limitBytes = some plan) :
    (Executes s (plan.steps.map PruneStep.cleanup) ∧
      Executable localeCompare s (plan.steps.map PruneStep.cleanup)) ↔
    MissingChecksPass repos localeCompare limitBytes := by
  rw [← executes_iff_missingChecksPass hkeys hshows h]
  refine and_iff_left_of_imp fun hexec => executable_of_executes hexec ?_
  intro step hmem
  obtain ⟨x, hx, rfl⟩ := mem_map.mp hmem
  obtain ⟨repo, hrepo, hid⟩ := planPruneToFit_ids hkeys h x hx
  have hserves := hshows.serves repo hrepo
  rw [← hid] at hserves
  cases hkind : x.kind with
  | tag | manifest => simpa [PruneStep.cleanup, hkind, CleanupStep.repositoryId] using hserves

end Plan

/-! ## The picture that `loadScope` reads -/

section Loaded

variable (localeCompare : String → String → Ordering)

def loadedScope (s : Tables) (ids : List RepoId) : List ScopeRepository :=
  (s.scopeRepositories ids).map (scopeOf localeCompare s
    (s.manifests.filter fun m => ids.contains m.repositoryId) (s.scopeRefs ids)
    (s.tags.filter fun t => ids.contains t.repositoryId))

variable {localeCompare} {s : Tables} {ids : List RepoId}

theorem mem_scopeRepositories {r : Repository} {slug : String} :
    (r, slug) ∈ s.scopeRepositories ids ↔ r ∈ s.repositories ∧ r.id ∈ ids ∧
      ∃ o, s.findOrganization r.orgId = some o ∧ o.slug = slug := by
  simp only [Tables.scopeRepositories, mem_filterMap]
  constructor
  · intro ⟨x, hx, hsome⟩
    split at hsome
    · rename_i hin
      obtain ⟨o, ho, heq⟩ := Option.map_eq_some_iff.mp hsome
      obtain ⟨rfl, rfl⟩ := Prod.mk.inj heq
      exact ⟨hx, by simpa using hin, o, ho, rfl⟩
    · cases hsome
  · intro ⟨hr, hin, o, ho, hslug⟩
    refine ⟨r, hr, ?_⟩
    rw [if_pos (by simpa using hin), ho, ← hslug]
    rfl

theorem loadedScope_shows (hvalid : s.Valid)
    (hblobs : ∀ b ∈ s.blobs, ∀ m ∈ s.manifests, b.digest ≠ m.digest) :
    Shows s (loadedScope localeCompare s ids) := by
  refine ⟨?_, ?_, ?_, ?_, ?_, ?_, ?_⟩
  · intro repo hrepo
    obtain ⟨⟨r, slug⟩, hr, rfl⟩ := mem_map.mp hrepo
    obtain ⟨hmem, -, o, ho, -⟩ := mem_scopeRepositories.mp hr
    obtain ⟨homem, hoid⟩ := Table.find_some ho
    exact serves_of_mem hvalid hmem homem hoid
  · intro repo hrepo m hm
    obtain ⟨⟨r, slug⟩, -, rfl⟩ := mem_map.mp hrepo
    obtain ⟨row, hrow, rfl⟩ := mem_map.mp hm
    obtain ⟨hrow, hid⟩ := mem_filter.mp hrow
    exact any_eq_true.mpr ⟨row, (mem_filter.mp hrow).1, decide_eq_true ⟨of_decide_eq_true hid, rfl⟩⟩
  · intro repo hrepo m hm x hx hid hd hparent
    obtain ⟨⟨r, slug⟩, hr, rfl⟩ := mem_map.mp hrepo
    obtain ⟨-, hin, -⟩ := mem_scopeRepositories.mp hr
    obtain ⟨row, hrow, rfl⟩ := mem_map.mp hm
    obtain ⟨hrow, hrowid⟩ := mem_filter.mp hrow
    obtain ⟨p, hp, hthis⟩ := any_eq_true.mp hparent
    obtain ⟨hpid, hpd⟩ := of_decide_eq_true hthis
    have hid' : x.repositoryId = r.id := hid
    have hpid' : p.repositoryId = r.id := hpid
    have hd' : x.refDigest = row.digest := hd
    refine ⟨_, mem_map.mpr ⟨p, mem_filter.mpr
      ⟨mem_filter.mpr ⟨hp, ?_⟩, decide_eq_true hpid'⟩, rfl⟩, hpd, ?_⟩
    · rw [hpid']
      simpa using hin
    -- the reference has no blob, as a manifest has its digest
    have hnoblob : Table.find BlobRow.digest x.refDigest s.blobs = none := by
      cases hfind : Table.find BlobRow.digest x.refDigest s.blobs with
      | none => rfl
      | some b =>
        obtain ⟨hb, hbd⟩ := Table.find_some hfind
        exact absurd (hbd.trans hd') (hblobs b hb row (mem_filter.mp hrow).1)
    refine mem_map.mpr ⟨(x, none), mem_filter.mpr ⟨mem_filter.mpr ⟨?_, ?_⟩, ?_⟩, hd⟩
    · refine mem_map.mpr ⟨x, mem_filter.mpr ⟨hx, ?_⟩, ?_⟩
      · rw [hid']
        simpa using hin
      · rw [hnoblob]
        rfl
    · exact decide_eq_true ⟨hid', hpd.symm⟩
    · rw [Bool.and_eq_true]
      refine ⟨rfl, any_eq_true.mpr ⟨row, hrow, ?_⟩⟩
      exact decide_eq_true ⟨of_decide_eq_true hrowid, hd'.symm⟩
  · intro repo hrepo p hp c hc
    obtain ⟨⟨r, slug⟩, -, rfl⟩ := mem_map.mp hrepo
    obtain ⟨row, -, rfl⟩ := mem_map.mp hp
    obtain ⟨x, hx, rfl⟩ := mem_map.mp hc
    obtain ⟨hmine, -⟩ := mem_filter.mp hx
    obtain ⟨hxrefs, hxof⟩ := mem_filter.mp hmine
    obtain ⟨ref, href, rfl⟩ := mem_map.mp hxrefs
    obtain ⟨hid, hd⟩ := of_decide_eq_true hxof
    exact ⟨ref, (mem_filter.mp href).1, hid, rfl, hd⟩
  · intro repo hrepo t ht
    obtain ⟨⟨r, slug⟩, -, rfl⟩ := mem_map.mp hrepo
    obtain ⟨row, hrow, rfl⟩ := mem_map.mp ht
    obtain ⟨hrow, hid⟩ := mem_filter.mp hrow
    have hid' : row.repositoryId = r.id := of_decide_eq_true hid
    exact ⟨row, (mem_filter.mp hrow).1, Prod.ext hid' rfl, rfl⟩
  · intro repo hrepo row hrow hid
    obtain ⟨⟨r, slug⟩, hr, rfl⟩ := mem_map.mp hrepo
    obtain ⟨-, hin, -⟩ := mem_scopeRepositories.mp hr
    have hid' : row.repositoryId = r.id := hid
    refine ⟨row.plan, mem_map.mpr ⟨row, mem_filter.mpr
      ⟨mem_filter.mpr ⟨hrow, ?_⟩, decide_eq_true hid'⟩, rfl⟩, rfl, rfl⟩
    rw [hid']
    simpa using hin
  · intro repo hrepo name
    obtain ⟨⟨r, slug⟩, hr, rfl⟩ := mem_map.mp hrepo
    obtain ⟨hmem, -⟩ := mem_scopeRepositories.mp hr
    have hfree : ¬ ProtectedTag (scopeOf localeCompare s
        (s.manifests.filter fun m => ids.contains m.repositoryId) (s.scopeRefs ids)
        (s.tags.filter fun t => ids.contains t.repositoryId) (r, slug)) name ↔
        Registryd.protectedRule (s.rulesOf r) name = none := by
      have heffective : Registryd.protectedRule (effectiveTagRules localeCompare s r.orgId r.id)
          name = none ↔ Registryd.protectedRule (s.rulesOf r) name = none :=
        effectiveTagRules_protected
      rw [← heffective, ← tagFlags_protected, ← Option.not_isSome_iff_eq_none]
      rfl
    rw [← not_iff_not, hfree, Bool.not_eq_true, protects_eq_false]
    constructor
    · intro hnone
      exact hnone r hmem rfl
    · intro hnone x hx hid
      rw [hvalid.repositoryIds.eq_of_key hx hmem hid]
      exact hnone

theorem loadedScope_keys (hvalid : s.Valid)
    (hmanifests : Table.Keyed (fun m : ManifestRow => (m.repositoryId, m.digest)) s.manifests) :
    ScopeKeys (loadedScope localeCompare s ids) := by
  refine ⟨?_, ?_, ?_⟩
  · have hids : (loadedScope localeCompare s ids).map (·.id) =
        (s.scopeRepositories ids).map (·.1.id) := by
      simp [loadedScope, scopeOf, Function.comp_def]
    have hsub (l : List Repository) : ((l.filterMap fun r =>
        if ids.contains r.id then (s.findOrganization r.orgId).map fun o => (r, o.slug)
        else none).map (·.1.id)).Sublist (l.map (·.id)) := by
      induction l with
      | nil => exact List.Sublist.slnil
      | cons r l ih =>
        rw [filterMap_cons, map_cons]
        split
        · exact ih.cons _
        · rename_i x hx
          split at hx
          · obtain ⟨o, -, rfl⟩ := Option.map_eq_some_iff.mp hx
            exact ih.cons_cons _
          · cases hx
    rw [hids]
    exact hvalid.repositoryIds.sublist (hsub s.repositories)
  · intro repo hrepo
    obtain ⟨⟨r, slug⟩, -, rfl⟩ := mem_map.mp hrepo
    have hdigests : (scopeOf localeCompare s
        (s.manifests.filter fun m => ids.contains m.repositoryId) (s.scopeRefs ids)
        (s.tags.filter fun t => ids.contains t.repositoryId) (r, slug)).manifests.map (·.digest) =
        ((s.manifests.filter fun m => ids.contains m.repositoryId).filter
          fun m => decide (m.repositoryId = r.id)).map (·.digest) := by
      simp [scopeOf, Function.comp_def]
    rw [hdigests]
    refine List.Nodup.map_on ?_ ((hmanifests.of_map _).filter _ |>.filter _)
    intro a ha b hb heq
    obtain ⟨ha, haid⟩ := mem_filter.mp ha
    obtain ⟨hb, hbid⟩ := mem_filter.mp hb
    exact hmanifests.eq_of_key (mem_filter.mp ha).1 (mem_filter.mp hb).1
      (Prod.ext ((of_decide_eq_true haid).trans (of_decide_eq_true hbid).symm) heq)
  · intro repo hrepo
    obtain ⟨⟨r, slug⟩, -, rfl⟩ := mem_map.mp hrepo
    have hnames : (scopeOf localeCompare s
        (s.manifests.filter fun m => ids.contains m.repositoryId) (s.scopeRefs ids)
        (s.tags.filter fun t => ids.contains t.repositoryId) (r, slug)).tags.map (·.name) =
        ((s.tags.filter fun t => ids.contains t.repositoryId).filter
          fun t => decide (t.repositoryId = r.id)).map (·.name) := by
      simp [scopeOf, TagRow.plan, Function.comp_def]
    rw [hnames]
    refine List.Nodup.map_on ?_ ((hvalid.tagNames.of_map _).filter _ |>.filter _)
    intro a ha b hb heq
    obtain ⟨ha, haid⟩ := mem_filter.mp ha
    obtain ⟨hb, hbid⟩ := mem_filter.mp hb
    exact hvalid.tagNames.eq_of_key (mem_filter.mp ha).1 (mem_filter.mp hb).1
      (Prod.ext ((of_decide_eq_true haid).trans (of_decide_eq_true hbid).symm) heq)

end Loaded

/-! ## A signature with a tag of its own -/

section Signed

/-- An image with its signature, which carries a tag of its own, younger than the tag of the
image; and another image, younger still. -/
def taggedTables : Tables :=
  { organizations := [⟨"o1", "acme"⟩]
    repositories := [⟨"r1", "o1", "app", .private⟩]
    issued := ["r1"]
    manifests := [⟨"r1", "sha256:app", none, 0⟩, ⟨"r1", "sha256:sig", some "sha256:app", 1⟩,
      ⟨"r1", "sha256:next", none, 2⟩]
    manifestRefs := [⟨"r1", "sha256:app", "sha256:layer"⟩, ⟨"r1", "sha256:sig", "sha256:bundle"⟩,
      ⟨"r1", "sha256:next", "sha256:base"⟩]
    tags := [⟨"r1", "old", "sha256:app", 0, 0, none⟩, ⟨"r1", "signed", "sha256:sig", 1, 1, none⟩,
      ⟨"r1", "new", "sha256:next", 2, 2, none⟩]
    blobs := [⟨"sha256:layer", 10⟩, ⟨"sha256:bundle", 2⟩, ⟨"sha256:base", 5⟩] }

def taggedScope : ScopeRepository :=
  { id := "r1"
    path := "acme/app"
    manifests := [⟨"sha256:app", 0, none, [⟨"sha256:layer", 10⟩], []⟩,
      ⟨"sha256:sig", 1, some "sha256:app", [⟨"sha256:bundle", 2⟩], []⟩,
      ⟨"sha256:next", 2, none, [⟨"sha256:base", 5⟩], []⟩]
    tags := [⟨"old", "sha256:app", 0⟩, ⟨"signed", "sha256:sig", 1⟩, ⟨"new", "sha256:next", 2⟩]
    rules := [] }

theorem loadedScope_tagged : loadedScope compare taggedTables ["r1"] = [taggedScope] := by
  decide +kernel

theorem taggedTables_valid : taggedTables.Valid :=
  ⟨by decide, by decide, by decide, by decide, by decide, by decide⟩

theorem plan_tagged (limitBytes : Nat) (steps : List CleanupStep)
    (hrun : (planPruneToFit [taggedScope] compare limitBytes).any
      (fun plan => decide (plan.steps.map PruneStep.cleanup = steps)) = true) :
    ∃ plan, planPruneToFit (loadedScope compare taggedTables ["r1"]) compare limitBytes = some plan ∧
      plan.steps.map PruneStep.cleanup = steps := by
  rw [loadedScope_tagged]
  obtain ⟨plan, hplan, hsteps⟩ := (Option.any_eq_true _ _).mp hrun
  exact ⟨plan, hplan, of_decide_eq_true hsteps⟩

/-- With room for the last image the tag of the signature never has its turn. -/
theorem prune_steps_executable_tagged : ∃ plan,
    planPruneToFit (loadedScope compare taggedTables ["r1"]) compare 7 = some plan ∧
      plan.steps.map PruneStep.cleanup =
        [.tag "r1" "old", .manifest "r1" "sha256:sig", .manifest "r1" "sha256:app"] ∧
      MissingChecksPass (loadedScope compare taggedTables ["r1"]) compare 7 := by
  have hsort : tagsByAge [taggedScope] compare = taggedScope.tags.map fun t => (taggedScope, t) :=
    mergeSort_of_pairwise (by decide +kernel)
  obtain ⟨plan, hplan, hsteps⟩ := plan_tagged 7
    [.tag "r1" "old", .manifest "r1" "sha256:sig", .manifest "r1" "sha256:app"] (by
      unfold planPruneToFit
      rw [hsort]
      decide +kernel)
  have hexec : Executes taggedTables
      [.tag "r1" "old", .manifest "r1" "sha256:sig", .manifest "r1" "sha256:app"] :=
    .cons (.tag ⟨⟨"r1", "old", "sha256:app", 0, 0, none⟩, by decide, by decide⟩ (by decide))
      (.cons (.manifest (by decide) (by decide) (by decide))
        (.cons (.manifest (by decide) (by decide) (by decide)) (.nil _)))
  have hserves : Serves taggedTables "r1" :=
    (loadedScope_shows taggedTables_valid (by decide)).serves taggedScope
      (loadedScope_tagged ▸ mem_singleton_self taggedScope)
  refine ⟨plan, hplan, hsteps, (prune_steps_executable_iff
    (loadedScope_keys taggedTables_valid (by decide))
    (loadedScope_shows taggedTables_valid (by decide)) hplan).mp ?_⟩
  rw [hsteps]
  refine ⟨hexec, executable_of_executes hexec ?_⟩
  simpa [CleanupStep.repositoryId] using hserves

/-- The tag of the signature goes with the image that is signed, and is deleted once more when
its own turn comes. -/
theorem cascaded_tag_refused : ScopeKeys (loadedScope compare taggedTables ["r1"]) ∧
    Shows taggedTables (loadedScope compare taggedTables ["r1"]) ∧ ∃ plan,
      planPruneToFit (loadedScope compare taggedTables ["r1"]) compare 0 = some plan ∧
        ¬ Executes taggedTables (plan.steps.map PruneStep.cleanup) := by
  refine ⟨loadedScope_keys taggedTables_valid (by decide),
    loadedScope_shows taggedTables_valid (by decide), ?_⟩
  have hsort : tagsByAge [taggedScope] compare = taggedScope.tags.map fun t => (taggedScope, t) :=
    mergeSort_of_pairwise (by decide +kernel)
  obtain ⟨plan, hplan, hsteps⟩ := plan_tagged 0
    [.tag "r1" "old", .manifest "r1" "sha256:sig", .manifest "r1" "sha256:app",
      .tag "r1" "signed", .tag "r1" "new", .manifest "r1" "sha256:next"] (by
      unfold planPruneToFit
      rw [hsort]
      decide +kernel)
  refine ⟨plan, hplan, ?_⟩
  rw [hsteps]
  intro hexec
  cases hexec with
  | cons _ hexec =>
  cases hexec with
  | cons _ hexec =>
  cases hexec with
  | cons _ hexec =>
  cases hexec with
  | cons hallowed _ =>
    cases hallowed with
    | tag hrow _ =>
      obtain ⟨row, hrow, hkey⟩ := hrow
      have hleft : row ∈ [(⟨"r1", "new", "sha256:next", 2, 2, none⟩ : TagRow)] := hrow
      rw [mem_singleton.mp hleft] at hkey
      exact absurd hkey (by decide)

end Signed

end Chicoree.Images
