import Chicoree.Lib.Distinct
import Chicoree.Images.PruneExecuted
import Chicoree.Images.PruneToTheEnd

/-! # What a plan counts

The planner keeps, for each blob, the number of live manifests that name it. As long as no
manifest is dropped twice the numbers are right, and what a plan says is left are the distinct
bytes that the live manifests name. -/

namespace Chicoree.Images

open List
open Registryd (Digest)
open Pruning (mem_drop_live)

/-! ## Entries -/

section Entries

variable {κ ν : Type} [DecidableEq κ]

theorem lookup_setEntry (k k' : κ) (v : ν) (es : List (κ × ν)) :
    (setEntry k v es).lookup k' = if k' = k then some v else es.lookup k' := by
  induction es with
  | nil =>
    by_cases h : k' = k
    · simp [setEntry, h]
    · have hbeq : (k' == k) = false := by simpa using h
      simp [setEntry, lookup_cons, hbeq, h]
  | cons e es ih =>
    obtain ⟨k₀, v₀⟩ := e
    by_cases he : k₀ = k
    · subst he
      by_cases h : k' = k₀
      · simp [setEntry, h]
      · have hbeq : (k' == k₀) = false := by simpa using h
        simp [setEntry, lookup_cons, hbeq, h]
    · simp only [setEntry, he, if_false, lookup_cons]
      by_cases h₀ : k' = k₀
      · subst h₀
        simp [he]
      · have hbeq : (k' == k₀) = false := by simpa using h₀
        rw [hbeq]
        exact ih

theorem keys_setEntry (k : κ) (v : ν) (es : List (κ × ν)) : (setEntry k v es).map Prod.fst =
      if k ∈ es.map Prod.fst then es.map Prod.fst else es.map Prod.fst ++ [k] := by
  induction es with
  | nil => simp [setEntry]
  | cons e es ih =>
    by_cases he : e.1 = k
    · simp [setEntry, he]
    · have hne : k ≠ e.1 := fun h => he h.symm
      simp only [setEntry, he, if_false, map_cons, ih, mem_cons, hne, false_or]
      split <;> rfl

variable {k : κ} {es : List (κ × ν)}

theorem nodup_setEntry {v : ν} (h : (es.map Prod.fst).Nodup) :
    ((setEntry k v es).map Prod.fst).Nodup := by
  rw [keys_setEntry]
  split
  · exact h
  · rename_i hnew
    refine nodup_append.mpr ⟨h, nodup_singleton k, ?_⟩
    intro a ha b hb hab
    rw [mem_singleton.mp hb] at hab
    exact hnew (hab ▸ ha)

theorem lookup_isSome_iff : (∃ v, es.lookup k = some v) ↔ k ∈ es.map Prod.fst := by
  induction es with
  | nil => simp
  | cons e es ih =>
    obtain ⟨k₀, v₀⟩ := e
    rw [lookup_cons, map_cons, mem_cons]
    by_cases h : k = k₀
    · simp [h]
    · have hbeq : (k == k₀) = false := by simpa using h
      rw [hbeq]
      simp only [h, false_or]
      exact ih

theorem mem_iff_lookup {v : ν} (h : (es.map Prod.fst).Nodup) :
    (k, v) ∈ es ↔ es.lookup k = some v := by
  induction es with
  | nil => simp
  | cons e es ih =>
    obtain ⟨k₀, v₀⟩ := e
    rw [map_cons, nodup_cons] at h
    rw [mem_cons, lookup_cons]
    by_cases hk : k = k₀
    · subst hk
      have hnot : (k, v) ∉ es := fun hin => h.1 (mem_map.mpr ⟨(k, v), hin, rfl⟩)
      simp [hnot, eq_comm]
    · have hbeq : (k == k₀) = false := by simpa using hk
      rw [hbeq, ← ih h.2]
      simp [hk]

end Entries

/-- How many rows name a blob. -/
def countBlobs (l : List ScopeBlob) (d : Digest) : Int :=
  (l.countP fun b => decide (b.digest = d) : Nat)

theorem countBlobs_cons (b : ScopeBlob) (l : List ScopeBlob) (d : Digest) :
    countBlobs (b :: l) d = countBlobs l d + if b.digest = d then 1 else 0 := by
  unfold countBlobs
  rw [countP_cons]
  by_cases h : b.digest = d
  · simp [h]
  · simp [h]

variable {d : Digest} {l : List ScopeBlob}

theorem countBlobs_pos : 0 < countBlobs l d ↔ ∃ b ∈ l, b.digest = d := by
  unfold countBlobs
  have hpos := countP_pos_iff (p := fun b : ScopeBlob => decide (b.digest = d)) (l := l)
  simp only [decide_eq_true_eq] at hpos
  rw [← hpos]
  omega

theorem countBlobs_nonneg (l : List ScopeBlob) (d : Digest) : 0 ≤ countBlobs l d := by
  unfold countBlobs
  omega

theorem lookup_countIn {refs : List (Digest × Int)} :
    (l.foldl (fun refs b => setEntry b.digest ((refs.lookup b.digest).getD 0 + 1) refs)
      refs).lookup d =
      if (∃ b ∈ l, b.digest = d) then some ((refs.lookup d).getD 0 + countBlobs l d)
      else refs.lookup d := by
  induction l generalizing refs with
  | nil => simp
  | cons b l ih =>
    rw [foldl_cons, ih, lookup_setEntry, countBlobs_cons]
    by_cases hb : b.digest = d
    · subst hb
      by_cases hin : ∃ x ∈ l, x.digest = b.digest
      · simp only [hin, if_true, Option.getD_some, mem_cons, exists_eq_or_imp, true_or]
        congr 1
        omega
      · have hzero : countBlobs l b.digest = 0 := by
          have hnonneg := countBlobs_nonneg l b.digest
          have hnot := mt countBlobs_pos.mp hin
          omega
        simp [hin, hzero]
    · have hne : d ≠ b.digest := fun h => hb h.symm
      simp [hb, hne]

section

variable {l : List ScopeBlob} {refs : List (Digest × Int)}
  (hall : ∀ b ∈ l, b.digest ∈ refs.map Prod.fst)
include hall

theorem lookup_countOut :
    (l.foldl (fun refs b => setEntry b.digest ((refs.lookup b.digest).getD 1 - 1) refs)
      refs).lookup d = (refs.lookup d).map (· - countBlobs l d) := by
  induction l generalizing refs with
  | nil => simp [countBlobs]
  | cons b l ih =>
    have hb := hall b mem_cons_self
    have hkeys : (setEntry b.digest ((refs.lookup b.digest).getD 1 - 1) refs).map Prod.fst =
        refs.map Prod.fst := by
      rw [keys_setEntry, if_pos hb]
    rw [foldl_cons, ih (fun x hx => by
      rw [hkeys]
      exact hall x (mem_cons_of_mem b hx)), lookup_setEntry, countBlobs_cons]
    obtain ⟨v, hv⟩ := lookup_isSome_iff.mpr hb
    by_cases hd : d = b.digest
    · subst hd
      simp only [if_true, hv, Option.getD_some, Option.map_some]
      congr 1
      omega
    · have hne : b.digest ≠ d := fun h => hd h.symm
      simp [hd, hne]

theorem keys_countOut :
    (l.foldl (fun refs b => setEntry b.digest ((refs.lookup b.digest).getD 1 - 1) refs)
      refs).map Prod.fst = refs.map Prod.fst := by
  induction l generalizing refs with
  | nil => rfl
  | cons b l ih =>
    have hkeys : (setEntry b.digest ((refs.lookup b.digest).getD 1 - 1) refs).map Prod.fst =
        refs.map Prod.fst := by
      rw [keys_setEntry, if_pos (hall b mem_cons_self)]
    rw [foldl_cons, ih, hkeys]
    intro x hx
    rw [hkeys]
    exact hall x (mem_cons_of_mem b hx)

end

theorem nodup_countIn {refs : List (Digest × Int)} (h : (refs.map Prod.fst).Nodup) :
    ((l.foldl (fun refs b => setEntry b.digest ((refs.lookup b.digest).getD 0 + 1) refs)
      refs).map Prod.fst).Nodup := by
  induction l generalizing refs with
  | nil => exact h
  | cons b _ ih => exact ih (nodup_setEntry h)

/-! ## The blobs of the live manifests -/

variable {m : ScopeManifest}

section Live

variable {repos : List ScopeRepository} {repo : ScopeRepository}

def allBlobs (repos : List ScopeRepository) : List ScopeBlob :=
  repos.flatMap fun r => r.manifests.flatMap (·.blobs)

/-- The blob rows of the manifests that are left. -/
def liveBlobs (repos : List ScopeRepository) (st : Pruning) : List ScopeBlob :=
  repos.flatMap fun r => (r.manifests.filter fun m => st.isLive r.id m.digest).flatMap (·.blobs)

variable {st : Pruning} {b : ScopeBlob}

theorem mem_liveBlobs :
    b ∈ liveBlobs repos st ↔ ∃ r ∈ repos, ∃ m ∈ r.manifests,
      (r.id, m.digest) ∈ st.live ∧ b ∈ m.blobs := by
  simp only [liveBlobs, mem_flatMap, mem_filter, Pruning.isLive_iff, and_assoc]

theorem mem_allBlobs : b ∈ allBlobs repos ↔ ∃ r ∈ repos, ∃ m ∈ r.manifests, b ∈ m.blobs := by
  simp only [allBlobs, mem_flatMap]

theorem liveBlobs_start : liveBlobs repos (startPruning repos) = allBlobs repos := by
  refine flatMap_congr fun r hr => ?_
  rw [filter_eq_self.mpr]
  intro m hm
  exact Pruning.isLive_iff.mpr (mem_startPruning_live hr hm)

theorem count_drop {α : Type} {l : List α} (hnodup : l.Nodup) {f g : α → Int} {a : α}
    (ha : a ∈ l) {n : Int} (hthis : f a = g a + n) (hother : ∀ x ∈ l, x ≠ a → f x = g x) :
    (l.map f).sum = (l.map g).sum + n := by
  induction l with
  | nil => cases ha
  | cons x l ih =>
    obtain ⟨hx, hnodup⟩ := nodup_cons.mp hnodup
    rw [map_cons, map_cons, sum_cons, sum_cons]
    obtain rfl | hin := mem_cons.mp ha
    · have hsame : l.map f = l.map g := by
        refine map_congr_left fun y hy => hother y (mem_cons_of_mem a hy) ?_
        rintro rfl
        exact hx hy
      rw [hsame, hthis]
      omega
    · have hne : x ≠ a := by
        rintro rfl
        exact hx hin
      have hrest := ih hnodup hin fun y hy => hother y (mem_cons_of_mem x hy)
      rw [hother x mem_cons_self hne]
      omega

theorem countBlobs_flatMap {α : Type} (l : List α) (f : α → List ScopeBlob) (d : Digest) :
    countBlobs (l.flatMap f) d = (l.map fun x => countBlobs (f x) d).sum := by
  induction l with
  | nil => rfl
  | cons x l ih =>
    rw [flatMap_cons, map_cons, sum_cons, ← ih]
    unfold countBlobs
    rw [countP_append]
    omega

theorem liveBlobs_drop (hkeys : ScopeKeys repos) (hrepo : repo ∈ repos)
    (hm : m ∈ repo.manifests) (hlive : (repo.id, m.digest) ∈ st.live)
    (reason : String) (d : Digest) :
    countBlobs (liveBlobs repos (st.drop repo m reason)) d =
      countBlobs (liveBlobs repos st) d - countBlobs m.blobs d := by
  have hfilter (s : Pruning) (r : ScopeRepository) :
      countBlobs ((r.manifests.filter fun x => s.isLive r.id x.digest).flatMap (·.blobs)) d =
        (r.manifests.map fun x =>
          if s.isLive r.id x.digest then countBlobs x.blobs d else 0).sum := by
    induction r.manifests with
    | nil => rfl
    | cons x l ih =>
      rw [map_cons, sum_cons, ← ih, filter_cons]
      by_cases hx : s.isLive r.id x.digest = true
      · rw [if_pos hx, if_pos hx, countBlobs_flatMap, countBlobs_flatMap, map_cons, sum_cons]
      · rw [if_neg hx, if_neg hx]
        omega
  unfold liveBlobs
  rw [countBlobs_flatMap, countBlobs_flatMap]
  have hids : repos.Nodup := hkeys.ids.of_map _
  have hdigests : repo.manifests.Nodup := (hkeys.digests repo hrepo).of_map _
  have hsum := count_drop (n := countBlobs m.blobs d) hids hrepo
    (f := fun r => countBlobs
      ((r.manifests.filter fun x => st.isLive r.id x.digest).flatMap (·.blobs)) d)
    (g := fun r => countBlobs ((r.manifests.filter fun x =>
      (st.drop repo m reason).isLive r.id x.digest).flatMap (·.blobs)) d) ?_ ?_
  · omega
  · rw [hfilter st repo, hfilter (st.drop repo m reason) repo]
    refine count_drop hdigests hm ?_ ?_
    · have hbefore : st.isLive repo.id m.digest = true := Pruning.isLive_iff.mpr hlive
      have hafter : ¬ (st.drop repo m reason).isLive repo.id m.digest = true := by
        rw [Pruning.isLive_iff, mem_drop_live]
        exact fun h => h.2 rfl
      rw [if_pos hbefore, if_neg hafter]
      omega
    · intro x hx hne
      have hsame : (st.drop repo m reason).isLive repo.id x.digest = true ↔
          st.isLive repo.id x.digest = true := by
        rw [Pruning.isLive_iff, Pruning.isLive_iff, mem_drop_live]
        refine and_iff_left ?_
        intro heq
        exact hne (inj_on_of_nodup_map (hkeys.digests repo hrepo) hx hm
          (Prod.mk.inj heq).2)
      simp only [hsame]
  · intro r hr hne
    have hsame (x : ScopeManifest) : (st.drop repo m reason).isLive r.id x.digest =
        st.isLive r.id x.digest := by
      rw [Bool.eq_iff_iff, Pruning.isLive_iff, Pruning.isLive_iff, mem_drop_live]
      refine and_iff_left ?_
      intro heq
      exact hne (repo_eq_of_id hkeys hrepo hr (Prod.mk.inj heq).1)
    simp only [hsame]

end Live

/-! ## The accounts of a plan -/

section Accounts

variable {repos : List ScopeRepository} {repo : ScopeRepository}

/-- Every manifest is live or was dropped, and the count of a blob is the number of live
manifests that name it, as long as none was dropped twice. -/
structure Counted (repos : List ScopeRepository) (st : Pruning) : Prop where
  accounted : ∀ repo ∈ repos, ∀ m ∈ repo.manifests,
    (repo.id, m.digest) ∈ st.live ∨ (repo.id, m.digest) ∈ droppedBy st.steps
  dead : ∀ l ∈ droppedBy st.steps, l ∉ st.live
  keys : st.blobRefs.map Prod.fst = (startPruning repos).blobRefs.map Prod.fst
  counts : (droppedBy st.steps).Nodup → ∀ d ∈ st.blobRefs.map Prod.fst,
    st.blobRefs.lookup d = some (countBlobs (liveBlobs repos st) d)
  taken : ∀ x ∈ st.removedTags, ∃ step ∈ st.steps,
    step.kind = .tag ∧ step.repositoryId = x.1 ∧ step.ref = x.2

theorem lookup_start : (startPruning repos).blobRefs.lookup d =
    if (∃ b ∈ allBlobs repos, b.digest = d) then some (countBlobs (allBlobs repos) d)
    else none := by
  have hloop : (startPruning repos).blobRefs.lookup d = _ := lookup_countIn (l := allBlobs repos)
  rw [hloop]
  simp

theorem mem_keys_start : d ∈ (startPruning repos).blobRefs.map Prod.fst ↔
    ∃ b ∈ allBlobs repos, b.digest = d := by
  rw [← lookup_isSome_iff, lookup_start]
  by_cases h : ∃ b ∈ allBlobs repos, b.digest = d
  · simp [h]
  · simp [h]

theorem counted_start : Counted repos (startPruning repos) where
  accounted r hr m hm := .inl (mem_startPruning_live hr hm)
  dead l hl := by cases hl
  keys := rfl
  counts := by
    intro _ d hd
    rw [liveBlobs_start, lookup_start, if_pos (mem_keys_start.mp hd)]
  taken x hx := by cases hx

variable {st : Pruning}

variable {reason : String} {t : PlanTag}

theorem Counted.drop (hkeys : ScopeKeys repos) (hrepo : repo ∈ repos)
    (h : Counted repos st) (hm : m ∈ repo.manifests) :
    Counted repos (st.drop repo m reason) := by
  have hall : ∀ b ∈ m.blobs, b.digest ∈ st.blobRefs.map Prod.fst := by
    intro b hb
    rw [h.keys, mem_keys_start]
    exact ⟨b, mem_allBlobs.mpr ⟨repo, hrepo, m, hm, hb⟩, rfl⟩
  have hkept : (st.drop repo m reason).blobRefs.map Prod.fst = st.blobRefs.map Prod.fst :=
    keys_countOut hall
  refine ⟨?_, ?_, hkept.trans h.keys, ?_, ?_⟩
  · intro r hr x hx
    rw [droppedBy_drop, mem_append, mem_singleton]
    by_cases hthis : (r.id, x.digest) = (repo.id, m.digest)
    · exact .inr (.inr hthis)
    · obtain hlive | hdropped := h.accounted r hr x hx
      · exact .inl (mem_drop_live.mpr ⟨hlive, hthis⟩)
      · exact .inr (.inl hdropped)
  · intro l hl hlive
    obtain ⟨hbefore, hne⟩ := mem_drop_live.mp hlive
    rw [droppedBy_drop, mem_append, mem_singleton] at hl
    obtain hold | hnew := hl
    · exact h.dead l hold hbefore
    · exact hne hnew
  · intro hnodup d hd
    rw [droppedBy_drop] at hnodup
    obtain ⟨hbefore, -, hnew⟩ := nodup_append.mp hnodup
    -- what is dropped for the first time is still live
    have hlive : (repo.id, m.digest) ∈ st.live := by
      obtain hlive | hdropped := h.accounted repo hrepo m hm
      · exact hlive
      · exact absurd rfl (hnew _ hdropped _ (mem_singleton_self _))
    rw [hkept] at hd
    rw [liveBlobs_drop hkeys hrepo hm hlive]
    have hout : (st.drop repo m reason).blobRefs.lookup d =
        (st.blobRefs.lookup d).map (· - countBlobs m.blobs d) := lookup_countOut hall
    rw [hout, h.counts hbefore d hd]
    rfl
  · intro x hx
    obtain ⟨step, hstep, hthis⟩ := h.taken x hx
    exact ⟨step, mem_append_left _ hstep, hthis⟩

theorem Counted.take (h : Counted repos st) : Counted repos (st.take repo t) where
  accounted r hr m hm := by
    rw [droppedBy_take]
    exact h.accounted r hr m hm
  dead l hl := by
    rw [droppedBy_take] at hl
    exact h.dead l hl
  keys := h.keys
  counts hnodup d hd := by
    rw [droppedBy_take] at hnodup
    exact h.counts hnodup d hd
  taken x hx := by
    rw [Pruning.take_removedTags, mem_append, mem_singleton] at hx
    obtain hold | rfl := hx
    · obtain ⟨step, hstep, hthis⟩ := h.taken x hold
      exact ⟨step, mem_append_left _ hstep, hthis⟩
    · exact ⟨_, mem_append_right _ (mem_singleton_self _), rfl, rfl, rfl⟩

theorem counted_rule (hkeys : ScopeKeys repos) (hrepo : repo ∈ repos) :
    RemovalRule repos repo (Counted repos) (fun _ _ => True) where
  later _ _ := trivial
  referrer _ _ _ _ := trivial
  drop hst hm _ _ := hst.drop hkeys hrepo hm
  child _ _ _ _ _ _ _ := trivial

variable {limitBytes : Nat}

theorem pruneLeftovers_counted (hkeys : ScopeKeys repos)
    (h : pruneLeftovers repos limitBytes (leftovers repos (startPruning repos))
      (startPruning repos) = some st) : Counted repos st := by
  refine pruneLeftovers_kept (fun repo m s s₁ hx hs hremove => ?_) counted_start h
  have hrepo := (mem_leftovers.mp hx).1
  exact (counted_rule hkeys hrepo).removeManifest hkeys hrepo hs trivial hremove

theorem pruneTags_counted (hkeys : ScopeKeys repos)
    {l : List (ScopeRepository × PlanTag)} (hl : ∀ x ∈ l, x.1 ∈ repos) {st' : Pruning}
    (hst : Counted repos st) (h : pruneTags repos limitBytes l st = some st') :
    Counted repos st' := by
  refine pruneTags_kept (fun repo t s _ _ hs => hs.take)
    (fun repo t s s₁ hx _ hs _ _ hremove => ?_) hst h
  exact (counted_rule hkeys (hl _ hx)).removeManifest hkeys (hl _ hx) hs.take trivial hremove

variable {localeCompare : String → String → Ordering} {plan : PrunePlan}

/-- The numbers are right in every plan. -/
theorem planPruneToFit_counted (hkeys : ScopeKeys repos)
    (h : planPruneToFit repos localeCompare limitBytes = some plan) :
    ∃ st, Counted repos st ∧ plan.steps = st.steps ∧ plan.afterBytes = st.usage repos ∧
      (plan.unmet = true ↔ limitBytes < st.usage repos) := by
  obtain ⟨hfits, rfl⟩ | ⟨st₁, st₂, -, h₁, h₂, rfl⟩ := planPruneToFit_cases h
  · exact ⟨startPruning repos, counted_start, rfl, rfl, by simpa using hfits⟩
  · have hend : Counted repos st₂ := pruneTags_counted hkeys
      (fun _ hx => (mem_tagsByAge.mp hx).1) (pruneLeftovers_counted hkeys h₁) h₂
    exact ⟨st₂, hend, rfl, rfl, by simp⟩

theorem planPruneToFit_before (repos : List ScopeRepository)
    (localeCompare : String → String → Ordering) :
    ∃ (before : Nat) (plan : PrunePlan), plan.steps = [] ∧
      planPruneToFit repos localeCompare before = some plan ∧ plan.afterBytes = before := by
  let before := (startPruning repos).usage repos
  refine ⟨before, ⟨[], before, before, false⟩, rfl, ?_, rfl⟩
  exact if_pos (Nat.le_refl _)

/-! ## Usage -/

variable {sizeOf : Digest → Nat}

theorem lookup_blobSizes (hsizes : ∀ b ∈ allBlobs repos,
    b.size = sizeOf b.digest) (hd : ∃ b ∈ allBlobs repos, b.digest = d) :
    (blobSizes repos).lookup d = some (sizeOf d) := by
  have hloop (l : List ScopeBlob) (sizes : List (Digest × Nat))
      (hl : ∀ b ∈ l, b.size = sizeOf b.digest) :
      (l.foldl (fun sizes b => setEntry b.digest b.size sizes) sizes).lookup d =
        if (∃ b ∈ l, b.digest = d) then some (sizeOf d) else sizes.lookup d := by
    induction l generalizing sizes with
    | nil => simp
    | cons b l ih =>
      rw [foldl_cons, ih _ fun x hx => hl x (mem_cons_of_mem b hx), lookup_setEntry]
      by_cases hb : b.digest = d
      · subst hb
        simp [hl b mem_cons_self]
      · have hne : d ≠ b.digest := fun h => hb h.symm
        simp [hb, hne]
  have hsome := hloop (allBlobs repos) [] hsizes
  rw [if_pos hd] at hsome
  exact hsome

theorem Counted.usage (h : Counted repos st) (hnodup : (droppedBy st.steps).Nodup)
    (hsizes : ∀ b ∈ allBlobs repos, b.size = sizeOf b.digest) :
    st.usage repos = Distinct.total sizeOf ((liveBlobs repos st).map (·.digest)) := by
  have hkeysNodup : (st.blobRefs.map Prod.fst).Nodup := by
    rw [h.keys]
    exact nodup_countIn nodup_nil
  have hsum (es : List (Digest × Int)) (n : Nat)
      (hin : ∀ e ∈ es, ∃ b ∈ allBlobs repos, b.digest = e.1) :
      es.foldl (fun sum e =>
        if 0 < e.2 then sum + ((blobSizes repos).lookup e.1).getD 0 else sum) n =
      n + ((es.filter fun e => decide (0 < e.2)).map fun e => sizeOf e.1).sum := by
    induction es generalizing n with
    | nil => rfl
    | cons e es ih =>
      rw [foldl_cons, ih _ fun x hx => hin x (mem_cons_of_mem e hx), filter_cons]
      by_cases hpos : 0 < e.2
      · simp only [hpos, decide_true, if_true, map_cons, sum_cons]
        rw [lookup_blobSizes hsizes (hin e mem_cons_self), Option.getD_some]
        omega
      · simp [hpos]
  have hin : ∀ e ∈ st.blobRefs, ∃ b ∈ allBlobs repos, b.digest = e.1 := by
    intro e he
    rw [← mem_keys_start, ← h.keys]
    exact mem_map.mpr ⟨e, he, rfl⟩
  unfold Pruning.usage
  rw [hsum _ 0 hin, Nat.zero_add]
  -- the counted digests are those of the live manifests, each once
  have hfilterNodup : ((st.blobRefs.filter fun e => decide (0 < e.2)).map Prod.fst).Nodup :=
    hkeysNodup.sublist (filter_sublist.map Prod.fst)
  have htotal : Distinct.total sizeOf ((liveBlobs repos st).map (·.digest)) = Distinct.total sizeOf
        ((st.blobRefs.filter fun e => decide (0 < e.2)).map Prod.fst) := by
    refine Distinct.total_congr fun d => ?_
    simp only [mem_map, mem_filter, decide_eq_true_eq]
    rw [← countBlobs_pos]
    constructor
    · intro hpos
      obtain ⟨b, hb, rfl⟩ := countBlobs_pos.mp hpos
      have hd : b.digest ∈ st.blobRefs.map Prod.fst := by
        obtain ⟨r, hr, m, hm, -, hmem⟩ := mem_liveBlobs.mp hb
        rw [h.keys, mem_keys_start]
        exact ⟨b, mem_allBlobs.mpr ⟨r, hr, m, hm, hmem⟩, rfl⟩
      have hlookup := h.counts hnodup b.digest hd
      exact ⟨(b.digest, _), ⟨(mem_iff_lookup hkeysNodup).mpr hlookup, hpos⟩, rfl⟩
    · intro ⟨(d', n), ⟨he, hpos⟩, hd⟩
      obtain rfl : d' = d := hd
      have hkey : d' ∈ st.blobRefs.map Prod.fst := mem_map.mpr ⟨(d', n), he, rfl⟩
      have hlookup := h.counts hnodup d' hkey
      rw [(mem_iff_lookup hkeysNodup).mp he] at hlookup
      rw [← Option.some.inj hlookup]
      exact hpos
  rw [htotal]
  unfold Distinct.total
  rw [dedup_eq_self.mpr hfilterNodup, map_map]
  rfl

theorem nodup_of_executes {s : Tables} {steps : List PruneStep}
    (h : Executes s (steps.map PruneStep.cleanup)) : (droppedBy steps).Nodup := by
  induction steps using List.reverseRecOn with
  | nil => exact nodup_nil
  | append_singleton steps step ih =>
    rw [map_append] at h
    obtain ⟨hbefore, hallowed⟩ := executes_append.mp h
    rw [droppedBy_append]
    cases hkind : step.kind with
    | tag =>
      have hnone : droppedBy [step] = [] := by simp [droppedBy, hkind]
      rw [hnone, append_nil]
      exact ih hbefore
    | manifest =>
      have hone : droppedBy [step] = [(step.repositoryId, step.ref)] := by
        simp [droppedBy, hkind]
      have hcleanup : step.cleanup = .manifest step.repositoryId step.ref := by
        simp [PruneStep.cleanup, hkind]
      rw [hcleanup] at hallowed
      cases hallowed with
      | manifest hexists =>
        have hnew := (manifestExists_runSteps.mp hexists).2
        rw [mem_cleanup_manifest] at hnew
        rw [hone]
        refine nodup_append.mpr ⟨ih hbefore, nodup_singleton _, ?_⟩
        intro x hx y hy hxy
        rw [mem_singleton.mp hy] at hxy
        exact hnew (hxy ▸ hx)

/-- A tag that an unmet plan leaves has the digest of a protected one. -/
theorem unmet_leaves_protected (hkeys : ScopeKeys repos)
    (h : planPruneToFit repos localeCompare limitBytes = some plan) (hunmet : plan.unmet = true)
    (hrepo : repo ∈ repos) (ht : t ∈ repo.tags)
    (hleft : ∀ step ∈ plan.steps, ¬(step.kind = .tag ∧ step.repositoryId = repo.id ∧
      step.ref = t.name)) :
    ∃ t' ∈ repo.tags, t'.digest = t.digest ∧ ProtectedTag repo t'.name := by
  obtain ⟨-, rfl⟩ | ⟨st₁, st₂, -, h₁, h₂, rfl⟩ := planPruneToFit_cases h
  · cases hunmet
  have hover₂ : limitBytes < st₂.usage repos := of_decide_eq_true hunmet
  have hover₁ : limitBytes < st₁.usage repos := by
    by_contra hfits
    have hsame : st₂ = st₁ := by
      cases htags : tagsByAge repos localeCompare with
      | nil =>
        rw [htags, pruneTags] at h₂
        exact (Option.some.inj h₂).symm
      | cons x rest =>
        rw [htags, pruneTags, if_pos (Nat.not_lt.mp hfits)] at h₂
        exact (Option.some.inj h₂).symm
    rw [hsame] at hover₂
    exact hfits hover₂
  have hend : Counted repos st₂ := pruneTags_counted hkeys
    (fun _ hx => (mem_tagsByAge.mp hx).1) (pruneLeftovers_counted hkeys h₁) h₂
  obtain htaken | hprotected := (runOut_of_over hkeys h₁ hover₁ h₂ hover₂).tags repo hrepo t ht
  · obtain ⟨step, hstep, hthis⟩ := hend.taken _ htaken
    exact absurd hthis (hleft step hstep)
  · exact hprotected

end Accounts

end Chicoree.Images
