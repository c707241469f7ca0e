import Chicoree.Images.PruneLoops

/-! # A plan that runs out of things to remove

What the picture looks like where neither loop stopped early: subjects outlive what is
attached to them, only attachments are left without a tag and an index, and every tag that
is left names an image that a protected tag names. -/

namespace Chicoree.Images

open Option
open List
open Registryd (Digest RepoId)
open Folds (foldlM_rule foldlM_keeps)
open Pruning (Later mem_liveParents mem_liveReferrers mem_tagsOf mem_drop_live later_drop)

variable {repos : List ScopeRepository} {repo : ScopeRepository}

/-! ## Subjects -/

/-- What is attached to a manifest does not outlive it. -/
def SubjectsLive (repos : List ScopeRepository) (st : Pruning) : Prop :=
  ∀ repo ∈ repos, ∀ m ∈ repo.manifests, ∀ s ∈ repo.manifests, m.subjectDigest = some s.digest →
    (repo.id, m.digest) ∈ st.live → (repo.id, s.digest) ∈ st.live

theorem subjectsLive_rule (hkeys : ScopeKeys repos) (hrepo : repo ∈ repos) :
    RemovalRule repos repo (SubjectsLive repos) (fun _ _ => True) where
  later _ _ := trivial
  referrer _ _ _ _ := trivial
  drop := by
    intro st m reason hst _ _ hno r hr x hx s hs hsubject hlive
    obtain ⟨hxlive, -⟩ := mem_drop_live.mp hlive
    refine mem_drop_live.mpr ⟨hst r hr x hx s hs hsubject hxlive, ?_⟩
    intro heq
    obtain ⟨hid, hdigest⟩ := Prod.mk.injEq .. ▸ heq
    obtain rfl := repo_eq_of_id hkeys hrepo hr hid
    have hmem : x ∈ st.liveReferrers repos r.id m.digest :=
      (mem_liveReferrers hkeys hr).mpr ⟨hx, hxlive, by rw [hsubject, hdigest]⟩
    rw [hno] at hmem
    cases hmem
  child _ _ _ _ _ _ _ := trivial

/-! ## Orphans -/

/-- The live manifests that no tag names and no live index lists are among the given. -/
def OrphansIn (repos : List ScopeRepository) (A : RepoId → Digest → Prop) (st : Pruning) : Prop :=
  ∀ repo ∈ repos, ∀ m ∈ repo.manifests, (repo.id, m.digest) ∈ st.live →
    st.tagsOf repos repo.id m.digest = [] → st.liveParents repos repo.id m.digest = [] →
    A repo.id m.digest

variable {st : Pruning}

theorem OrphansIn.mono {A B : RepoId → Digest → Prop}
    (h : OrphansIn repos A st) (hAB : ∀ id d, A id d → B id d) : OrphansIn repos B st :=
  fun r hr m hm hlive htags hparents => hAB _ _ (h r hr m hm hlive htags hparents)

variable {d : Digest}

section

variable {A : RepoId → Digest → Prop} (hkeys : ScopeKeys repos) (hrepo : repo ∈ repos)
  (hst : OrphansIn repos A st)
include hkeys hrepo hst

theorem OrphansIn.drop {m : ScopeManifest} (hm : m ∈ repo.manifests) (reason : String) :
    OrphansIn repos (fun id d => A id d ∨ id = repo.id ∧ d ∈ m.children)
      (st.drop repo m reason) := by
  intro r hr x hx hlive htags hparents
  have hlater : Later st (st.drop repo m reason) := later_drop st m reason
  by_cases hbefore : st.liveParents repos r.id x.digest = []
  · rw [hlater.tagsOf] at htags
    exact .inl (hst r hr x hx (hlater.live _ hlive) htags hbefore)
  · right
    obtain ⟨p, hp⟩ := exists_mem_of_ne_nil _ hbefore
    obtain ⟨hpmem, hplive, hchild⟩ := (mem_liveParents hkeys hr).mp hp
    -- its parent is the manifest that was dropped
    have hgone : (r.id, p.digest) = (repo.id, m.digest) := by
      by_contra hne
      have hp' : p ∈ (st.drop repo m reason).liveParents repos r.id x.digest :=
        (mem_liveParents hkeys hr).mpr ⟨hpmem, mem_drop_live.mpr ⟨hplive, hne⟩, hchild⟩
      rw [hparents] at hp'
      cases hp'
    obtain ⟨hid, hdigest⟩ := Prod.mk.injEq .. ▸ hgone
    obtain rfl := repo_eq_of_id hkeys hrepo hr hid
    have hpm : p = m := inj_on_of_nodup_map (hkeys.digests r hr) hpmem hm hdigest
    exact ⟨rfl, hpm ▸ hchild⟩

theorem removeManifest_orphans {fuel : Nat} {st' : Pruning} {reason : String}
  (h : removeManifest repos fuel st repo d reason = some st') : OrphansIn repos A st' := by
  induction fuel generalizing A st st' d reason with
  | zero => cases h
  | succ fuel ih =>
    obtain ⟨rfl, -⟩ | ⟨n, m, st₁, hn, hm, -, hrefs, hchildren⟩ := removeManifest_cases h
    · exact hst
    obtain rfl : fuel = n := by omega
    obtain ⟨hmem, rfl⟩ := (manifestOf_eq_some hkeys hrepo).mp hm
    have h₁ : OrphansIn repos A st₁ := foldlM_keeps (fun r _ s s' hs hr => ih hs hr) hst hrefs
    -- the children that wait for their turn may be orphans meanwhile
    have hend := foldlM_rule
      (J := fun rest s => OrphansIn repos (fun id d => A id d ∨ id = repo.id ∧ d ∈ rest) s)
      (fun c rest s s' hs hturn => by
        intro r hr x hx hlive htags hparents
        obtain ⟨rfl, hneeded⟩ | ⟨-, -, -, hremove⟩ := removeChild_cases hturn
        · obtain hA | ⟨hid, hmem⟩ := hs r hr x hx hlive htags hparents
          · exact .inl hA
          obtain hc | hrest := mem_cons.mp hmem
          · subst hc
            rw [← hid] at hneeded
            obtain hno | hno | hno := hneeded
            · exact absurd hlive hno
            · exact absurd hparents hno
            · exact absurd htags hno
          · exact .inr ⟨hid, hrest⟩
        · obtain hA | ⟨hid, hmem⟩ := ih hs hremove r hr x hx hlive htags hparents
          · exact .inl hA
          obtain hc | hrest := mem_cons.mp hmem
          · obtain rfl := repo_eq_of_id hkeys hrepo hr hid
            subst hc
            have hsome : manifestOf repos r.id x.digest ≠ none := by
              rw [(manifestOf_eq_some hkeys hr).mpr ⟨hx, rfl⟩]
              exact some_ne_none x
            exact absurd hlive (removeManifest_gone hsome hremove)
          · exact .inr ⟨hid, hrest⟩)
      (h₁.drop hkeys hrepo hmem reason) hchildren
    refine hend.mono ?_
    intro id d hd
    obtain hA | ⟨-, hnil⟩ := hd
    · exact hA
    · cases hnil

end

/-- Untagged manifests that no index ever listed, attached to another of their repository. -/
def LooseAttachment (repos : List ScopeRepository) (id : RepoId) (d : Digest) : Prop :=
  ∃ repo ∈ repos, repo.id = id ∧ ∃ m ∈ repo.manifests, m.digest = d ∧
    (∀ t ∈ repo.tags, t.digest ≠ d) ∧ (∀ p ∈ repo.manifests, d ∉ p.children) ∧
    ∃ s ∈ repo.manifests, m.subjectDigest = some s.digest

theorem startPruning_live_iff {id : RepoId} : (id, d) ∈ (startPruning repos).live ↔
      ∃ repo ∈ repos, repo.id = id ∧ ∃ m ∈ repo.manifests, m.digest = d := by
  simp only [startPruning, mem_flatMap, List.mem_map, Prod.mk.injEq]
  constructor
  · rintro ⟨r, hr, m, hm, hid, hdigest⟩
    exact ⟨r, hr, hid, m, hm, hdigest⟩
  · rintro ⟨r, hr, hid, m, hm, hdigest⟩
    exact ⟨r, hr, m, hm, hid, hdigest⟩

theorem orphans_start (hkeys : ScopeKeys repos) :
    OrphansIn repos (fun id d => LooseAttachment repos id d ∨
      ∃ x ∈ leftovers repos (startPruning repos), x.1.id = id ∧ x.2.digest = d)
      (startPruning repos) := by
  intro r hr m hm _ htags hparents
  by_cases hleft : isLeftover repos (startPruning repos) r m = true
  · exact .inr ⟨(r, m), mem_leftovers.mpr ⟨hr, hm, hleft⟩, rfl, rfl⟩
  left
  refine ⟨r, hr, rfl, m, hm, rfl, ?_, ?_, ?_⟩
  · intro t ht hdigest
    have hmem : t ∈ (startPruning repos).tagsOf repos r.id m.digest :=
      (mem_tagsOf hkeys hr).mpr ⟨ht, hdigest, by simp [startPruning]⟩
    rw [htags] at hmem
    cases hmem
  · intro p hp hchild
    have hmem : p ∈ (startPruning repos).liveParents repos r.id m.digest :=
      (mem_liveParents hkeys hr).mpr ⟨hp, mem_startPruning_live hr hp, hchild⟩
    rw [hparents] at hmem
    cases hmem
  · cases hsubject : m.subjectDigest with
    | none => simp [isLeftover, htags, hparents, hsubject] at hleft
    | some s =>
      simp only [isLeftover, htags, hparents, hsubject, isEmpty_nil, Bool.and_self,
        any_some, Bool.true_and, Bool.not_eq_true', ← Bool.not_eq_true, not_not] at hleft
      obtain ⟨r', hr', hid, x, hx, hdigest⟩ :=
        startPruning_live_iff.mp (Pruning.isLive_iff.mp hleft)
      obtain rfl := repo_eq_of_id hkeys hr hr' hid
      exact ⟨x, hx, by rw [hdigest]⟩

/-! ## The end -/

/-- What is left where everything that may go went. -/
structure RunOut (repos : List ScopeRepository) (st : Pruning) : Prop where
  subjects : SubjectsLive repos st
  orphans : OrphansIn repos (LooseAttachment repos) st
  tags : ∀ repo ∈ repos, ∀ t ∈ repo.tags, (repo.id, t.name) ∈ st.removedTags ∨
    ∃ t' ∈ repo.tags, t'.digest = t.digest ∧ ProtectedTag repo t'.name

/-- The first loop, as far as it has come. -/
structure LeftoversLeft (repos : List ScopeRepository)
    (rest : List (ScopeRepository × ScopeManifest)) (st : Pruning) : Prop where
  mem : ∀ x ∈ rest, x.1 ∈ repos ∧ x.2 ∈ x.1.manifests
  subjects : SubjectsLive repos st
  orphans : OrphansIn repos (fun id d => LooseAttachment repos id d ∨
    ∃ x ∈ rest, x.1.id = id ∧ x.2.digest = d) st
  tags : st.removedTags = []

theorem LeftoversLeft.tail {m : ScopeManifest} {rest : List (ScopeRepository × ScopeManifest)}
    (h : LeftoversLeft repos ((repo, m) :: rest) st) (hgone : (repo.id, m.digest) ∉ st.live) :
    LeftoversLeft repos rest st := by
  refine ⟨fun x hx => h.mem x (mem_cons_of_mem _ hx), h.subjects, ?_, h.tags⟩
  intro r hr x hx hlive htags hparents
  obtain hloose | ⟨item, hitem, hid, hdigest⟩ := h.orphans r hr x hx hlive htags hparents
  · exact .inl hloose
  obtain rfl | hrest := mem_cons.mp hitem
  · have hhead : (repo.id, m.digest) = (r.id, x.digest) := by rw [← hid, ← hdigest]
    rw [hhead] at hgone
    exact absurd hlive hgone
  · exact .inr ⟨item, hrest, hid, hdigest⟩

variable {limitBytes : Nat} {st₁ : Pruning}

theorem leftovers_left (hkeys : ScopeKeys repos)
    (h : pruneLeftovers repos limitBytes (leftovers repos (startPruning repos))
      (startPruning repos) = some st₁) (hover : limitBytes < st₁.usage repos) :
    LeftoversLeft repos [] st₁ := by
  have hstart : LeftoversLeft repos (leftovers repos (startPruning repos))
      (startPruning repos) := by
    refine ⟨?_, ?_, orphans_start hkeys, rfl⟩
    · intro (r, m) hx
      obtain ⟨hrepo, hm, -⟩ := mem_leftovers.mp hx
      exact ⟨hrepo, hm⟩
    · intro r hr m _ s hs _ _
      exact mem_startPruning_live hr hs
  have hend := pruneLeftovers_rule (J := LeftoversLeft repos)
    (fun repo m rest st hJ hgone => hJ.tail hgone)
    (fun repo m rest st s₁ hJ _ hremove => by
      obtain ⟨hrepo, hm⟩ := hJ.mem (repo, m) mem_cons_self
      have hsome : manifestOf repos repo.id m.digest ≠ none := by
        rw [(manifestOf_eq_some hkeys hrepo).mpr ⟨hm, rfl⟩]
        exact some_ne_none m
      have hkept : LeftoversLeft repos ((repo, m) :: rest) s₁ :=
        ⟨hJ.mem, (subjectsLive_rule hkeys hrepo).removeManifest hkeys hrepo hJ.subjects trivial
          hremove, removeManifest_orphans hkeys hrepo hJ.orphans hremove,
          (removeManifest_later hremove).tags.trans hJ.tags⟩
      exact hkept.tail (removeManifest_gone hsome hremove))
    hstart h
  obtain hend | ⟨rest, -, hfits⟩ := hend
  · exact hend
  · omega

/-- The second loop, as far as it has come. -/
structure TagsLeft (repos : List ScopeRepository) (rest : List (ScopeRepository × PlanTag))
    (st : Pruning) : Prop where
  mem : ∀ x ∈ rest, x.1 ∈ repos ∧ x.2 ∈ x.1.tags
  subjects : SubjectsLive repos st
  orphans : OrphansIn repos (LooseAttachment repos) st
  tags : ∀ repo ∈ repos, ∀ t ∈ repo.tags, (repo, t) ∈ rest ∨ (repo.id, t.name) ∈ st.removedTags ∨
    ∃ t' ∈ repo.tags, t'.digest = t.digest ∧ ProtectedTag repo t'.name

variable {rest : List (ScopeRepository × PlanTag)} {t : PlanTag}

theorem TagsLeft.pass (hkeys : ScopeKeys repos) (h : TagsLeft repos ((repo, t) :: rest) st)
    (ht : st.passesOver repos repo t) :
    TagsLeft repos rest st := by
  obtain ⟨hrepo, htag⟩ := h.mem (repo, t) mem_cons_self
  refine ⟨fun x hx => h.mem x (mem_cons_of_mem _ hx), h.subjects, h.orphans, ?_⟩
  intro r hr x hx
  obtain hrest | hdone := h.tags r hr x hx
  · obtain heq | hrest := mem_cons.mp hrest
    · obtain ⟨rfl, rfl⟩ := Prod.mk.injEq .. ▸ heq
      obtain hremoved | hprotected | hbeside := ht
      · exact .inr (.inl hremoved)
      · exact .inr (.inr ⟨x, hx, rfl, hprotected⟩)
      · obtain ⟨t', ht', hflag⟩ := any_eq_true.mp hbeside
        obtain ⟨hmem, hdigest, -⟩ := (mem_tagsOf hkeys hr).mp ht'
        exact .inr (.inr ⟨t', hmem, hdigest, hflag⟩)
    · exact .inl hrest
  · exact .inr hdone

theorem Pruning.take_tagsOf (hkeys : ScopeKeys repos) (hrepo : repo ∈ repos) (htag : t ∈ repo.tags)
    {r : ScopeRepository} (hr : r ∈ repos) (hne : (r.id, d) ≠ (repo.id, t.digest)) :
    st.tagsOf repos r.id d = (st.take repo t).tagsOf repos r.id d := by
  unfold Pruning.tagsOf
  rw [findScope_of_mem hkeys hr]
  refine filter_congr ?_
  intro x hx
  by_cases hd : x.digest = d
  · have hother : (r.id, x.name) ≠ (repo.id, t.name) := by
      intro heq
      obtain ⟨hid, hname⟩ := Prod.mk.injEq .. ▸ heq
      obtain rfl := repo_eq_of_id hkeys hrepo hr hid
      have hxt : x = t := inj_on_of_nodup_map (hkeys.tags r hr) hx htag hname
      exact hne (by rw [← hd, hxt])
    have hnames : (r.id = repo.id ∧ x.name = t.name) = False := by
      simpa using hother
    simp [hd, hnames]
  · simp [hd]

theorem TagsLeft.take (hkeys : ScopeKeys repos) (h : TagsLeft repos ((repo, t) :: rest) st) :
    (∀ x ∈ rest, x.1 ∈ repos ∧ x.2 ∈ x.1.tags) ∧ SubjectsLive repos (st.take repo t) ∧
    OrphansIn repos (fun id d => LooseAttachment repos id d ∨ id = repo.id ∧ d = t.digest)
      (st.take repo t) ∧
    ∀ r ∈ repos, ∀ x ∈ r.tags, (r, x) ∈ rest ∨ (r.id, x.name) ∈ (st.take repo t).removedTags ∨
      ∃ t' ∈ r.tags, t'.digest = x.digest ∧ ProtectedTag r t'.name := by
  obtain ⟨hrepo, htag⟩ := h.mem (repo, t) mem_cons_self
  refine ⟨fun x hx => h.mem x (mem_cons_of_mem _ hx), h.subjects, ?_, ?_⟩
  · intro r hr x hx hlive htags hparents
    by_cases hthis : (r.id, x.digest) = (repo.id, t.digest)
    · exact .inr (Prod.mk.injEq .. ▸ hthis)
    · rw [← Pruning.take_tagsOf hkeys hrepo htag hr hthis] at htags
      exact .inl (h.orphans r hr x hx hlive htags hparents)
  · intro r hr x hx
    rw [Pruning.take_removedTags, mem_append, mem_singleton]
    obtain hrest | hremoved | hnamed := h.tags r hr x hx
    · obtain heq | hrest := mem_cons.mp hrest
      · obtain ⟨rfl, rfl⟩ := Prod.mk.injEq .. ▸ heq
        exact .inr (.inl (.inr rfl))
      · exact .inl hrest
    · exact .inr (.inl (.inl hremoved))
    · exact .inr (.inr hnamed)

theorem runOut_of_over (hkeys : ScopeKeys repos) {localeCompare : String → String → Ordering}
    {st₂ : Pruning}
    (h₁ : pruneLeftovers repos limitBytes (leftovers repos (startPruning repos))
      (startPruning repos) = some st₁) (hover₁ : limitBytes < st₁.usage repos)
    (h₂ : pruneTags repos limitBytes (tagsByAge repos localeCompare) st₁ = some st₂)
    (hover₂ : limitBytes < st₂.usage repos) : RunOut repos st₂ := by
  have hleft := leftovers_left hkeys h₁ hover₁
  have hstart : TagsLeft repos (tagsByAge repos localeCompare) st₁ := by
    refine ⟨?_, hleft.subjects, hleft.orphans.mono ?_, ?_⟩
    · intro (r, t) hx
      exact mem_tagsByAge.mp hx
    · intro id d hd
      obtain hloose | ⟨x, hx, -⟩ := hd
      · exact hloose
      · cases hx
    · intro r hr t ht
      exact .inl (mem_tagsByAge.mpr ⟨hr, ht⟩)
  have hend := pruneTags_rule (J := TagsLeft repos) (fun repo t rest st hJ ht => hJ.pass hkeys ht)
    (fun repo t rest st hJ _ hneeded => by
      obtain ⟨hmem, hsubjects, horphans, htags⟩ := hJ.take hkeys
      refine ⟨hmem, hsubjects, ?_, htags⟩
      intro r hr x hx hlive hnotags hparents
      obtain hloose | ⟨hid, hdigest⟩ := horphans r hr x hx hlive hnotags hparents
      · exact hloose
      · rw [hid, hdigest] at hnotags hparents
        exact absurd ⟨hnotags, hparents⟩ hneeded)
    (fun repo t rest st s₁ hJ _ _ _ hremove => by
      obtain ⟨hrepo, -⟩ := hJ.mem (repo, t) mem_cons_self
      obtain ⟨hmem, hsubjects, horphans, htags⟩ := hJ.take hkeys
      refine ⟨hmem, (subjectsLive_rule hkeys hrepo).removeManifest hkeys hrepo hsubjects trivial
        hremove, ?_, ?_⟩
      · intro r hr x hx hlive hnotags hparents
        obtain hloose | ⟨hid, hdigest⟩ :=
          removeManifest_orphans hkeys hrepo horphans hremove r hr x hx hlive hnotags hparents
        · exact hloose
        · obtain rfl := repo_eq_of_id hkeys hrepo hr hid
          rw [← hdigest] at hremove
          have hsome : manifestOf repos r.id x.digest ≠ none := by
            rw [(manifestOf_eq_some hkeys hr).mpr ⟨hx, rfl⟩]
            exact some_ne_none x
          exact absurd hlive (removeManifest_gone hsome hremove)
      · rw [(removeManifest_later hremove).tags]
        exact htags)
    hstart h₂
  obtain hend | ⟨rest, -, hfits⟩ := hend
  · refine ⟨hend.subjects, hend.orphans, ?_⟩
    intro r hr t ht
    obtain hnil | hdone := hend.tags r hr t ht
    · cases hnil
    · exact hdone
  · omega

end Chicoree.Images

/-! ## What stays whatever goes

The manifests that no plan takes away: each has its subject among them and is kept by a
protected tag, by an index among them, or as an attachment of one of them. -/

namespace Chicoree.Images

open Registryd (Digest RepoId)
open Pruning (Later mem_liveParents mem_liveReferrers mem_tagsOf mem_drop_live)

/-- An untagged manifest that no index lists and that is attached to one of the given. -/
structure Attached (repo : ScopeRepository) (X : Digest → Prop) (m : ScopeManifest) : Prop where
  untagged : ∀ t ∈ repo.tags, t.digest ≠ m.digest
  unlisted : ∀ p ∈ repo.manifests, m.digest ∉ p.children
  subject : ∃ s ∈ repo.manifests, m.subjectDigest = some s.digest ∧ X s.digest

/-- Manifests that nothing can take away, as each has its subject among them and is kept: by
a protected tag, by an index among them, or as an attachment of one of them. -/
structure Held (repo : ScopeRepository) (X : Digest → Prop) : Prop where
  manifest : ∀ d, X d → ∃ m ∈ repo.manifests, m.digest = d
  subject : ∀ m ∈ repo.manifests, X m.digest → ∀ s ∈ repo.manifests,
    m.subjectDigest = some s.digest → X s.digest
  kept : ∀ m ∈ repo.manifests, X m.digest →
    (∃ t ∈ repo.tags, t.digest = m.digest ∧ ProtectedTag repo t.name) ∨
    (∃ p ∈ repo.manifests, X p.digest ∧ m.digest ∈ p.children) ∨ Attached repo X m

/-- The manifests that stay whatever else goes: the largest such set. -/
def Stays (repo : ScopeRepository) (d : Digest) : Prop := ∃ X, Held repo X ∧ X d

variable {m : ScopeManifest}

theorem Attached.mono {repo : ScopeRepository} {X Y : Digest → Prop} (h : Attached repo X m)
    (hXY : ∀ d, X d → Y d) : Attached repo Y m := by
  obtain ⟨s, hs, hsubject, hX⟩ := h.subject
  exact ⟨h.untagged, h.unlisted, s, hs, hsubject, hXY _ hX⟩

theorem held_stays (repo : ScopeRepository) : Held repo (Stays repo) := by
  refine ⟨?_, ?_, ?_⟩
  · intro d ⟨X, hX, hd⟩
    exact hX.manifest d hd
  · intro m hm ⟨X, hX, hd⟩ s hs hsubject
    exact ⟨X, hX, hX.subject m hm hd s hs hsubject⟩
  · intro m hm ⟨X, hX, hd⟩
    have hinto : ∀ d, X d → Stays repo d := fun d h => ⟨X, hX, h⟩
    obtain htag | ⟨p, hp, hpX, hchild⟩ | hattached := hX.kept m hm hd
    · exact .inl htag
    · exact .inr (.inl ⟨p, hp, hinto _ hpX, hchild⟩)
    · exact .inr (.inr (hattached.mono hinto))

variable {repos : List ScopeRepository} {repo : ScopeRepository}

structure StaysLive (repos : List ScopeRepository) (st : Pruning) : Prop where
  live : ∀ repo ∈ repos, ∀ d, Stays repo d → (repo.id, d) ∈ st.live
  tags : ∀ repo ∈ repos, ∀ name, (repo.id, name) ∈ st.removedTags → ¬ ProtectedTag repo name

theorem staysLive_start : StaysLive repos (startPruning repos) := by
  refine ⟨?_, ?_⟩
  · intro repo hrepo d hstays
    obtain ⟨m, hm, rfl⟩ := (held_stays repo).manifest d hstays
    exact mem_startPruning_live hrepo hm
  · intro repo _ name hname
    cases hname

variable {st : Pruning}

/-- A manifest that is not tagged any more and that no live index lists does not stay, unless
it is an attachment. -/
theorem StaysLive.not_stays (hkeys : ScopeKeys repos) (hrepo : repo ∈ repos)
    (hst : StaysLive repos st) (hm : m ∈ repo.manifests)
    (htags : st.tagsOf repos repo.id m.digest = [])
    (hparents : st.liveParents repos repo.id m.digest = [])
    (hloose : ¬ Attached repo (Stays repo) m) : ¬ Stays repo m.digest := by
  intro hstays
  obtain ⟨t, ht, hdigest, hprotected⟩ | ⟨p, hp, hpstays, hchild⟩ | hattached :=
    (held_stays repo).kept m hm hstays
  · have hmem : t ∈ st.tagsOf repos repo.id m.digest :=
      (mem_tagsOf hkeys hrepo).mpr
        ⟨ht, hdigest, fun hremoved => hst.tags repo hrepo t.name hremoved hprotected⟩
    rw [htags] at hmem
    cases hmem
  · have hmem : p ∈ st.liveParents repos repo.id m.digest :=
      (mem_liveParents hkeys hrepo).mpr ⟨hp, hst.live repo hrepo p.digest hpstays, hchild⟩
    rw [hparents] at hmem
    cases hmem
  · exact hloose hattached

theorem staysLive_rule (hkeys : ScopeKeys repos) (hrepo : repo ∈ repos) :
    RemovalRule repos repo (StaysLive repos) (fun _ d => ¬ Stays repo d) where
  later _ hmay := hmay
  referrer := by
    intro st m r _ hm hmay hr hstays
    obtain ⟨hrmem, -, hsubject⟩ := (mem_liveReferrers hkeys hrepo).mp hr
    exact hmay ((held_stays repo).subject r hrmem hstays m hm hsubject)
  drop := by
    intro st m reason hst hm hmay _
    refine ⟨?_, hst.tags⟩
    intro r hr d hstays
    refine mem_drop_live.mpr ⟨hst.live r hr d hstays, ?_⟩
    intro heq
    obtain ⟨hid, rfl⟩ := Prod.mk.injEq .. ▸ heq
    obtain rfl := repo_eq_of_id hkeys hrepo hr hid
    exact hmay hstays
  child := by
    intro st m c hst hm _ hchild _ hparents htags hstays
    obtain ⟨x, hx, rfl⟩ := (held_stays repo).manifest c hstays
    exact hst.not_stays hkeys hrepo hx htags hparents
      (fun hattached => hattached.unlisted m hm hchild) hstays

theorem StaysLive.take (hkeys : ScopeKeys repos) (hrepo : repo ∈ repos)
    (hst : StaysLive repos st) {t : PlanTag} (ht : ¬ st.passesOver repos repo t) :
    StaysLive repos (st.take repo t) := by
  refine ⟨hst.live, ?_⟩
  intro r hr name hname
  rw [Pruning.take_removedTags, List.mem_append, List.mem_singleton] at hname
  obtain hold | heq := hname
  · exact hst.tags r hr name hold
  · obtain ⟨hid, rfl⟩ := Prod.mk.injEq .. ▸ heq
    obtain rfl := repo_eq_of_id hkeys hrepo hr hid
    exact fun hprotected => ht (.inr (.inl hprotected))

theorem StaysLive.last_tag (hkeys : ScopeKeys repos) (hrepo : repo ∈ repos)
    (hst : StaysLive repos st) {t : PlanTag} (htag : t ∈ repo.tags)
    (ht : ¬ st.passesOver repos repo t)
    (htags : (st.take repo t).tagsOf repos repo.id t.digest = [])
    (hparents : st.liveParents repos repo.id t.digest = []) : ¬ Stays repo t.digest := by
  intro hstays
  obtain ⟨m, hm, hdigest⟩ := (held_stays repo).manifest _ hstays
  rw [← hdigest] at htags hparents hstays
  exact (hst.take hkeys hrepo ht).not_stays hkeys hrepo hm htags hparents
    (fun hattached => hattached.untagged t htag hdigest.symm) hstays

theorem leftover_not_stays (hkeys : ScopeKeys repos) (hrepo : repo ∈ repos)
    (hm : m ∈ repo.manifests) (hleft : isLeftover repos (startPruning repos) repo m = true) :
    ¬ Stays repo m.digest := by
  simp only [isLeftover, Bool.and_eq_true, List.isEmpty_iff, Bool.not_eq_true'] at hleft
  obtain ⟨⟨htags, hparents⟩, hsubject⟩ := hleft
  refine staysLive_start.not_stays hkeys hrepo hm htags hparents ?_
  intro hattached
  obtain ⟨s, hs, hsub, -⟩ := hattached.subject
  rw [hsub, Option.any_some] at hsubject
  have hlive := Pruning.isLive_iff.mpr (mem_startPruning_live hrepo hs)
  rw [hsubject] at hlive
  cases hlive

end Chicoree.Images
