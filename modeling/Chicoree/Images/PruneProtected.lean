import Chicoree.Images.PruneToTheEnd

/-! # What pruning to fit leaves alone

A plan does not start with anything that a protected tag names, but what hangs on a removed
manifest goes with it, whoever names it. -/

namespace Chicoree.Images

open Function List
open Registryd (Digest TagRule)

open Pruning (mem_liveParents mem_tagsOf mem_drop_live)

/-! ## Protected images -/

/-- What a protected tag names, directly or through an index. -/
inductive NamedByProtected (repo : ScopeRepository) : Digest → Prop where
  | tag {t : PlanTag} : t ∈ repo.tags → ProtectedTag repo t.name → NamedByProtected repo t.digest
  | child {m : ScopeManifest} {c : Digest} : m ∈ repo.manifests →
      NamedByProtected repo m.digest → c ∈ m.children → NamedByProtected repo c

/-- A step that removes neither a protected tag nor an image that one names. -/
def SparesStep (repo : ScopeRepository) (step : PruneStep) : Prop :=
  match step.kind with
  | .tag => ¬ ProtectedTag repo step.ref
  | .manifest => ¬ NamedByProtected repo step.ref

def SparesProtected (repos : List ScopeRepository) (steps : List PruneStep) : Prop :=
  ∀ repo ∈ repos, ∀ step ∈ steps, step.repositoryId = repo.id → SparesStep repo step

/-- None of the protected images hangs on a manifest that may go. -/
def ProtectedHeld (repo : ScopeRepository) : Prop :=
  ∀ m ∈ repo.manifests, NamedByProtected repo m.digest → Stays repo m.digest

/-! ## The condition is enough -/

variable {st : Pruning} {localeCompare : String → String → Ordering} {limitBytes : Nat}
  {plan : PrunePlan}

section Enough

variable {repos : List ScopeRepository} {repo : ScopeRepository}

/-- What stays is live, and nothing protected is taken or dropped. -/
structure Spared (repos : List ScopeRepository) (st : Pruning) : Prop
    extends StaysLive repos st where
  steps : SparesProtected repos st.steps

theorem spared_start : Spared repos (startPruning repos) := by
  refine ⟨staysLive_start, ?_⟩
  intro repo _ step hstep
  cases hstep

theorem spared_rule (hkeys : ScopeKeys repos)
    (hheld : ∀ repo ∈ repos, ProtectedHeld repo) (hrepo : repo ∈ repos) :
    RemovalRule repos repo (Spared repos) (fun _ d => ¬ Stays repo d) where
  later _ hmay := hmay
  referrer hst := (staysLive_rule hkeys hrepo).referrer hst.toStaysLive
  drop := by
    intro st m reason hst hm hmay hno
    refine ⟨(staysLive_rule hkeys hrepo).drop hst.toStaysLive hm hmay hno, ?_⟩
    intro r hr step hstep hid
    rw [Pruning.drop_steps, mem_append, mem_singleton] at hstep
    obtain hold | rfl := hstep
    · exact hst.steps r hr step hold hid
    · obtain rfl := repo_eq_of_id hkeys hr hrepo hid
      intro hnamed
      exact hmay (hheld repo hr m hm hnamed)
  child hst := (staysLive_rule hkeys hrepo).child hst.toStaysLive

theorem Spared.take (hkeys : ScopeKeys repos) (hrepo : repo ∈ repos)
    (hst : Spared repos st) {t : PlanTag} (ht : ¬ st.passesOver repos repo t) :
    Spared repos (st.take repo t) := by
  refine ⟨hst.toStaysLive.take hkeys hrepo ht, ?_⟩
  intro r hr step hstep hid
  rw [Pruning.take_steps, mem_append, mem_singleton] at hstep
  obtain hold | rfl := hstep
  · exact hst.steps r hr step hold hid
  · obtain rfl := repo_eq_of_id hkeys hr hrepo hid
    exact fun hprotected => ht (.inr (.inl hprotected))

theorem plan_spares (hkeys : ScopeKeys repos) (hheld : ∀ repo ∈ repos, ProtectedHeld repo)
    (h : planPruneToFit repos localeCompare limitBytes = some plan) :
    SparesProtected repos plan.steps := by
  obtain ⟨-, rfl⟩ | ⟨st₁, st₂, -, h₁, h₂, rfl⟩ := planPruneToFit_cases h
  · intro repo _ step hstep
    cases hstep
  have hleft : Spared repos st₁ := by
    refine pruneLeftovers_kept (fun repo m st s₁ hx hst hremove => ?_) spared_start h₁
    obtain ⟨hrepo, hm, hleft⟩ := mem_leftovers.mp hx
    exact (spared_rule hkeys hheld hrepo).removeManifest hkeys hrepo hst
      (leftover_not_stays hkeys hrepo hm hleft) hremove
  have htags : Spared repos st₂ := by
    refine pruneTags_kept (fun repo t st hx ht hst => hst.take hkeys (mem_tagsByAge.mp hx).1 ht)
      (fun repo t st s₁ hx ht hst hlast hparents hremove => ?_) hleft h₂
    obtain ⟨hrepo, htag⟩ := mem_tagsByAge.mp hx
    exact (spared_rule hkeys hheld hrepo).removeManifest hkeys hrepo (hst.take hkeys hrepo ht)
      (hst.toStaysLive.last_tag hkeys hrepo htag ht hlast hparents) hremove
  exact htags.steps

end Enough

/-! ## The condition does not depend on what the manifests weigh -/

variable {m : ScopeManifest}

section Shape

def ScopeRepository.bare (repo : ScopeRepository) : ScopeRepository :=
  { repo with manifests := repo.manifests.map fun m => { m with blobs := [] } }

variable {repo repo' : ScopeRepository}

section

variable (h : repo.bare = repo'.bare)
include h

theorem exists_same (hm : m ∈ repo.manifests) :
    ∃ m' ∈ repo'.manifests, m'.digest = m.digest ∧ m'.subjectDigest = m.subjectDigest ∧
      m'.children = m.children := by
  have hmem : ({ m with blobs := [] } : ScopeManifest) ∈ repo'.bare.manifests := by
    rw [← h]
    exact mem_map.mpr ⟨m, hm, rfl⟩
  obtain ⟨m', hm', heq⟩ := mem_map.mp hmem
  obtain ⟨hdigest, -, hsubject, -, hchildren⟩ := ScopeManifest.mk.inj heq
  exact ⟨m', hm', hdigest, hsubject, hchildren⟩

theorem tags_of_bare : repo.tags = repo'.tags := by
  have htags := congrArg ScopeRepository.tags h
  exact htags

theorem protectedTag_of_bare {name : String} :
    ProtectedTag repo name ↔ ProtectedTag repo' name := by
  have hrules := congrArg ScopeRepository.rules h
  show (tagFlags repo.bare.rules name).protected_.isSome = true ↔
    (tagFlags repo'.bare.rules name).protected_.isSome = true
  rw [hrules]

theorem NamedByProtected.of_bare {d : Digest} (hd : NamedByProtected repo d)
    : NamedByProtected repo' d := by
  induction hd with
  | tag ht hprotected =>
    exact .tag (tags_of_bare h ▸ ht) ((protectedTag_of_bare h).mp hprotected)
  | child hm _ hchild ih =>
    obtain ⟨m', hm', hdigest, -, hchildren⟩ := exists_same h hm
    exact .child hm' (hdigest ▸ ih) (hchildren ▸ hchild)

theorem Held.of_bare {X : Digest → Prop} (hX : Held repo X) : Held repo' X := by
  refine ⟨?_, ?_, ?_⟩
  · intro d hd
    obtain ⟨m, hm, rfl⟩ := hX.manifest d hd
    obtain ⟨m', hm', hdigest, -⟩ := exists_same h hm
    exact ⟨m', hm', hdigest⟩
  · intro m' hm' hd s' hs' hsub
    obtain ⟨m, hm, hmd, hms, -⟩ := exists_same h.symm hm'
    obtain ⟨s, hs, hsd, -⟩ := exists_same h.symm hs'
    rw [← hsd]
    exact hX.subject m hm (hmd ▸ hd) s hs (by rw [hms, hsub, hsd])
  · intro m' hm' hd
    obtain ⟨m, hm, hmd, hms, -⟩ := exists_same h.symm hm'
    obtain ⟨t, ht, htd, hprotected⟩ | ⟨p, hp, hpX, hchild⟩ | hattached := hX.kept m hm (hmd ▸ hd)
    · exact .inl ⟨t, tags_of_bare h ▸ ht, htd.trans hmd, (protectedTag_of_bare h).mp hprotected⟩
    · obtain ⟨p', hp', hpd, -, hpc⟩ := exists_same h hp
      exact .inr (.inl ⟨p', hp', hpd ▸ hpX, by rw [hpc, ← hmd]; exact hchild⟩)
    · refine .inr (.inr ⟨?_, ?_, ?_⟩)
      · intro t ht htd
        rw [← tags_of_bare h] at ht
        exact hattached.untagged t ht (htd.trans hmd.symm)
      · intro p' hp' hchild
        obtain ⟨p, hp, -, -, hpc⟩ := exists_same h.symm hp'
        exact hattached.unlisted p hp (by rw [hpc, hmd]; exact hchild)
      · obtain ⟨s, hs, hsub, hsX⟩ := hattached.subject
        obtain ⟨s', hs', hsd, -⟩ := exists_same h hs
        exact ⟨s', hs', by rw [← hms, hsub, hsd], hsd ▸ hsX⟩

theorem ProtectedHeld.of_bare (hheld : ProtectedHeld repo) : ProtectedHeld repo' := by
  intro m' hm' hnamed
  obtain ⟨m, hm, hdigest, -⟩ := exists_same h.symm hm'
  obtain ⟨X, hX, hd⟩ := hheld m hm (hdigest ▸ hnamed.of_bare h.symm)
  exact ⟨X, hX.of_bare h, hdigest ▸ hd⟩

end

/-- The same repositories, manifests, tags and rules, whatever the manifests weigh. -/
def SameShape (repos repos' : List ScopeRepository) : Prop :=
  repos.map (·.bare) = repos'.map (·.bare)

variable {repos repos' : List ScopeRepository}

theorem SameShape.exists (h : SameShape repos repos') {r : ScopeRepository} (hr : r ∈ repos) :
    ∃ r' ∈ repos', r.bare = r'.bare := by
  have hmem : r.bare ∈ repos'.map (·.bare) := by
    rw [← show repos.map (·.bare) = _ from h]
    exact mem_map_of_mem hr
  obtain ⟨r', hr', heq⟩ := mem_map.mp hmem
  exact ⟨r', hr', heq.symm⟩

theorem SameShape.symm (h : SameShape repos repos') : SameShape repos' repos := Eq.symm h

theorem digests_of_bare (h : repo.bare = repo'.bare) :
    repo.manifests.map (·.digest) = repo'.manifests.map (·.digest) := by
  have hmap : repo.bare.manifests.map (·.digest) = repo'.bare.manifests.map (·.digest) := by
    rw [h]
  simpa [ScopeRepository.bare, comp_def] using hmap

theorem SameShape.keys (h : SameShape repos repos') (hkeys : ScopeKeys repos) :
    ScopeKeys repos' := by
  refine ⟨?_, ?_, ?_⟩
  · have hids : (repos.map (·.bare)).map (·.id) = (repos'.map (·.bare)).map (·.id) := by
      rw [show repos.map (·.bare) = _ from h]
    have hids' : repos.map (·.id) = repos'.map (·.id) := by
      simpa [ScopeRepository.bare, comp_def] using hids
    rw [← hids']
    exact hkeys.ids
  · intro r' hr'
    obtain ⟨r, hr, hbare⟩ := h.symm.exists hr'
    rw [digests_of_bare hbare]
    exact hkeys.digests r hr
  · intro r' hr'
    obtain ⟨r, hr, hbare⟩ := h.symm.exists hr'
    rw [tags_of_bare hbare]
    exact hkeys.tags r hr

theorem SameShape.ends (h : SameShape repos repos') (hends : SubjectsEnd repos) :
    SubjectsEnd repos' := by
  obtain ⟨rank, hrank⟩ := hends
  refine ⟨rank, ?_⟩
  intro r' hr' m' hm' subject hsub
  obtain ⟨r, hr, hbare⟩ := h.symm.exists hr'
  obtain ⟨m, hm, hdigest, hsubject, -⟩ := exists_same hbare hm'
  have hid := congrArg ScopeRepository.id hbare
  rw [show r'.id = r.id from hid, ← hdigest]
  exact hrank r hr m hm subject (hsubject.trans hsub)

end Shape

/-! ## The condition is needed -/

section Needed

def oneByte : ScopeBlob := ⟨"", 1⟩

def ScopeRepository.weigh (repo : ScopeRepository) (p : Digest → Prop) [DecidablePred p] :
    ScopeRepository :=
  { repo with
    manifests := repo.manifests.map fun m =>
      { m with blobs := if p m.digest then [oneByte] else [] } }

theorem bare_weigh (repo : ScopeRepository) (p : Digest → Prop) [DecidablePred p] :
    (repo.weigh p).bare = repo.bare := by
  simp [ScopeRepository.weigh, ScopeRepository.bare, comp_def]

/-- The protected images weigh one byte together, and all else weighs nothing. -/
structure ProtectedWeigh (repos : List ScopeRepository) : Prop where
  named : ∀ repo ∈ repos, ∀ m ∈ repo.manifests, NamedByProtected repo m.digest → m.blobs = [oneByte]
  other : ∀ repo ∈ repos, ∀ m ∈ repo.manifests, ¬ NamedByProtected repo m.digest → m.blobs = []

variable {repos : List ScopeRepository} {repo : ScopeRepository}

theorem blobs_oneByte (hweigh : ProtectedWeigh repos) :
    ∀ b ∈ repos.flatMap fun r => r.manifests.flatMap (·.blobs), b = oneByte := by
  intro b hb
  obtain ⟨r, hr, hb⟩ := mem_flatMap.mp hb
  obtain ⟨m, hm, hb⟩ := mem_flatMap.mp hb
  by_cases hnamed : NamedByProtected r m.digest
  · rw [hweigh.named r hr m hm hnamed] at hb
    exact mem_singleton.mp hb
  · rw [hweigh.other r hr m hm hnamed] at hb
    cases hb

variable {l : List ScopeBlob}

theorem refs_oneByte (hl : ∀ b ∈ l, b = oneByte) (n : Int) :
    l.foldl (fun refs b => setEntry b.digest ((refs.lookup b.digest).getD 0 + 1) refs)
      [("", n)] = [("", n + l.length)] := by
  induction l generalizing n with
  | nil => simp
  | cons b l ih =>
    obtain rfl := hl b mem_cons_self
    rw [foldl_cons]
    have hset : setEntry oneByte.digest ((List.lookup oneByte.digest [("", n)]).getD 0 + 1)
        [("", n)] = [("", n + 1)] := rfl
    rw [hset, ih (fun b hb => hl b (mem_cons_of_mem _ hb)) (n + 1), length_cons]
    congr 2
    omega

theorem sizes_oneByte (hl : ∀ b ∈ l, b = oneByte) :
    l.foldl (fun sizes b => setEntry b.digest b.size sizes) [("", 1)] = [("", 1)] := by
  induction l with
  | nil => rfl
  | cons b l ih =>
    obtain rfl := hl b mem_cons_self
    exact ih fun b hb => hl b (mem_cons_of_mem _ hb)

theorem usage_start (hweigh : ProtectedWeigh repos) (hrepo : repo ∈ repos)
    (hm : m ∈ repo.manifests) (hnamed : NamedByProtected repo m.digest)
    (hrefs : st.blobRefs = (startPruning repos).blobRefs) : 0 < st.usage repos := by
  have hall := blobs_oneByte hweigh
  obtain ⟨l, hl⟩ : ∃ l, (repos.flatMap fun r => r.manifests.flatMap (·.blobs)) = oneByte :: l := by
    have hmem : oneByte ∈ repos.flatMap fun r => r.manifests.flatMap (·.blobs) := by
      refine mem_flatMap.mpr ⟨repo, hrepo, mem_flatMap.mpr ⟨m, hm, ?_⟩⟩
      rw [hweigh.named repo hrepo m hm hnamed]
      exact mem_singleton.mpr rfl
    cases hblobs : repos.flatMap fun r => r.manifests.flatMap (·.blobs) with
    | nil =>
      rw [hblobs] at hmem
      cases hmem
    | cons b l =>
      rw [hblobs] at hall
      obtain rfl := hall b mem_cons_self
      exact ⟨l, rfl⟩
  rw [hl] at hall
  have hrest : ∀ b ∈ l, b = oneByte := fun b hb => hall b (mem_cons_of_mem _ hb)
  have hstart : (startPruning repos).blobRefs = [("", 1 + (l.length : Int))] := by
    show (repos.flatMap fun r => r.manifests.flatMap (·.blobs)).foldl _ [] = _
    rw [hl, foldl_cons]
    exact refs_oneByte hrest 1
  have hsizes : blobSizes repos = [("", 1)] := by
    show (repos.flatMap fun r => r.manifests.flatMap (·.blobs)).foldl _ [] = _
    rw [hl, foldl_cons]
    exact sizes_oneByte hrest
  unfold Pruning.usage
  rw [hrefs, hstart, hsizes]
  have hpos : (0 : Int) < 1 + (l.length : Int) := by omega
  simp [hpos]

/-- No byte was freed, and every protected image is live. -/
structure Intact (repos : List ScopeRepository) (st : Pruning) : Prop where
  refs : st.blobRefs = (startPruning repos).blobRefs
  live : ∀ repo ∈ repos, ∀ m ∈ repo.manifests, NamedByProtected repo m.digest →
    (repo.id, m.digest) ∈ st.live

section

variable {steps : List PruneStep} (hkeys : ScopeKeys repos) (hweigh : ProtectedWeigh repos)
  (hspares : SparesProtected repos steps)
include hkeys hweigh hspares

theorem intact_rule (hrepo : repo ∈ repos) :
    RemovalRule repos repo (fun st => st.steps <+: steps → Intact repos st) (fun _ _ => True) where
  later _ _ := trivial
  referrer _ _ _ _ := trivial
  drop := by
    intro st m reason hst hm _ _ hsteps
    have hintact := hst ((prefix_append _ _).trans hsteps)
    -- the step that drops the manifest is one of the plan
    have hstep : (⟨repo.id, repo.path, .manifest, m.digest, reason⟩ : PruneStep) ∈ steps :=
      hsteps.subset (mem_append_right _ (mem_singleton.mpr rfl))
    have hother : ¬ NamedByProtected repo m.digest := hspares repo hrepo _ hstep rfl
    refine ⟨?_, ?_⟩
    · show m.blobs.foldl _ st.blobRefs = _
      rw [hweigh.other repo hrepo m hm hother]
      exact hintact.refs
    · intro r hr x hx hnamed
      refine mem_drop_live.mpr ⟨hintact.live r hr x hx hnamed, ?_⟩
      intro heq
      obtain ⟨hid, hdigest⟩ := Prod.mk.injEq .. ▸ heq
      obtain rfl := repo_eq_of_id hkeys hrepo hr hid
      exact hother (hdigest ▸ hnamed)
  child _ _ _ _ _ _ _ := trivial

variable {st₁ : Pruning}

theorem leftovers_intact (h : pruneLeftovers repos limitBytes (leftovers repos (startPruning repos))
      (startPruning repos) = some st₁)
  (hsteps : st₁.steps <+: steps) : Intact repos st₁ := by
  refine pruneLeftovers_kept (I := fun st => st.steps <+: steps → Intact repos st)
    (fun repo m st s₁ hx hst hremove => ?_)
    (fun _ => ⟨rfl, fun r hr m hm _ => mem_startPruning_live hr hm⟩) h hsteps
  have hrepo := (mem_leftovers.mp hx).1
  exact (intact_rule hkeys hweigh hspares hrepo).removeManifest hkeys hrepo hst trivial hremove

theorem tags_intact {st₂ : Pruning} (hst₁ : Intact repos st₁)
  (h : pruneTags repos limitBytes (tagsByAge repos localeCompare) st₁ = some st₂)
  (hsteps : st₂.steps <+: steps) : Intact repos st₂ := by
  have htake (repo : ScopeRepository) (t : PlanTag) (st : Pruning)
      (hst : st.steps <+: steps → Intact repos st) :
      (st.take repo t).steps <+: steps → Intact repos (st.take repo t) := by
    intro htaken
    have hintact := hst ((prefix_append _ _).trans htaken)
    exact ⟨hintact.refs, hintact.live⟩
  refine pruneTags_kept (I := fun st => st.steps <+: steps → Intact repos st)
    (fun repo t st _ _ => htake repo t st) (fun repo t st s₁ hx _ hst _ _ hremove => ?_)
    (fun _ => hst₁) h hsteps
  have hrepo := (mem_tagsByAge.mp hx).1
  exact (intact_rule hkeys hweigh hspares hrepo).removeManifest hkeys hrepo (htake repo t st hst)
    trivial hremove

end

theorem RunOut.held (hkeys : ScopeKeys repos) (hend : RunOut repos st) (hrepo : repo ∈ repos) :
    Held repo fun d => (∃ m ∈ repo.manifests, m.digest = d) ∧ (repo.id, d) ∈ st.live := by
  refine ⟨fun d hd => hd.1, ?_, ?_⟩
  · intro m hm hlive s hs hsub
    exact ⟨⟨s, hs, rfl⟩, hend.subjects repo hrepo m hm s hs hsub hlive.2⟩
  · intro m hm hlive
    by_cases htags : st.tagsOf repos repo.id m.digest = []
    · by_cases hparents : st.liveParents repos repo.id m.digest = []
      · obtain ⟨r, hr, hid, x, hx, hdigest, huntagged, hunlisted, s, hs, hsub⟩ :=
          hend.orphans repo hrepo m hm hlive.2 htags hparents
        obtain rfl := repo_eq_of_id hkeys hrepo hr hid
        obtain rfl := inj_on_of_nodup_map (hkeys.digests r hr) hx hm hdigest
        exact .inr (.inr ⟨huntagged, hunlisted, s, hs, hsub, ⟨s, hs, rfl⟩,
          hend.subjects r hr x hx s hs hsub hlive.2⟩)
      · obtain ⟨p, hp⟩ := exists_mem_of_ne_nil _ hparents
        obtain ⟨hpmem, hplive, hchild⟩ := (mem_liveParents hkeys hrepo).mp hp
        exact .inr (.inl ⟨p, hpmem, ⟨⟨p, hpmem, rfl⟩, hplive⟩, hchild⟩)
    · obtain ⟨t, ht⟩ := exists_mem_of_ne_nil _ htags
      obtain ⟨htmem, hdigest, hleft⟩ := (mem_tagsOf hkeys hrepo).mp ht
      obtain hremoved | ⟨t', ht', hdigest', hprotected⟩ := hend.tags repo hrepo t htmem
      · exact absurd hremoved hleft
      · exact .inl ⟨t', ht', hdigest'.trans hdigest, hprotected⟩

/-- A plan for a limit of nothing spares the protected images, where only they weigh
something, only if they are held. -/
theorem protectedHeld_of_spares (hkeys : ScopeKeys repos) (hweigh : ProtectedWeigh repos)
    (h : planPruneToFit repos localeCompare 0 = some plan)
    (hspares : SparesProtected repos plan.steps) : ∀ repo ∈ repos, ProtectedHeld repo := by
  intro repo hrepo m hm hnamed
  have hover {st : Pruning} (hst : Intact repos st) : 0 < st.usage repos :=
    usage_start hweigh hrepo hm hnamed hst.refs
  obtain ⟨hfits, -⟩ | ⟨st₁, st₂, -, h₁, h₂, rfl⟩ := planPruneToFit_cases h
  · have hstart : 0 < (startPruning repos).usage repos :=
      usage_start hweigh hrepo hm hnamed rfl
    omega
  have hsteps : st₁.steps <+: st₂.steps :=
    pruneTags_steps hkeys (fun (_, _) hx => (mem_tagsByAge.mp hx).1) h₂
  have hintact₁ : Intact repos st₁ := leftovers_intact hkeys hweigh hspares h₁ hsteps
  have hintact₂ : Intact repos st₂ := tags_intact hkeys hweigh hspares hintact₁ h₂ (prefix_refl _)
  have hend : RunOut repos st₂ := runOut_of_over hkeys h₁ (hover hintact₁) h₂ (hover hintact₂)
  exact ⟨_, hend.held hkeys hrepo, ⟨m, hm, rfl⟩, hintact₂.live repo hrepo m hm hnamed⟩

end Needed

/-! ## Protected images under pruning -/

section

variable {repos : List ScopeRepository}

/-- **Pruning and protected tags**: over all scopes with the same repositories, manifests,
tags and rules, and all limits, the planner returns a plan without a step that removes a
protected tag or an image that one names, exactly where no such image hangs on a manifest
that may go. -/
theorem prune_spares_protected_iff (localeCompare : String → String → Ordering)
    (hkeys : ScopeKeys repos) (hends : SubjectsEnd repos) :
    (∀ repos', SameShape repos repos' → ∀ limitBytes, ∃ plan,
      planPruneToFit repos' localeCompare limitBytes = some plan ∧
        SparesProtected repos' plan.steps) ↔
      ∀ repo ∈ repos, ProtectedHeld repo := by
  constructor
  · classical
    intro hall
    let weighed := repos.map fun r => r.weigh (NamedByProtected r)
    have hshape : SameShape repos weighed := by
      simp [SameShape, weighed, bare_weigh]
    have hweigh : ProtectedWeigh weighed := by
      refine ⟨?_, ?_⟩
      · intro r' hr' m' hm' hnamed
        obtain ⟨r, -, rfl⟩ := mem_map.mp hr'
        obtain ⟨m, -, rfl⟩ := mem_map.mp hm'
        exact if_pos (hnamed.of_bare (bare_weigh r _))
      · intro r' hr' m' hm' hnamed
        obtain ⟨r, -, rfl⟩ := mem_map.mp hr'
        obtain ⟨m, -, rfl⟩ := mem_map.mp hm'
        exact if_neg fun h => hnamed (h.of_bare (bare_weigh r _).symm)
    obtain ⟨plan, hplan, hspares⟩ := hall weighed hshape 0
    intro repo hrepo
    obtain ⟨r', hr', hbare⟩ := hshape.exists hrepo
    exact (protectedHeld_of_spares (hshape.keys hkeys) hweigh hplan hspares r' hr').of_bare
      hbare.symm
  · intro hheld repos' hshape limitBytes
    obtain ⟨plan, hplan⟩ := planPruneToFit_total (hshape.keys hkeys) (hshape.ends hends)
      localeCompare limitBytes
    refine ⟨plan, hplan, plan_spares (hshape.keys hkeys) ?_ hplan⟩
    intro r' hr'
    obtain ⟨r, hr, hbare⟩ := hshape.symm.exists hr'
    exact (hheld r hr).of_bare hbare.symm

end

/-! ## Two scopes -/

def keepRule : TagRule :=
  { pattern := "keep", immutable := false, protected_ := true, repositoryId := some "r1" }

def signedRelease : ScopeRepository :=
  { id := "r1"
    path := "acme/app"
    manifests := [⟨"sha256:app", 0, none, [⟨"sha256:layer", 10⟩], []⟩,
      ⟨"sha256:sig", 1, some "sha256:app", [⟨"sha256:bundle", 2⟩], []⟩]
    tags := [⟨"keep", "sha256:app", 0⟩]
    rules := [keepRule] }

def keptSignature : ScopeRepository :=
  { signedRelease with tags := [⟨"old", "sha256:app", 0⟩, ⟨"keep", "sha256:sig", 1⟩] }

theorem keys_example (tags : List PlanTag) (htags : (tags.map (·.name)).Nodup) :
    ScopeKeys [{ signedRelease with tags := tags }] := by
  refine ⟨by simp, ?_, ?_⟩
  · intro r hr
    obtain rfl := mem_singleton.mp hr
    simp [signedRelease]
  · intro r hr
    obtain rfl := mem_singleton.mp hr
    exact htags

theorem ends_example (tags : List PlanTag) : SubjectsEnd [{ signedRelease with tags := tags }] := by
  refine ⟨fun _ d => if d = "sha256:sig" then 1 else 0, ?_⟩
  intro r hr m hm subject hsubject
  obtain rfl := mem_singleton.mp hr
  simp only [signedRelease, mem_cons, not_mem_nil, or_false] at hm
  obtain rfl | rfl := hm
  · cases hsubject
  · cases hsubject
    show 0 < 1
    omega

/-- The two manifests of the release stay: the signature is attached to the image. -/
theorem prune_spares_signed_release : ∃ plan, planPruneToFit [signedRelease] compare 5 = some plan ∧
      SparesProtected [signedRelease] plan.steps := by
  refine (prune_spares_protected_iff compare (keys_example [⟨"keep", "sha256:app", 0⟩] (by simp))
    (ends_example [⟨"keep", "sha256:app", 0⟩])).mpr ?_ [signedRelease] rfl 5
  intro r hr m hm _
  obtain rfl := mem_singleton.mp hr
  refine ⟨fun d => ∃ m ∈ signedRelease.manifests, m.digest = d, ⟨fun d hd => hd, ?_, ?_⟩,
    ⟨m, hm, rfl⟩⟩
  · intro x _ _ s hs _
    exact ⟨s, hs, rfl⟩
  · intro x hx _
    simp only [signedRelease, mem_cons, not_mem_nil, or_false] at hx
    obtain rfl | rfl := hx
    · exact .inl ⟨⟨"keep", "sha256:app", 0⟩, mem_singleton.mpr rfl, rfl, by decide +kernel⟩
    · refine .inr (.inr ⟨?_, ?_, ?_⟩)
      · intro t ht
        obtain rfl := mem_singleton.mp ht
        decide
      · simp [signedRelease]
      · exact ⟨⟨"sha256:app", 0, none, [⟨"sha256:layer", 10⟩], []⟩, mem_cons_self, rfl,
          _, mem_cons_self, rfl⟩

theorem protected_signature_pruned : ScopeKeys [keptSignature] ∧ SubjectsEnd [keptSignature] ∧
      ∃ plan, planPruneToFit [keptSignature] compare 0 = some plan ∧
        ¬ SparesProtected [keptSignature] plan.steps := by
  refine ⟨keys_example _ (by simp), ends_example _, ?_⟩
  have hsort : tagsByAge [keptSignature] compare =
      keptSignature.tags.map fun t => (keptSignature, t) :=
    mergeSort_of_pairwise (by decide +kernel)
  have hrun : ((planPruneToFit [keptSignature] compare 0).any fun plan => plan.steps.any fun s =>
      decide (s.repositoryId = "r1" ∧ s.kind = .manifest ∧ s.ref = "sha256:sig")) = true := by
    unfold planPruneToFit
    rw [hsort]
    decide +kernel
  obtain ⟨plan, hplan, hsteps⟩ := (Option.any_eq_true _ _).mp hrun
  obtain ⟨step, hstep, hdrop⟩ := any_eq_true.mp hsteps
  obtain ⟨hid, hkind, href⟩ := of_decide_eq_true hdrop
  refine ⟨plan, hplan, fun hspares => ?_⟩
  have hspare := hspares keptSignature (mem_singleton.mpr rfl) step hstep hid
  rw [SparesStep, hkind, href] at hspare
  exact hspare (.tag (t := ⟨"keep", "sha256:sig", 1⟩) (by simp [keptSignature]) (by decide +kernel))

end Chicoree.Images
