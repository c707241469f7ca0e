import Chicoree.Images.PlanExecution
import Chicoree.Images.PruneLoops

/-! # Planner and tables in step

The planner counts removals in sets of its own, the executor deletes rows under the rules of
the registry. What the sets say of a step that was planned is what the rules will say of it:
the next step is allowed exactly where the sets show no reason against it. -/

namespace Chicoree.Images

open List Pruning
open Registryd (Digest RepoId)
open Pruning (mem_liveParents mem_tagsOf mem_drop_live)

/-! ## Tables and picture -/

/-- The picture shows the repositories as the tables hold them. -/
structure Shows (s : Tables) (repos : List ScopeRepository) : Prop where
  serves : ∀ repo ∈ repos, Serves s repo.id
  manifests : ∀ repo ∈ repos, ∀ m ∈ repo.manifests, s.manifestExists repo.id m.digest = true
  /-- Where one manifest of the repository names another, the picture has it as an index. -/
  parents : ∀ repo ∈ repos, ∀ m ∈ repo.manifests, ∀ r ∈ s.manifestRefs,
    r.repositoryId = repo.id → r.refDigest = m.digest →
    s.manifestExists repo.id r.manifestDigest = true →
    ∃ p ∈ repo.manifests, p.digest = r.manifestDigest ∧ m.digest ∈ p.children
  children : ∀ repo ∈ repos, ∀ p ∈ repo.manifests, ∀ c ∈ p.children,
    ∃ r ∈ s.manifestRefs, r.repositoryId = repo.id ∧ r.refDigest = c ∧ r.manifestDigest = p.digest
  tags : ∀ repo ∈ repos, ∀ t ∈ repo.tags,
    ∃ row ∈ s.tags, row.key = (repo.id, t.name) ∧ row.manifestDigest = t.digest
  tagRows : ∀ repo ∈ repos, ∀ row ∈ s.tags, row.repositoryId = repo.id →
    ∃ t ∈ repo.tags, t.name = row.name ∧ t.digest = row.manifestDigest
  rules : ∀ repo ∈ repos, ∀ name, s.protects repo.id name = true ↔ ProtectedTag repo name

variable {repos : List ScopeRepository} {repo : ScopeRepository} {st : Pruning}
  {m : ScopeManifest} {t : PlanTag} {reason : String} {d : Digest} {id : RepoId}

theorem Shows.unprotected {s : Tables} (h : Shows s repos) (hrepo : repo ∈ repos) {name : String} :
    s.protects repo.id name = false ↔ ¬ ProtectedTag repo name := by
  rw [← Bool.not_eq_true, h.rules repo hrepo]

/-! ## What was dropped -/

/-- The manifests that the steps remove, with their repositories. -/
def droppedBy (steps : List PruneStep) : List (RepoId × Digest) :=
  (steps.filter fun x => decide (x.kind = .manifest)).map fun x => (x.repositoryId, x.ref)

theorem droppedBy_append (a b : List PruneStep) :
    droppedBy (a ++ b) = droppedBy a ++ droppedBy b := by
  simp [droppedBy]

theorem droppedBy_drop :
    droppedBy (st.drop repo m reason).steps = droppedBy st.steps ++ [(repo.id, m.digest)] := by
  rw [drop_steps, droppedBy_append]
  rfl

theorem droppedBy_take : droppedBy (st.take repo t).steps = droppedBy st.steps := by
  rw [take_steps, droppedBy_append]
  exact append_nil _

theorem mem_cleanup_manifest {steps : List PruneStep} :
    .manifest id d ∈ steps.map PruneStep.cleanup ↔ (id, d) ∈ droppedBy steps := by
  simp only [droppedBy, mem_map, mem_filter, decide_eq_true_eq, Prod.mk.injEq]
  refine exists_congr fun x => ?_
  cases hkind : x.kind with
  | tag | manifest => simp [PruneStep.cleanup, hkind]

theorem manifestExists_runSteps {s : Tables} {steps : List CleanupStep} :
    (runSteps s steps).manifestExists id d = true ↔
      s.manifestExists id d = true ∧ .manifest id d ∉ steps := by
  unfold Tables.manifestExists
  rw [any_eq_true, any_eq_true]
  constructor
  · intro ⟨m, hm, hthis⟩
    obtain ⟨hmem, hstep⟩ := mem_manifests_runSteps.mp hm
    obtain ⟨rfl, rfl⟩ := of_decide_eq_true hthis
    exact ⟨⟨m, hmem, hthis⟩, hstep⟩
  · intro ⟨⟨m, hm, hthis⟩, hstep⟩
    obtain ⟨rfl, rfl⟩ := of_decide_eq_true hthis
    exact ⟨m, mem_manifests_runSteps.mpr ⟨hm, hstep⟩, hthis⟩

/-! ## The sets of the planner -/

/-- The sets of the planner say what its steps did: a manifest of the picture is live as long
as no step removed it, and a tag is not among the removed ones as long as no step took it. -/
structure Accounted (repos : List ScopeRepository) (st : Pruning) : Prop where
  live : ∀ repo ∈ repos, ∀ m ∈ repo.manifests,
    (repo.id, m.digest) ∈ st.live ↔ (repo.id, m.digest) ∉ droppedBy st.steps
  taken : ∀ repo ∈ repos, ∀ t ∈ repo.tags, (repo.id, t.name) ∈ st.removedTags ↔
    .tag repo.id t.name ∈ st.steps.map PruneStep.cleanup
  shown : ∀ l ∈ droppedBy st.steps, ∃ repo ∈ repos, ∃ m ∈ repo.manifests, l = (repo.id, m.digest)
  ids : ∀ step ∈ st.steps, ∃ repo ∈ repos, step.repositoryId = repo.id

theorem accounted_start : Accounted repos (startPruning repos) where
  live r hr m hm := by
    have hnone : (r.id, m.digest) ∉ droppedBy (startPruning repos).steps := by
      simp [droppedBy, startPruning]
    exact iff_of_true (mem_startPruning_live hr hm) hnone
  taken := by simp [startPruning]
  shown := by simp [startPruning, droppedBy]
  ids := by simp [startPruning]

theorem Accounted.drop (h : Accounted repos st) (hrepo : repo ∈ repos) (hm : m ∈ repo.manifests) :
    Accounted repos (st.drop repo m reason) where
  live r hr x hx := by
    rw [droppedBy_drop, mem_append, mem_singleton, mem_drop_live, h.live r hr x hx, not_or]
  taken r hr t ht := by
    rw [drop_removedTags, h.taken r hr t ht, drop_steps]
    simp [PruneStep.cleanup]
  shown l hl := by
    rw [droppedBy_drop, mem_append, mem_singleton] at hl
    obtain hold | rfl := hl
    · exact h.shown l hold
    · exact ⟨repo, hrepo, m, hm, rfl⟩
  ids step hstep := by
    rw [drop_steps, mem_append, mem_singleton] at hstep
    obtain hold | rfl := hstep
    · exact h.ids step hold
    · exact ⟨repo, hrepo, rfl⟩

theorem Accounted.take (h : Accounted repos st) (hrepo : repo ∈ repos) :
    Accounted repos (st.take repo t) where
  live r hr x hx := by
    rw [droppedBy_take]
    exact h.live r hr x hx
  taken r hr x hx := by
    rw [take_removedTags, mem_append, h.taken r hr x hx, take_steps]
    simp [PruneStep.cleanup]
  shown l hl := by
    rw [droppedBy_take] at hl
    exact h.shown l hl
  ids step hstep := by
    rw [take_steps, mem_append, mem_singleton] at hstep
    obtain hold | rfl := hstep
    · exact h.ids step hold
    · exact ⟨repo, hrepo, rfl⟩

theorem accounted_rule (hrepo : repo ∈ repos) :
    RemovalRule repos repo (Accounted repos) (fun _ _ => True) where
  later _ _ := trivial
  referrer _ _ _ _ := trivial
  drop hst hm _ _ := hst.drop hrepo hm
  child _ _ _ _ _ _ _ := trivial

/-! ## The next step -/

section Allowed

variable {s : Tables} (hkeys : ScopeKeys repos) (hshows : Shows s repos) (hrepo : repo ∈ repos)
  (h : Accounted repos st)
include hkeys hshows hrepo h

/-- The rows of the tags of a manifest that is still there are those that the planner counts. -/
theorem Accounted.mem_tagsForDigest (hexists : (repo.id, d) ∉ droppedBy st.steps) {name : String} :
    name ∈ (runSteps s (st.steps.map PruneStep.cleanup)).tagsForDigest repo.id d ↔
      ∃ t ∈ st.tagsOf repos repo.id d, t.name = name := by
  unfold Tables.tagsForDigest
  rw [mem_map]
  constructor
  · intro ⟨row, hmem, hname⟩
    obtain ⟨hrow, hthis⟩ := mem_filter.mp hmem
    obtain ⟨hid, hd⟩ := of_decide_eq_true hthis
    obtain ⟨hrow, hstep, -⟩ := mem_tags_runSteps.mp hrow
    obtain ⟨t, ht, htname, htd⟩ := hshows.tagRows repo hrepo row hrow hid
    refine ⟨t, (mem_tagsOf hkeys hrepo).mpr ⟨ht, htd.trans hd, ?_⟩, htname.trans hname⟩
    intro hremoved
    have htaken := (h.taken repo hrepo t ht).mp hremoved
    rw [htname, ← hid] at htaken
    exact hstep htaken
  · intro ⟨t, hmem, hname⟩
    obtain ⟨ht, rfl, hleft⟩ := (mem_tagsOf hkeys hrepo).mp hmem
    obtain ⟨row, hrow, hkey, hd⟩ := hshows.tags repo hrepo t ht
    obtain ⟨hid, hrowname⟩ := Prod.mk.inj hkey
    refine ⟨row, mem_filter.mpr ⟨mem_tags_runSteps.mpr ⟨hrow, ?_, ?_⟩, decide_eq_true ⟨hid, hd⟩⟩,
      hrowname.trans hname⟩
    · rw [hid, hrowname]
      exact fun hstep => hleft ((h.taken repo hrepo t ht).mpr hstep)
    · rw [hid, hd, mem_cleanup_manifest]
      exact hexists

theorem Accounted.indexMemberships_nil (hm : m ∈ repo.manifests) :
    (runSteps s (st.steps.map PruneStep.cleanup)).indexMemberships repo.id m.digest = [] ↔
      st.liveParents repos repo.id m.digest = [] := by
  unfold Tables.indexMemberships
  rw [map_eq_nil_iff, filter_eq_nil_iff, eq_nil_iff_forall_not_mem]
  constructor
  · intro hnone p hp
    obtain ⟨hp, hplive, hchild⟩ := (mem_liveParents hkeys hrepo).mp hp
    obtain ⟨r, hr, hid, hd, hpd⟩ := hshows.children repo hrepo p hp m.digest hchild
    have hstep : .manifest repo.id p.digest ∉ st.steps.map PruneStep.cleanup := by
      rw [mem_cleanup_manifest]
      exact (h.live repo hrepo p hp).mp hplive
    have hrow : r ∈ (runSteps s (st.steps.map PruneStep.cleanup)).manifestRefs := by
      rw [mem_refs_runSteps, hid, hpd]
      exact ⟨hr, hstep⟩
    refine hnone r hrow ?_
    rw [hpd, manifestExists_runSteps.mpr ⟨hshows.manifests repo hrepo p hp, hstep⟩, Bool.and_true]
    exact decide_eq_true ⟨hid, hd⟩
  · intro hnone r hr hlists
    rw [Bool.and_eq_true, decide_eq_true_eq] at hlists
    obtain ⟨⟨hid, hd⟩, hthere⟩ := hlists
    obtain ⟨hexists, hstep⟩ := manifestExists_runSteps.mp hthere
    obtain ⟨p, hp, hpd, hchild⟩ := hshows.parents repo hrepo m hm r
      (mem_refs_runSteps.mp hr).1 hid hd hexists
    rw [mem_cleanup_manifest, ← hpd] at hstep
    exact hnone p ((mem_liveParents hkeys hrepo).mpr
      ⟨hp, (h.live repo hrepo p hp).mpr hstep, hchild⟩)

theorem Accounted.manifest_allowed_iff (hm : m ∈ repo.manifests) :
    (CleanupStep.manifest repo.id m.digest).Allowed
        (runSteps s (st.steps.map PruneStep.cleanup)) ↔
      (repo.id, m.digest) ∈ st.live ∧ st.liveParents repos repo.id m.digest = [] ∧
        st.isProtected repos repo m.digest = false := by
  have hexists : (runSteps s (st.steps.map PruneStep.cleanup)).manifestExists repo.id m.digest =
      true ↔ (repo.id, m.digest) ∈ st.live := by
    rw [manifestExists_runSteps, mem_cleanup_manifest, h.live repo hrepo m hm]
    exact and_iff_right (hshows.manifests repo hrepo m hm)
  have hspared (hdropped : (repo.id, m.digest) ∉ droppedBy st.steps) :
      (∀ name ∈ (runSteps s (st.steps.map PruneStep.cleanup)).tagsForDigest repo.id m.digest,
        (runSteps s (st.steps.map PruneStep.cleanup)).protects repo.id name = false) ↔
      st.isProtected repos repo m.digest = false := by
    simp only [h.mem_tagsForDigest hkeys hshows hrepo hdropped, runSteps_protects,
      hshows.unprotected hrepo]
    simp [isProtected, ProtectedTag]
  constructor
  · intro hallowed
    cases hallowed with
    | manifest hthere hparents hfree =>
      have hlive := hexists.mp hthere
      exact ⟨hlive, (h.indexMemberships_nil hkeys hshows hrepo hm).mp hparents,
        (hspared ((h.live repo hrepo m hm).mp hlive)).mp hfree⟩
  · rintro ⟨hlive, hparents, hfree⟩
    exact .manifest (hexists.mpr hlive) ((h.indexMemberships_nil hkeys hshows hrepo hm).mpr hparents)
      ((hspared ((h.live repo hrepo m hm).mp hlive)).mpr hfree)

/-- The row of a tag that was not taken is gone where its image was removed. -/
theorem Accounted.tag_allowed_iff (ht : t ∈ repo.tags) (hover : ¬ st.passesOver repos repo t) :
    (CleanupStep.tag repo.id t.name).Allowed (runSteps s (st.steps.map PruneStep.cleanup)) ↔
      ∀ m ∈ repo.manifests, m.digest = t.digest → (repo.id, m.digest) ∈ st.live := by
  have hleft : (repo.id, t.name) ∉ st.removedTags := fun hin => hover (.inl hin)
  have hfree : ¬ ProtectedTag repo t.name := fun hin => hover (.inr (.inl hin))
  constructor
  · intro hallowed m hm hd
    cases hallowed with
    | tag hthere _ =>
      obtain ⟨row, hrow, hkey⟩ := hthere
      obtain ⟨hrow, -, hstep⟩ := mem_tags_runSteps.mp hrow
      obtain ⟨hid, hname⟩ := Prod.mk.inj hkey
      obtain ⟨t', ht', htname, htd⟩ := hshows.tagRows repo hrepo row hrow hid
      obtain rfl := inj_on_of_nodup_map (hkeys.tags repo hrepo) ht' ht (htname.trans hname)
      rw [hid, ← htd, ← hd, mem_cleanup_manifest] at hstep
      exact (h.live repo hrepo m hm).mpr hstep
  · intro himage
    obtain ⟨row, hrow, hkey, hdigest⟩ := hshows.tags repo hrepo t ht
    obtain ⟨hid, hname⟩ := Prod.mk.inj hkey
    refine .tag ⟨row, mem_tags_runSteps.mpr ⟨hrow, ?_, ?_⟩, hkey⟩ ?_
    · rw [hid, hname]
      exact fun hstep => hleft ((h.taken repo hrepo t ht).mpr hstep)
    · rw [hid, hdigest, mem_cleanup_manifest]
      intro hdropped
      obtain ⟨r, hr, m, hm, heq⟩ := h.shown _ hdropped
      obtain ⟨hrid, hd⟩ := Prod.mk.inj heq
      obtain rfl := repo_eq_of_id hkeys hr hrepo hrid
      refine (h.live _ hr m hm).mp (himage m hm hd.symm) ?_
      rw [← hd]
      exact hdropped
    · rw [runSteps_protects]
      exact (hshows.unprotected hrepo).mpr hfree

end Allowed

/-- The steps so far were allowed one after another. -/
structure InStep (s : Tables) (repos : List ScopeRepository) (st : Pruning) : Prop
    extends Accounted repos st where
  executes : Executes s (st.steps.map PruneStep.cleanup)

theorem inStep_start {s : Tables} : InStep s repos (startPruning repos) :=
  ⟨accounted_start, .nil s⟩

end Chicoree.Images
