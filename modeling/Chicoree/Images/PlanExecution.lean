import Chicoree.Images.ProtectedTags

/-! # Executing a plan with nobody else about

What the deletions of a plan come to when they run one after another and no statement fails:
which of them go through, and what the tables are after them. -/

namespace Chicoree.Images

open Transition CleanupStep List Option Table Tables
open Registryd (Digest RepoId Repository Organization TagRule protectedRule checkTagDeletable
  checkManifestDeletable)

/-! ## One deletion after another -/

def CleanupStep.run (s : Tables) : CleanupStep → Tables
  | .tag repositoryId name => s.deleteTag repositoryId name
  | .manifest repositoryId d => s.deleteManifest repositoryId d

/-- What the step names exists, and nothing speaks against its deletion: no protected tag, no
index that lists it. -/
inductive CleanupStep.Allowed (s : Tables) : CleanupStep → Prop where
  | tag {repositoryId : RepoId} {name : String} :
      (∃ t ∈ s.tags, t.key = (repositoryId, name)) → s.protects repositoryId name = false →
      Allowed s (.tag repositoryId name)
  | manifest {repositoryId : RepoId} {d : Digest} : s.manifestExists repositoryId d = true →
      s.indexMemberships repositoryId d = [] →
      (∀ name ∈ s.tagsForDigest repositoryId d, s.protects repositoryId name = false) →
      Allowed s (.manifest repositoryId d)

/-- Every step is allowed when its turn comes. -/
inductive Executes : Tables → List CleanupStep → Prop where
  | nil (s : Tables) : Executes s []
  | cons {s : Tables} {step : CleanupStep} {rest : List CleanupStep} :
      step.Allowed s → Executes (step.run s) rest → Executes s (step :: rest)

def runSteps (s : Tables) (steps : List CleanupStep) : Tables := steps.foldl run s

def CleanupStep.repositoryId : CleanupStep → RepoId
  | .tag id _ | .manifest id _ => id

def Serves (s : Tables) (id : RepoId) : Prop :=
  ∃ r o, s.findRepository id = some r ∧ s.findOrganization r.orgId = some o ∧
    s.getRepository o.slug r.name = some r

variable {name : String}

section

variable {s s₀ : Tables} {step : CleanupStep}

@[simp] theorem run_repositories : (step.run s).repositories = s.repositories := by
  cases step <;> rfl

@[simp] theorem run_organizations : (step.run s).organizations = s.organizations := by
  cases step <;> rfl

@[simp] theorem run_tagRules : (step.run s).tagRules = s.tagRules := by
  cases step <;> rfl

variable {id : RepoId}

theorem Serves.run (h : Serves s id) : Serves (step.run s) id := by
  obtain ⟨r, o, hrepo, horg, hget⟩ := h
  refine ⟨r, o, ?_, ?_, ?_⟩
  · rw [findRepository, run_repositories]
    exact hrepo
  · rw [findOrganization, run_organizations]
    exact horg
  · rw [getRepository, run_organizations, run_repositories]
    exact hget

theorem run_protects : (step.run s).protects id name = s.protects id name := by
  unfold protects rulesOf
  rw [run_repositories, run_tagRules]

theorem serves_of_mem (hvalid : s.Valid) {r : Repository} (hr : r ∈ s.repositories)
    {o : Organization} (ho : o ∈ s.organizations) (hid : o.id = r.orgId) : Serves s r.id := by
  refine ⟨r, o, hvalid.repositoryIds.find_self hr, ?_, ?_⟩
  · rw [← hid]
    exact hvalid.organizationIds.find_self ho
  · have hname := hvalid.repositoryNames.find_self hr
    rw [getRepository, hvalid.organizationSlugs.find_self ho]
    show Table.find (fun r : Repository => (r.orgId, r.name)) (o.id, r.name) s.repositories = _
    rw [hid]
    exact hname

variable {steps : List CleanupStep}

theorem mem_runSteps {ρ : Type*} {rows : Tables → List ρ} {names : ρ → CleanupStep → Prop}
    (hone : ∀ s step x, x ∈ rows (step.run s) ↔ x ∈ rows s ∧ ¬ names x step) {x : ρ} :
    x ∈ rows (runSteps s steps) ↔ x ∈ rows s ∧ ∀ step ∈ steps, ¬ names x step := by
  induction steps generalizing s with
  | nil => simp [runSteps]
  | cons step rest ih =>
    show x ∈ rows (runSteps (step.run s) rest) ↔ _
    rw [ih, hone, forall_mem_cons, and_assoc]

theorem mem_tags_runSteps {t : TagRow} :
    t ∈ (runSteps s steps).tags ↔ t ∈ s.tags ∧ .tag t.repositoryId t.name ∉ steps ∧
      .manifest t.repositoryId t.manifestDigest ∉ steps := by
  have hone (s : Tables) (step : CleanupStep) (t : TagRow) : t ∈ (step.run s).tags ↔
      t ∈ s.tags ∧ ¬ (.tag t.repositoryId t.name = step ∨
        .manifest t.repositoryId t.manifestDigest = step) := by
    cases step with
    | tag id name => simp [run, mem_tags_deleteTag, TagRow.key]
    | manifest id d => simp [run, mem_tags_deleteManifest]
  rw [mem_runSteps hone]
  simp only [not_or, forall_and, forall_mem_ne]

theorem mem_manifests_runSteps {m : ManifestRow} : m ∈ (runSteps s steps).manifests ↔
      m ∈ s.manifests ∧ .manifest m.repositoryId m.digest ∉ steps := by
  have hone (s : Tables) (step : CleanupStep) (m : ManifestRow) : m ∈ (step.run s).manifests ↔
        m ∈ s.manifests ∧ ¬ .manifest m.repositoryId m.digest = step := by
    cases step with
    | tag id name => simp [run, deleteTag]
    | manifest id d => simp [run, deleteManifest, imp_iff_not_or]
  rw [mem_runSteps hone, forall_mem_ne]

theorem mem_refs_runSteps {r : RefRow} : r ∈ (runSteps s steps).manifestRefs ↔
      r ∈ s.manifestRefs ∧ .manifest r.repositoryId r.manifestDigest ∉ steps := by
  have hone (s : Tables) (step : CleanupStep) (r : RefRow) : r ∈ (step.run s).manifestRefs ↔
        r ∈ s.manifestRefs ∧ ¬ .manifest r.repositoryId r.manifestDigest = step := by
    cases step with
    | tag id name => simp [run, deleteTag]
    | manifest id d => simp [run, deleteManifest, imp_iff_not_or]
  rw [mem_runSteps hone, forall_mem_ne]

theorem runSteps_protects : (runSteps s steps).protects id name = s.protects id name := by
  induction steps generalizing s with
  | nil => rfl
  | cons step rest ih =>
    show (runSteps (step.run s) rest).protects id name = _
    rw [ih, run_protects]

theorem executes_append :
    Executes s (steps ++ [step]) ↔ Executes s steps ∧ step.Allowed (runSteps s steps) := by
  induction steps generalizing s with
  | nil =>
    constructor
    · intro h
      cases h with
      | cons hallowed _ => exact ⟨.nil s, hallowed⟩
    · intro h
      exact .cons h.2 (.nil _)
  | cons x rest ih =>
    constructor
    · intro h
      cases h with
      | cons hallowed hrest => exact ⟨.cons hallowed (ih.mp hrest).1, (ih.mp hrest).2⟩
    · intro ⟨hsteps, hstep⟩
      cases hsteps with
      | cons hallowed hrest => exact .cons hallowed (ih.mpr ⟨hrest, hstep⟩)

end

theorem Executes.of_prefix {s : Tables} {steps rest : List CleanupStep} (h : Executes s steps)
    (hpre : rest <+: steps) : Executes s rest := by
  obtain ⟨after, rfl⟩ := hpre
  induction rest generalizing s with
  | nil => exact .nil s
  | cons step rest ih =>
    cases h with
    | cons hallowed hrest => exact .cons hallowed (ih hrest)

/-! ## The statements of one deletion -/

section

variable (localeCompare : String → String → Ordering)

/-- A deletion of a tag that is allowed in `s₀`, statement by statement. -/
inductive TagStage (s₀ : Tables) (id : RepoId) (name : String) (r : Repository) (slug : String) :
    Tables → TagAdminPc → Prop where
  | repository : TagStage s₀ id name r slug s₀ .repository
  | organization : TagStage s₀ id name r slug s₀ (.organization r)
  | load {q : TagQueries} : (∀ x, q.target = some x → x = s₀.findTag r.id name) →
      (∀ x, q.rules = some x → x = effectiveTagRules localeCompare s₀ r.orgId r.id) →
      TagStage s₀ id name r slug s₀ (.load r slug q)
  | resolve {k : TagContext} :
      TagStage s₀ id name r slug s₀ (.registryDelete k (.resolve slug r.name (.deleteTag name)))
  | check {k : TagContext} :
      TagStage s₀ id name r slug s₀ (.registryDelete k (.checkTagDeletable r name))
  | digest {k : TagContext} :
      TagStage s₀ id name r slug s₀ (.registryDelete k (.resolveTag r name))
  | delete {k : TagContext} :
      TagStage s₀ id name r slug s₀ (.registryDelete k (.deleteTag r name))
  | deleted {k : TagContext} : TagStage s₀ id name r slug (s₀.deleteTag id name)
      (.registryDelete k (.answered 202 ""))
  | done {out : DeleteTagOutcome} :
      TagStage s₀ id name r slug (s₀.deleteTag id name) (.done (.ok out))

inductive ManifestStage (s₀ : Tables) (id : RepoId) (d : Digest) (r : Repository)
    (slug : String) : Tables → ManifestPc → Prop where
  | repository : ManifestStage s₀ id d r slug s₀ .repository
  | organization : ManifestStage s₀ id d r slug s₀ (.organization r)
  | «exists» : ManifestStage s₀ id d r slug s₀ (.«exists» r slug)
  | blocker {q : BlockerQueries} : (∀ x, q.parents = some x → x = s₀.indexMemberships r.id d) →
      (∀ x, q.tags = some x → x = s₀.tagsForDigest r.id d) →
      (∀ x, q.rules = some x → x = effectiveTagRules localeCompare s₀ r.orgId r.id) →
      ManifestStage s₀ id d r slug s₀ (.blocker r slug q)
  | resolve {tags : List String} : ManifestStage s₀ id d r slug s₀
      (.registryDelete tags (.resolve slug r.name (.deleteManifest d)))
  | check {tags : List String} :
      ManifestStage s₀ id d r slug s₀ (.registryDelete tags (.checkManifestDeletable r d))
  | tags {tags : List String} :
      ManifestStage s₀ id d r slug s₀ (.registryDelete tags (.tagsForManifest r d))
  | delete {tags : List String} :
      ManifestStage s₀ id d r slug s₀ (.registryDelete tags (.deleteManifest r d))
  | deleted {tags : List String} : ManifestStage s₀ id d r slug (s₀.deleteManifest id d)
      (.registryDelete tags (.answered 202 ""))
  | done {tags : List String} :
      ManifestStage s₀ id d r slug (s₀.deleteManifest id d) (.done (.ok tags))

variable {localeCompare}
variable {s₀ s s' : Tables} {id : RepoId} {r : Repository} {slug : String}

theorem not_protects (hrepo : s₀.findRepository id = some r)
    (h : s₀.protects id name = false) : protectedRule (s₀.rulesOf r) name = none := by
  obtain ⟨hmem, hid⟩ := find_some hrepo
  exact protects_eq_false.mp h r hmem hid

theorem CleanupStep.Allowed.tag_found (h : (CleanupStep.tag id name).Allowed s₀)
    (hrepo : s₀.findRepository id = some r) :
    (∃ row, s₀.findTag id name = some row) ∧ protectedRule (s₀.rulesOf r) name = none := by
  cases h with
  | tag htag hfree =>
    refine ⟨?_, not_protects hrepo hfree⟩
    obtain ⟨t, ht, hkey⟩ := htag
    cases hfind : s₀.findTag id name with
    | some row => exact ⟨row, rfl⟩
    | none => exact absurd hkey (find_none hfind ht)

variable {d : Digest}

theorem CleanupStep.Allowed.manifest_found (h : (CleanupStep.manifest id d).Allowed s₀)
    (hrepo : s₀.findRepository id = some r) : s₀.manifestExists id d = true ∧
      s₀.indexMemberships id d = [] ∧
      ∀ name ∈ s₀.tagsForDigest id d, protectedRule (s₀.rulesOf r) name = none := by
  cases h with
  | manifest hexists hparents hfree =>
    exact ⟨hexists, hparents, fun name hname => not_protects hrepo (hfree name hname)⟩

variable {names : List String}

theorem manifestDeleteBlocker_none
    (h : ∀ name ∈ names, protectedRule (s₀.rulesOf r) name = none) (d : RepoId) :
    manifestDeleteBlocker s₀ d [] names (effectiveTagRules localeCompare s₀ r.orgId r.id) =
      none := by
  unfold manifestDeleteBlocker
  rw [isEmpty_nil, if_pos rfl, map_eq_none_iff, findSome?_eq_none_iff]
  intro name hname
  exact protectedReason_none.mpr (effectiveTagRules_protected.mpr (h name hname))

theorem checkManifestDeletable_of {rules : List TagRule}
    (h : ∀ name ∈ names, protectedRule rules name = none) :
    checkManifestDeletable rules d names = .ok () := by
  induction names with
  | nil => rfl
  | cons name rest ih =>
    rw [checkManifestDeletable, h name mem_cons_self]
    exact ih fun x hx => h x (mem_cons_of_mem name hx)

variable {pc : TagAdminPc}

section

variable {o : Organization} {a : Reply} (hrepo : s₀.findRepository id = some r)
  (horg : s₀.findOrganization r.orgId = some o) (hslug : o.slug = slug)
  (hget : s₀.getRepository slug r.name = some r)
include hrepo horg hslug hget

theorem tagStage_step {pc' : TagAdminPc} (hallowed : (tag id name).Allowed s₀)
  (ha : a ≠ .failed) (hst : TagStage localeCompare s₀ id name r slug s pc)
  (h : tagAdminAct localeCompare s ⟨id, name, false⟩ pc a = some (s', pc')) :
    TagStage localeCompare s₀ id name r slug s' pc' := by
  obtain rfl : r.id = id := (find_some hrepo).2
  obtain ⟨⟨row, hrow⟩, hrule⟩ := hallowed.tag_found hrepo
  cases hst with
  | repository =>
    simp only [tagAdminAct, ha, if_false, hrepo] at h
    cases h
    exact .organization
  | organization =>
    simp only [tagAdminAct, ha, if_false, horg, hslug] at h
    cases h
    exact .load (fun _ hx => by cases hx) (fun _ hx => by cases hx)
  | @load q htarget hrules =>
    cases a with
    | query n =>
      simp only [tagAdminAct] at h
      cases h
      cases n with
      | zero => exact .load (fun _ hx => (Option.some.inj hx).symm) hrules
      | succ n =>
        cases n with
        | zero => exact .load htarget hrules
        | succ n => exact .load htarget (fun _ hx => (Option.some.inj hx).symm)
    | ok =>
      cases hqt : q.target with
      | none => simp [tagAdminAct, hqt] at h
      | some target =>
      cases hql : q.latest with
      | none => simp [tagAdminAct, hqt, hql] at h
      | some latest =>
      cases hqr : q.rules with
      | none => simp [tagAdminAct, hqt, hql, hqr] at h
      | some rules =>
        obtain rfl := htarget target hqt
        obtain rfl := hrules rules hqr
        have hreason : protectedReason (effectiveTagRules localeCompare s₀ r.orgId r.id) name =
            none :=
          protectedReason_none.mpr (effectiveTagRules_protected.mpr hrule)
        simp only [tagAdminAct, hqt, hql, hqr, TagRemoval.check, hrow, hreason] at h
        cases h
        exact .resolve
    | _ => first | exact absurd rfl ha | simp [tagAdminAct] at h
  | resolve =>
    simp only [tagAdminAct, registryAct, ha, if_false, resolveRepository, hget,
      RegistryRequest.start, map_some] at h
    cases h
    exact .check
  | check =>
    have hok : checkTagDeletable (s₀.rulesOf r) name = .ok () := by
      unfold checkTagDeletable
      rw [hrule]
    simp only [tagAdminAct, registryAct, ha, if_false, hok, map_some] at h
    cases h
    exact .digest
  | digest =>
    simp only [tagAdminAct, registryAct, map_some] at h
    cases h
    exact .delete
  | delete =>
    simp only [tagAdminAct, registryAct, ha, if_false, hrow, isNone_some,
      Bool.false_eq_true, map_some] at h
    cases h
    exact .deleted
  | deleted =>
    simp only [tagAdminAct, TagRemoval.deleted] at h
    cases h
    exact .done
  | done => simp [tagAdminAct] at h

theorem manifestStage_step {pc pc' : ManifestPc}
  (hallowed : (manifest id d).Allowed s₀) (ha : a ≠ .failed)
  (hst : ManifestStage localeCompare s₀ id d r slug s pc)
  (h : manifestAct localeCompare s id d pc a = some (s', pc')) :
    ManifestStage localeCompare s₀ id d r slug s' pc' := by
  obtain rfl : r.id = id := (find_some hrepo).2
  obtain ⟨hexists, hparents, hfree⟩ := hallowed.manifest_found hrepo
  cases hst with
  | repository =>
    simp only [manifestAct, ha, if_false, hrepo] at h
    cases h
    exact .organization
  | organization =>
    simp only [manifestAct, ha, if_false, horg, hslug] at h
    cases h
    exact .«exists»
  | «exists» =>
    simp only [manifestAct, ha, if_false, hexists, if_true] at h
    cases h
    exact .blocker (fun _ hx => by cases hx) (fun _ hx => by cases hx) (fun _ hx => by cases hx)
  | @blocker q hqparents hqtags hqrules =>
    cases a with
    | query n =>
      simp only [manifestAct] at h
      cases h
      cases n with
      | zero => exact .blocker (fun _ hx => (Option.some.inj hx).symm) hqtags hqrules
      | succ n =>
        cases n with
        | zero => exact .blocker hqparents (fun _ hx => (Option.some.inj hx).symm) hqrules
        | succ n => exact .blocker hqparents hqtags (fun _ hx => (Option.some.inj hx).symm)
    | ok =>
      cases hp : q.parents with
      | none => simp [manifestAct, hp] at h
      | some parents =>
      cases ht : q.tags with
      | none => simp [manifestAct, hp, ht] at h
      | some tags =>
      cases hr : q.rules with
      | none => simp [manifestAct, hp, ht, hr] at h
      | some rules =>
        obtain rfl := hqparents parents hp
        obtain rfl := hqtags tags ht
        obtain rfl := hqrules rules hr
        simp only [manifestAct, hp, ht, hr, hparents, manifestDeleteBlocker_none hfree] at h
        cases h
        exact .resolve
    | _ => first | exact absurd rfl ha | simp [manifestAct] at h
  | resolve =>
    simp only [manifestAct, registryAct, ha, if_false, resolveRepository, hget,
      RegistryRequest.start, map_some] at h
    cases h
    exact .check
  | check =>
    simp only [manifestAct, registryAct, ha, if_false, checkManifestDeletable_of hfree,
      map_some] at h
    cases h
    exact .tags
  | tags =>
    simp only [manifestAct, registryAct, map_some] at h
    cases h
    exact .delete
  | delete =>
    simp only [manifestAct, registryAct, ha, if_false, hexists, if_true, map_some] at h
    cases h
    exact .deleted
  | deleted =>
    simp only [manifestAct, manifestDeleted] at h
    cases h
    exact .done
  | done => simp [manifestAct] at h

end

/-! ## The statements of a run -/

def Deletion.refused : Deletion → Bool
  | .tag _ _ (.done (.error _)) | .manifest _ _ (.done (.error _)) => true
  | _ => false

variable (localeCompare)

/-- The deletion under way, of a step that is allowed in `s₀`. -/
inductive DeletionStage (s₀ : Tables) : CleanupStep → Tables → Deletion → Prop where
  | tag {id : RepoId} {name : String} {r : Repository} {o : Organization} {s : Tables}
      {pc : TagAdminPc} : s₀.findRepository id = some r → s₀.findOrganization r.orgId = some o →
      s₀.getRepository o.slug r.name = some r →
      TagStage localeCompare s₀ id name r o.slug s pc →
      DeletionStage s₀ (.tag id name) s (.tag id name pc)
  | manifest {id : RepoId} {d : Digest} {r : Repository} {o : Organization} {s : Tables}
      {pc : ManifestPc} : s₀.findRepository id = some r → s₀.findOrganization r.orgId = some o →
      s₀.getRepository o.slug r.name = some r →
      ManifestStage localeCompare s₀ id d r o.slug s pc →
      DeletionStage s₀ (.manifest id d) s (.manifest id d pc)

variable {localeCompare}

variable {step : CleanupStep} {x : Deletion}

theorem deletionStage_step {x' : Deletion} {a : Reply}
    (hallowed : step.Allowed s₀) (ha : a ≠ .failed)
    (hst : DeletionStage localeCompare s₀ step s x)
    (h : deletionAct localeCompare s x a = some (s', x')) :
    DeletionStage localeCompare s₀ step s' x' := by
  cases hst with
  | tag hrepo horg hget hst =>
    obtain ⟨out, hact, heq⟩ := map_eq_some_iff.mp h
    obtain ⟨rfl, rfl⟩ := Prod.mk.inj heq
    exact .tag hrepo horg hget (tagStage_step hrepo horg rfl hget hallowed ha hst hact)
  | manifest hrepo horg hget hst =>
    obtain ⟨out, hact, heq⟩ := map_eq_some_iff.mp h
    obtain ⟨rfl, rfl⟩ := Prod.mk.inj heq
    exact .manifest hrepo horg hget (manifestStage_step hrepo horg rfl hget hallowed ha hst hact)

theorem DeletionStage.start (h : Serves s step.repositoryId) :
    DeletionStage localeCompare s step s step.start := by
  obtain ⟨r, o, hrepo, horg, hget⟩ := h
  cases step with
  | tag id name => exact .tag hrepo horg hget .repository
  | manifest id d => exact .manifest hrepo horg hget .repository

theorem DeletionStage.ended
    (h : DeletionStage localeCompare s₀ step s x) (hdone : x.isDone = true) :
    s = step.run s₀ := by
  cases h with
  | tag _ _ _ hst | manifest _ _ _ hst =>
    cases hst with
    | done => rfl
    | _ => cases hdone

theorem DeletionStage.not_refused
    (h : DeletionStage localeCompare s₀ step s x) : x.refused = false := by
  cases h with
  | tag _ _ _ hst | manifest _ _ _ hst => cases hst <;> rfl

variable (localeCompare)

inductive ExecutionStage : Tables → Execution → Prop where
  | between {s : Tables} {e : Execution} : e.current = none → Executes s e.todo →
      (∀ step ∈ e.todo, Serves s step.repositoryId) → ExecutionStage s e
  | under {s₀ s : Tables} {e : Execution} {step : CleanupStep} {x : Deletion} :
      e.current = some x → step.Allowed s₀ → DeletionStage localeCompare s₀ step s x →
      Executes (step.run s₀) e.todo →
      (∀ step' ∈ e.todo, Serves (step.run s₀) step'.repositoryId) → ExecutionStage s e

variable {localeCompare}

theorem executionStage_step {e e' : Execution} {a : Reply} (ha : a ≠ .failed)
    (hst : ExecutionStage localeCompare s e)
    (h : executionAct localeCompare s e a = some (s', e')) :
    ExecutionStage localeCompare s' e' := by
  cases hst with
  | between hnone hexec hserves =>
    unfold executionAct at h
    rw [hnone] at h
    cases htodo : e.todo with
    | nil =>
      rw [htodo] at h
      cases h
    | cons step rest =>
      rw [htodo] at h hexec hserves
      cases h
      cases hexec with
      | cons hallowed hrest =>
        exact .under rfl hallowed (DeletionStage.start (hserves step mem_cons_self)) hrest
          fun step' hstep => (hserves step' (mem_cons_of_mem step hstep)).run
  | @under s₀ _ _ step x hsome hallowed hdel hexec hserves =>
    unfold executionAct at h
    rw [hsome] at h
    cases hdone : x.isDone with
    | true =>
      simp only [hdone, if_true] at h
      cases h
      obtain rfl := hdel.ended hdone
      exact .between rfl hexec hserves
    | false =>
      simp only [hdone, Bool.false_eq_true, if_false] at h
      obtain ⟨out, hact, heq⟩ := map_eq_some_iff.mp h
      obtain ⟨rfl, rfl⟩ := Prod.mk.inj heq
      exact .under rfl hallowed (deletionStage_step hallowed ha hdel hact) hexec hserves

/-! ## Whole runs -/

variable {seen : List TagRow} {rest : List CleanupStep}

theorem executionAct_tag {a : Reply} {out : Tables × TagAdminPc}
    (h : tagAdminAct localeCompare s ⟨id, name, false⟩ pc a = some out) :
    executionAct localeCompare s ⟨seen, some (.tag id name pc), rest⟩ a =
      some (out.1, ⟨seen, some (.tag id name out.2), rest⟩) := by
  have hopen : (Deletion.tag id name pc).isDone = false := by
    cases pc with
    | done => cases h
    | _ => rfl
  simp [executionAct, hopen, deletionAct, h]

theorem executionAct_manifest {pc : ManifestPc} {a : Reply} {out : Tables × ManifestPc}
    (h : manifestAct localeCompare s id d pc a = some out) :
    executionAct localeCompare s ⟨seen, some (.manifest id d pc), rest⟩ a =
      some (out.1, ⟨seen, some (.manifest id d out.2), rest⟩) := by
  have hopen : (Deletion.manifest id d pc).isDone = false := by
    cases pc with
    | done => cases h
    | _ => rfl
  simp [executionAct, hopen, deletionAct, h]

section

variable {o : Organization} (hrepo : s.findRepository id = some r)
  (horg : s.findOrganization r.orgId = some o) (hget : s.getRepository o.slug r.name = some r)
include hrepo horg hget

theorem tag_completes (hallowed : (tag id name).Allowed s) :
    ∃ replies out, (∀ a ∈ replies, a ≠ .failed) ∧
      alone (tagAdminAct localeCompare · ⟨id, name, false⟩) s .repository replies =
        some (s.deleteTag id name, .done (.ok out)) := by
  obtain ⟨⟨row, hrow⟩, hrule⟩ := hallowed.tag_found hrepo
  have hreason : protectedReason (effectiveTagRules localeCompare s r.orgId r.id) name = none :=
    protectedReason_none.mpr (effectiveTagRules_protected.mpr hrule)
  have hdeletable : checkTagDeletable (s.rulesOf r) name = .ok () := by
    unfold checkTagDeletable
    rw [hrule]
  obtain rfl : r.id = id := (find_some hrepo).2
  let rules := effectiveTagRules localeCompare s r.orgId r.id
  let q : TagQueries := ⟨some (some row), some (s.findTag r.id "latest"), some rules⟩
  let k : TagContext := ⟨r, o.slug, row, s.findTag r.id "latest", rules⟩
  have hload : alone (tagAdminAct localeCompare · ⟨r.id, name, false⟩) s .repository
      [.ok, .ok, .query 0, .query 1, .query 2] = some (s, .load r o.slug q) := by
    refine alone_cons s (.organization r) ?_ ?_
    · simp [tagAdminAct, hrepo]
    refine alone_cons s (.load r o.slug {}) ?_ ?_
    · simp [tagAdminAct, horg]
    simp only [alone, tagAdminAct, TagQueries.answer, hrow]
    rfl
  have hcheck : alone (tagAdminAct localeCompare · ⟨r.id, name, false⟩) s (.load r o.slug q)
      [.ok] = some (s, .registryDelete k (.resolve o.slug r.name (.deleteTag name))) := by
    refine alone_cons s _ ?_ rfl
    simp [tagAdminAct, q, k, TagRemoval.check, rules, hreason]
  have hdelete : alone (tagAdminAct localeCompare · ⟨r.id, name, false⟩) s
      (.registryDelete k (.resolve o.slug r.name (.deleteTag name)))
      [.ok, .ok, .ok, .ok, .ok] =
        some (s.deleteTag r.id name, .done (.ok ⟨name, .unchanged, none⟩)) := by
    refine alone_cons s (.registryDelete k (.checkTagDeletable r name)) ?_ ?_
    · simp [tagAdminAct, registryAct, resolveRepository, hget, RegistryRequest.start]
    refine alone_cons s (.registryDelete k (.resolveTag r name)) ?_ ?_
    · simp [tagAdminAct, registryAct, hdeletable]
    refine alone_cons s (.registryDelete k (.deleteTag r name)) ?_ ?_
    · simp [tagAdminAct, registryAct]
    refine alone_cons (s.deleteTag r.id name) (.registryDelete k (.answered 202 "")) ?_ ?_
    · simp [tagAdminAct, registryAct, hrow]
    rfl
  exact ⟨_, _, by simp, alone_append hload (alone_append hcheck hdelete)⟩

theorem manifest_completes (hallowed : (manifest id d).Allowed s) :
    ∃ replies tags, (∀ a ∈ replies, a ≠ .failed) ∧
      alone (manifestAct localeCompare · id d) s .repository replies =
        some (s.deleteManifest id d, .done (.ok tags)) := by
  obtain ⟨hexists, hparents, hfree⟩ := hallowed.manifest_found hrepo
  obtain rfl : r.id = id := (find_some hrepo).2
  have hdeletable := checkManifestDeletable_of (d := d) hfree
  have hnone : manifestDeleteBlocker s r.id [] (s.tagsForDigest r.id d)
      (effectiveTagRules localeCompare s r.orgId r.id) = none :=
    manifestDeleteBlocker_none hfree r.id
  let tags := s.tagsForDigest r.id d
  let q : BlockerQueries :=
    ⟨some [], some tags, some (effectiveTagRules localeCompare s r.orgId r.id)⟩
  have hload : alone (manifestAct localeCompare · r.id d) s .repository
      [.ok, .ok, .ok, .query 0, .query 1, .query 2] = some (s, .blocker r o.slug q) := by
    refine alone_cons s (.organization r) ?_ ?_
    · simp [manifestAct, hrepo]
    refine alone_cons s (.«exists» r o.slug) ?_ ?_
    · simp [manifestAct, horg]
    refine alone_cons s (.blocker r o.slug {}) ?_ ?_
    · simp [manifestAct, hexists]
    simp only [alone, manifestAct, BlockerQueries.answer, hparents]
    rfl
  have hcheck : alone (manifestAct localeCompare · r.id d) s (.blocker r o.slug q) [.ok] =
      some (s, .registryDelete tags (.resolve o.slug r.name (.deleteManifest d))) := by
    refine alone_cons s _ ?_ rfl
    simp [manifestAct, q, tags, hnone]
  have hdelete : alone (manifestAct localeCompare · r.id d) s
      (.registryDelete tags (.resolve o.slug r.name (.deleteManifest d)))
      [.ok, .ok, .ok, .ok, .ok] = some (s.deleteManifest r.id d, .done (.ok tags)) := by
    refine alone_cons s (.registryDelete tags (.checkManifestDeletable r d)) ?_ ?_
    · simp [manifestAct, registryAct, resolveRepository, hget, RegistryRequest.start]
    refine alone_cons s (.registryDelete tags (.tagsForManifest r d)) ?_ ?_
    · simp [manifestAct, registryAct, hdeletable]
    refine alone_cons s (.registryDelete tags (.deleteManifest r d)) ?_ ?_
    · simp [manifestAct, registryAct]
    refine alone_cons (s.deleteManifest r.id d) (.registryDelete tags (.answered 202 "")) ?_ ?_
    · simp [manifestAct, registryAct, hexists]
    rfl
  exact ⟨_, _, by simp, alone_append hload (alone_append hcheck hdelete)⟩

end

theorem deletion_completes (hallowed : step.Allowed s)
    (hserves : Serves s step.repositoryId) (seen : List TagRow) (rest : List CleanupStep) :
    ∃ replies x, (∀ a ∈ replies, a ≠ .failed) ∧ x.isDone = true ∧
      alone (executionAct localeCompare) s ⟨seen, some step.start, rest⟩ replies =
        some (step.run s, ⟨seen, some x, rest⟩) := by
  obtain ⟨r, o, hrepo, horg, hget⟩ := hserves
  cases step with
  | tag id name =>
    obtain ⟨replies, out, hok, hrun⟩ := tag_completes hrepo horg hget hallowed
    exact ⟨replies, .tag id name (.done (.ok out)), hok, rfl, alone_embed executionAct_tag hrun⟩
  | manifest id d =>
    obtain ⟨replies, tags, hok, hrun⟩ := manifest_completes hrepo horg hget hallowed
    exact ⟨replies, .manifest id d (.done (.ok tags)), hok, rfl, alone_embed executionAct_manifest hrun⟩

variable {steps : List CleanupStep}

theorem execution_completes (h : Executes s steps)
    (hserves : ∀ step ∈ steps, Serves s step.repositoryId) (seen : List TagRow) :
    ∃ replies, (∀ a ∈ replies, a ≠ .failed) ∧
      alone (executionAct localeCompare) s ⟨seen, none, steps⟩ replies =
        some (runSteps s steps, ⟨seen, none, []⟩) := by
  induction h with
  | nil s => exact ⟨[], (fun _ ha => by cases ha), rfl⟩
  | @cons s step rest hallowed _ ih =>
    obtain ⟨first, x, hfirst, hdone, hrun⟩ := deletion_completes hallowed
      (hserves step mem_cons_self) seen rest
    obtain ⟨after, hafter, hrest⟩ := ih fun step' hstep =>
      (hserves step' (mem_cons_of_mem step hstep)).run
    have hstart : alone (executionAct localeCompare) s ⟨seen, none, step :: rest⟩ [.ok] =
        some (s, ⟨seen, some step.start, rest⟩) := rfl
    have hend : alone (executionAct localeCompare) (step.run s) ⟨seen, some x, rest⟩ [.ok] =
        some (step.run s, ⟨seen, none, rest⟩) := by
      simp [alone, executionAct, hdone]
    refine ⟨[.ok] ++ (first ++ ([.ok] ++ after)), ?_,
      alone_append hstart (alone_append hrun (alone_append hend hrest))⟩
    intro a ha
    simp only [mem_append, mem_singleton] at ha
    obtain rfl | ha | rfl | ha := ha
    · simp
    · exact hfirst a ha
    · simp
    · exact hafter a ha

variable (localeCompare)

/-- The deletions of a plan, where no statement fails: none of them is refused, and the run
comes to its end with everything deleted. -/
structure Executable (s : Tables) (steps : List CleanupStep) : Prop where
  safe : ∀ seen replies s' e', (∀ a ∈ replies, a ≠ .failed) →
    alone (executionAct localeCompare) s ⟨seen, none, steps⟩ replies = some (s', e') →
    ∀ x, e'.current = some x → x.refused = false
  ends : ∀ seen, ∃ replies, (∀ a ∈ replies, a ≠ .failed) ∧
    alone (executionAct localeCompare) s ⟨seen, none, steps⟩ replies =
      some (runSteps s steps, ⟨seen, none, []⟩)

variable {localeCompare}

theorem executable_of_executes (h : Executes s steps)
    (hserves : ∀ step ∈ steps, Serves s step.repositoryId) :
    Executable localeCompare s steps := by
  refine ⟨?_, ?_⟩
  · intro seen replies s' e' hreplies hrun x hx
    have hstage := alone_invariant_of (· ≠ .failed)
      (fun _ _ _ _ _ ha hst hact => executionStage_step ha hst hact) hreplies
      (ExecutionStage.between rfl h hserves) hrun
    cases hstage with
    | between hnone => rw [hnone] at hx; cases hx
    | under hsome _ hdel _ _ =>
      obtain rfl := Option.some.inj (hsome.symm.trans hx)
      exact hdel.not_refused
  · intro seen
    exact execution_completes h hserves seen

end

end Chicoree.Images
