import Chicoree.Images.TableChanges

/-! # What a cleanup run removes

A run names tags and digests and sends no state along, so that whatever stands under a name when
registryd gets to it is removed. -/

namespace Chicoree.Images

open Transition List Option Table
open Registryd (Digest RepoId Repository Organization TagRuleRow)

variable {localeCompare : String → String → Ordering} {rules : List TagRuleRow}

/-! ## Pushes and runs -/

def Surroundings.keepsRepositories : Surroundings → Bool
  | .clock _ | .pulled _ _ => true
  | _ => false

/-- All tasks side by side, while no repository is deleted or created by hand. -/
def cleanupProgram (localeCompare : String → String → Ordering) (rules : List TagRuleRow) :
    Program Tables Task Reply Surroundings :=
  { removalProgram localeCompare rules with
    env := fun s e => if e.keepsRepositories then surroundings s e else none }

abbrev cleanups (localeCompare : String → String → Ordering) (rules : List TagRuleRow) :
    Machine (Pool Tables Task) (Move Task Reply Surroundings) :=
  (cleanupProgram localeCompare rules).machine

def CleanupStep.removes : CleanupStep → TagRow → Bool
  | .tag repositoryId name, t => decide (t.key = (repositoryId, name))
  | .manifest repositoryId d, t => decide (t.repositoryId = repositoryId ∧ t.manifestDigest = d)

def TagAdminPc.deleting : TagAdminPc → Bool
  | .repository | .organization _ | .load _ _ _ => true
  | .registryDelete _ c => !c.isAnswered
  | _ => false

def ManifestPc.deleting : ManifestPc → Bool
  | .repository | .organization _ | .«exists» _ _ | .blocker _ _ _ => true
  | .registryDelete _ c => !c.isAnswered
  | .done _ => false

def Deletion.pending : Deletion → List CleanupStep
  | .tag repositoryId name pc => if pc.deleting then [.tag repositoryId name] else []
  | .manifest repositoryId d pc => if pc.deleting then [.manifest repositoryId d] else []

def Execution.pending (e : Execution) : List CleanupStep :=
  (e.current.map Deletion.pending).getD [] ++ e.todo

def Task.willRemove (x : TagRow) (t : Task) : Bool :=
  t.execution.any fun e => e.pending.any (·.removes x)

def SamePush.check (t t' : TagRow) : Bool :=
  decide (t.key = t'.key ∧ t.manifestDigest = t'.manifestDigest ∧ t.updatedAt = t'.updatedAt)

def upToDate (s : Tables) (seen : List TagRow) (steps : List CleanupStep) : Bool :=
  s.tags.all fun x => !steps.any (·.removes x) || seen.any (SamePush.check · x)

/-- **The condition on a step**: no push writes a tag that a run has still to remove, by its
name or with its manifest, and none has done so between the first query of a run and its
plan. -/
def undisturbed (localeCompare : String → String → Ordering) (p : Pool Tables Task) :
    Move Task Reply Surroundings → Bool
  | .act i a =>
    match p.tasks[i]? with
    | none => true
    | some t =>
      ((t.writes p.shared a).all fun x => p.tasks.all fun q => !q.willRemove x) &&
      (t.plan localeCompare p.shared).all fun (seen, steps) =>
        decide (a ≠ .ok) || upToDate p.shared seen steps
  | _ => true

abbrev Undisturbed (localeCompare : String → String → Ordering) (p : Pool Tables Task)
    (m : Move Task Reply Surroundings) : Prop :=
  undisturbed localeCompare p m = true

/-- A statement of a run: the tags it removes, by name or with their manifest, stand as the
plan has seen them. -/
structure Spares (e : Execution) (s s' : Tables) : Prop where
  tags : ∀ x ∈ s.tags, (∀ x' ∈ s'.tags, x'.key ≠ x.key) → ∃ y ∈ e.seen, SamePush y x
  manifests : ∀ m ∈ s.manifests, s'.manifestExists m.repositoryId m.digest = false →
    ∀ x ∈ s.tags, x.repositoryId = m.repositoryId → x.manifestDigest = m.digest →
      ∃ y ∈ e.seen, SamePush y x

/-- Organizations stay as they are, and repositories keep their rows. -/
structure Steady (s s' : Tables) : Prop where
  organizations : s'.organizations = s.organizations
  repositories : ∃ new, s'.repositories = s.repositories ++ new

section

variable {s s' : Tables} {a : Reply} {repo : RepoId} {name : String} {d : Digest} {r : Repository}

theorem Steady.refl : Steady s s := ⟨rfl, [], (append_nil _).symm⟩

theorem Steady.created (h : s.createRepository r = some s') : Steady s s' := by
  obtain ⟨-, -, rfl⟩ := createRepository_some h
  exact ⟨rfl, [r], rfl⟩

variable {c : RegistryCall}

theorem registryChange_steady (h : RegistryChange s a c s') : Steady s s' := by
  cases h with
  | created row => exact .created row
  | _ => exact ⟨rfl, [], (append_nil _).symm⟩

variable {i : Nat} {t t' : Task}

theorem taskAct_steady (h : taskAct localeCompare s i t a = some (s', t')) : Steady s s' := by
  cases taskAct_step h with
  | call step =>
    generalize t.call = c, t'.call = c' at step
    cases step with
    | reads => exact .refl
    | registry act => exact registryChange_steady (registryAct_change act)
  | created r row => exact .created row
  | form repositoryId tagName r task ran tables | evict unusedFor dryRun cutoff task ran tables
  | prune olderThan cutoff task tables =>
    subst tables
    exact ⟨rfl, [], (append_nil _).symm⟩

theorem Steady.mem (h : Steady s s') (hr : r ∈ s.repositories) : r ∈ s'.repositories := by
  obtain ⟨new, hnew⟩ := h.repositories
  rw [hnew]
  exact mem_append_left _ hr

theorem Steady.getRepository {orgSlug : String} (h : Steady s s')
    (hr : s.getRepository orgSlug name = some r) : s'.getRepository orgSlug name = some r := by
  obtain ⟨new, hnew⟩ := h.repositories
  unfold Tables.getRepository at hr ⊢
  rw [h.organizations, hnew]
  split at hr
  · cases hr
  · exact find_append_of_some hr

theorem Tables.Valid.getRepository {o : Organization} (hv : s.Valid) (hr : r ∈ s.repositories)
    (ho : s.findOrganization r.orgId = some o) : s.getRepository o.slug r.name = some r := by
  obtain ⟨hmem, hid⟩ := find_some ho
  unfold Tables.getRepository
  rw [hv.organizationSlugs.find_self hmem]
  change Table.find (fun r : Repository => (r.orgId, r.name)) (o.id, r.name) s.repositories = some r
  rw [hid]
  exact hv.repositoryNames.find_self hr

/-! ## The deletion under way -/

/-- The request deletes what it was sent for, in the repository of the step. -/
def CallFor (s : Tables) (repo : RepoId) (request : RegistryRequest) : RegistryCall → Prop
  | .resolve orgSlug name rq =>
    rq = request ∧ ∃ r, s.getRepository orgSlug name = some r ∧ r.id = repo
  | .checkTagDeletable r tag | .resolveTag r tag | .deleteTag r tag =>
    r.id = repo ∧ request = .deleteTag tag
  | .checkManifestDeletable r d | .tagsForManifest r d | .deleteManifest r d =>
    r.id = repo ∧ request = .deleteManifest d
  | .answered _ _ => True
  | _ => False

def RegistryRequest.isDelete : RegistryRequest → Bool
  | .put _ _ => false
  | _ => true

variable {request : RegistryRequest}

theorem CallFor.steady
    (h : CallFor s repo request c) (hs : Steady s s') : CallFor s' repo request c := by
  cases c with
  | resolve orgSlug name rq =>
    obtain ⟨hrq, r, hr, hid⟩ := h
    exact ⟨hrq, r, hs.getRepository hr, hid⟩
  | _ => exact h

theorem CallFor.act {π : Type} {w : RegistryCall → π} {pc' : π}
    (hc : CallFor s repo request c) (hdelete : request.isDelete = true)
    (h : (registryAct s c a).map (fun out => (out.1, w out.2)) = some (s', pc')) :
    ∃ c', pc' = w c' ∧ CallFor s' repo request c' := by
  obtain ⟨⟨s₁, c'⟩, hact, hout⟩ := map_eq_some_iff.mp h
  cases hout
  refine ⟨c', rfl, ?_⟩
  cases registryAct_step hact with
  | refused | unknown | tagUnknown | tagDeleted | manifestDeleted | manifestUnknown => trivial
  | mutable | manifest | untagged | tagged => exact hc.elim
  | resolved row =>
    obtain ⟨rfl, r, hr, hid⟩ := hc
    obtain rfl := Option.some.inj (row.symm.trans hr)
    cases ‹RegistryRequest› with
    | put => cases hdelete
    | deleteTag tag | deleteManifest d => exact ⟨hid, rfl⟩
  | created row =>
    obtain ⟨-, r, hr, -⟩ := hc
    rw [row] at hr
    cases hr
  | deletable | tagResolved | manifestDeletable | tagsFound => exact hc

/-- `deleteTag` on behalf of a run, in the repository of its step. -/
def TagRunOk (s : Tables) (repo : RepoId) (name : String) : TagAdminPc → Prop
  | .repository | .done _ => True
  | .organization r => r ∈ s.repositories ∧ r.id = repo
  | .load r orgSlug _ => s.getRepository orgSlug r.name = some r ∧ r.id = repo
  | .registryDelete _ c => CallFor s repo (.deleteTag name) c
  | _ => False

def ManifestRunOk (s : Tables) (repo : RepoId) (d : Digest) : ManifestPc → Prop
  | .repository | .done _ => True
  | .organization r => r ∈ s.repositories ∧ r.id = repo
  | .«exists» r orgSlug | .blocker r orgSlug _ =>
    s.getRepository orgSlug r.name = some r ∧ r.id = repo
  | .registryDelete _ c => CallFor s repo (.deleteManifest d) c

def DeletionOk (s : Tables) : Deletion → Prop
  | .tag repo name pc => TagRunOk s repo name pc
  | .manifest repo d pc => ManifestRunOk s repo d pc

theorem DeletionOk.steady {x : Deletion} (h : DeletionOk s x) (hs : Steady s s') :
    DeletionOk s' x := by
  cases x with
  | tag repo name pc =>
    cases pc with
    | organization r => exact ⟨hs.mem h.1, h.2⟩
    | load r orgSlug q => exact ⟨hs.getRepository h.1, h.2⟩
    | registryDelete k c => exact CallFor.steady h hs
    | _ => exact h
  | manifest repo d pc =>
    cases pc with
    | organization r => exact ⟨hs.mem h.1, h.2⟩
    | «exists» r orgSlug => exact ⟨hs.getRepository h.1, h.2⟩
    | blocker r orgSlug q => exact ⟨hs.getRepository h.1, h.2⟩
    | registryDelete tags c => exact CallFor.steady h hs
    | _ => exact h

/-- What an answered delete of a run leads to: the run never touches `latest`. -/
theorem deleted_run {k : TagContext} {status : Nat} {message : String} :
    ∃ result, TagRemoval.deleted ⟨repo, name, false⟩ k status message = .done result := by
  unfold TagRemoval.deleted
  repeat' split
  all_goals first | exact ⟨_, rfl⟩ | simp_all

theorem TagRunOk.act {pc pc' : TagAdminPc} (hv : s.Valid) (hpc : TagRunOk s repo name pc)
    (h : tagAdminAct localeCompare s ⟨repo, name, false⟩ pc a = some (s', pc')) :
    TagRunOk s' repo name pc' ∧ (pc'.deleting = true → pc.deleting = true) := by
  cases pc with
  | done => cases h
  | remaining | deleteLatest | pickNewest | fetchManifest | putLatest => exact hpc.elim
  | repository | organization r =>
    refine ⟨?_, fun _ => rfl⟩
    simp only [tagAdminAct] at h
    split at h
    · cases h
      trivial
    · split at h <;> cases h
      · trivial
      · rename_i hfound
        first
          | exact find_some hfound
          | exact ⟨hv.getRepository hpc.1 hfound, hpc.2⟩
  | load r orgSlug q =>
    refine ⟨?_, fun _ => rfl⟩
    simp only [tagAdminAct] at h
    split at h
    · cases h
      exact hpc
    · split at h <;> cases h
      unfold TagRemoval.check
      split
      · trivial
      · split
        · trivial
        · exact ⟨rfl, r, hpc⟩
    · cases h
      trivial
    · cases h
  | registryDelete k call =>
    have hcall : CallFor s repo (.deleteTag name) call := hpc
    cases call
    case answered status message =>
      cases h
      obtain ⟨result, hresult⟩ := @deleted_run repo name k status message
      rw [hresult]
      exact ⟨trivial, fun hdel => by cases hdel⟩
    all_goals
      obtain ⟨c', rfl, hnext⟩ := hcall.act (a := a) (w := TagAdminPc.registryDelete k) rfl h
      exact ⟨hnext, fun _ => rfl⟩

theorem ManifestRunOk.act {pc pc' : ManifestPc} (hv : s.Valid) (hpc : ManifestRunOk s repo d pc)
    (h : manifestAct localeCompare s repo d pc a = some (s', pc')) :
    ManifestRunOk s' repo d pc' ∧ (pc'.deleting = true → pc.deleting = true) := by
  cases pc with
  | done => cases h
  | repository | organization r =>
    refine ⟨?_, fun _ => rfl⟩
    simp only [manifestAct] at h
    split at h
    · cases h
      trivial
    · split at h <;> cases h
      · trivial
      · rename_i hfound
        first
          | exact find_some hfound
          | exact ⟨hv.getRepository hpc.1 hfound, hpc.2⟩
  | «exists» r orgSlug =>
    refine ⟨?_, fun _ => rfl⟩
    simp only [manifestAct] at h
    split at h
    · cases h
      trivial
    · split at h <;> cases h
      · exact hpc
      · trivial
  | blocker r orgSlug q =>
    refine ⟨?_, fun _ => rfl⟩
    simp only [manifestAct] at h
    split at h
    · cases h
      exact hpc
    · split at h
      · split at h <;> cases h
        · trivial
        · exact ⟨rfl, r, hpc⟩
      · cases h
    · cases h
      trivial
    · cases h
  | registryDelete tags call =>
    have hcall : CallFor s repo (.deleteManifest d) call := hpc
    cases call
    case answered status message =>
      cases h
      unfold manifestDeleted
      repeat' split
      all_goals exact ⟨trivial, fun hdel => by cases hdel⟩
    all_goals
      obtain ⟨c', rfl, hnext⟩ := hcall.act (a := a) (w := ManifestPc.registryDelete tags) rfl h
      exact ⟨hnext, fun _ => rfl⟩

theorem pending_of_deleting {p q : Prop} [Decidable p] [Decidable q] {step x : CleanupStep}
    (h : q → p) (hx : x ∈ if q then [step] else []) : x ∈ if p then [step] else [] := by
  split at hx
  · rename_i hdel
    rwa [if_pos (h hdel)]
  · cases hx

theorem DeletionOk.act {x x' : Deletion} (hv : s.Valid) (hx : DeletionOk s x)
    (h : deletionAct localeCompare s x a = some (s', x')) :
    DeletionOk s' x' ∧ ∀ step ∈ x'.pending, step ∈ x.pending := by
  cases x with
  | tag repo name pc =>
    obtain ⟨out, hact, hout⟩ := map_eq_some_iff.mp h
    cases hout
    obtain ⟨hok, hpending⟩ := TagRunOk.act hv hx hact
    exact ⟨hok, fun step hstep => pending_of_deleting hpending hstep⟩
  | manifest repo d pc =>
    obtain ⟨out, hact, hout⟩ := map_eq_some_iff.mp h
    cases hout
    obtain ⟨hok, hpending⟩ := ManifestRunOk.act hv hx hact
    exact ⟨hok, fun step hstep => pending_of_deleting hpending hstep⟩

/-! ## The plan under execution -/

/-- The deletion under way is in order, and what is still to be removed stands as it was
seen. -/
structure ExecutionOk (s : Tables) (e : Execution) : Prop where
  current : ∀ x, e.current = some x → DeletionOk s x
  seen : ∀ x ∈ s.tags, e.pending.any (·.removes x) = true → ∃ y ∈ e.seen, SamePush y x

def RunOk (s : Tables) (_ : Nat) (t : Task) : Prop :=
  ∀ e, t.execution = some e → ExecutionOk s e

variable {x y : TagRow}

theorem CleanupStep.removes_same {step : CleanupStep} (h : SamePush x y) :
    step.removes x = step.removes y := by
  cases step with
  | tag repositoryId name => simp only [CleanupStep.removes, h.key]
  | manifest repositoryId d =>
    have hrepo : x.repositoryId = y.repositoryId := congrArg Prod.fst h.key
    simp only [CleanupStep.removes, hrepo, h.digest]

theorem SamePush.trans {z : TagRow} (h : SamePush x y) (h' : SamePush y z) : SamePush x z :=
  ⟨h.key.trans h'.key, h.digest.trans h'.digest, h.pushed.trans h'.pushed⟩

theorem samePush_of_check (h : SamePush.check x y = true) : SamePush x y := by
  obtain ⟨hkey, hdigest, hpushed⟩ := of_decide_eq_true h
  exact ⟨hkey, hdigest, hpushed⟩

variable {e : Execution}

theorem ExecutionOk.evolves {w : Option TagRow} (h : ExecutionOk s e)
    (hs : Steady s s') (he : Evolves s s' w)
    (hw : ∀ x, w = some x → e.pending.any (·.removes x) = false) : ExecutionOk s' e where
  current := fun x hx => (h.current x hx).steady hs
  seen := by
    intro x' hx' hremoves
    rcases he.tags x' hx' with ⟨x, hx, hsame⟩ | hwritten
    · have hthis : e.pending.any (·.removes x) = true := by
        simpa only [CleanupStep.removes_same hsame] using hremoves
      obtain ⟨y, hy, hseen⟩ := h.seen x hx hthis
      exact ⟨y, hy, hseen.trans hsame⟩
    · rw [hw x' hwritten] at hremoves
      cases hremoves

theorem executionAct_ok {e' : Execution} (hv : s.Valid)
    (hok : ∀ x, e.current = some x → DeletionOk s x)
    (h : executionAct localeCompare s e a = some (s', e')) :
    (∀ x, e'.current = some x → DeletionOk s' x) ∧ e'.seen = e.seen ∧
      ∀ step ∈ e'.pending, step ∈ e.pending := by
  unfold executionAct at h
  split at h
  · rename_i hnone
    split at h <;> cases h
    rename_i step rest htodo
    refine ⟨fun x hx => ?_, rfl, fun x hx => ?_⟩
    · cases hx
      cases step <;> trivial
    · have hpending : e.pending = step :: rest := by simp [Execution.pending, hnone, htodo]
      rw [hpending]
      cases step <;> exact hx
  · rename_i x hx
    split at h
    · cases h
      refine ⟨fun y hy => (by cases hy), rfl, fun step hstep => ?_⟩
      exact mem_append_right _ hstep
    · obtain ⟨out, hact, hout⟩ := map_eq_some_iff.mp h
      cases hout
      obtain ⟨hnext, hpending⟩ := (hok x hx).act hv hact
      refine ⟨fun y hy => Option.some.inj hy ▸ hnext, rfl, fun step hstep => ?_⟩
      have hthis : e.pending = x.pending ++ e.todo := by simp [Execution.pending, hx]
      rw [hthis]
      rcases mem_append.mp hstep with hstep | hstep
      · exact mem_append_left _ (hpending step hstep)
      · exact mem_append_right _ hstep

theorem taskAct_plan (h : taskAct localeCompare s i t a = some (s', t')) :
    t'.execution = none ∨ PlanStep localeCompare s a t s' t' := by
  cases t with
  | retention o pc => exact .inr (retentionAct_plan (i := i) h)
  | quotaEnforcement dryRun pc => exact .inr (enforceAct_plan (i := i) h)
  | pruneUntagged olderThan pruned =>
    cases pruned with
    | some n => cases h
    | none =>
      simp only [taskAct] at h
      split at h <;> cases h <;> exact .inl rfl
  | _ =>
    obtain ⟨out, -, hout⟩ := map_eq_some_iff.mp h
    cases hout
    exact .inl rfl

end

end Chicoree.Images
