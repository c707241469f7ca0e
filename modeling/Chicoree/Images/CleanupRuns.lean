import Chicoree.Images.SparedPushes

/-! # Cleanup runs and pushes

Every order of pushes, cleanup runs and the other tasks in which no push writes a tag that a
run has still to remove. -/

namespace Chicoree.Images

open Transition List
open Registryd (TagRuleRow)

variable {localeCompare : String → String → Ordering} {rules : List TagRuleRow}
  {s s' : Tables} {a : Reply} {i : Nat} {t t' : Task}

/-! ## The assertions -/

variable {p : Pool Tables Task}

theorem Undisturbed.act (h : Undisturbed localeCompare p (.act i a)) (ht : p.tasks[i]? = some t) :
    (∀ x, t.writes p.shared a = some x → ∀ q ∈ p.tasks, q.willRemove x = false) ∧
    ∀ seen steps, t.plan localeCompare p.shared = some (seen, steps) → a = .ok →
      upToDate p.shared seen steps = true := by
  unfold Undisturbed undisturbed at h
  simp only [ht, Bool.and_eq_true, Bool.or_eq_true, Option.all_eq_true, all_eq_true,
    Bool.not_eq_true', decide_eq_true_eq] at h
  refine ⟨fun x hx q hq => h.1 x hx q hq, fun seen steps hplan hok => ?_⟩
  exact (h.2 (seen, steps) hplan).resolve_left fun hne => hne hok

variable {x : TagRow} {e : Execution}

theorem not_willRemove (he : t.execution = some e)
    (h : t.willRemove x = false) : e.pending.any (·.removes x) = false := by
  simpa [Task.willRemove, he] using h

variable {seen : List TagRow}

theorem seen_of_upToDate {steps : List CleanupStep}
    (h : upToDate s seen steps = true) (hx : x ∈ s.tags)
    (hremoves : steps.any (·.removes x) = true) : ∃ y ∈ seen, SamePush y x := by
  have hthis := all_eq_true.mp h x hx
  rw [hremoves, Bool.not_true, Bool.false_or] at hthis
  obtain ⟨y, hy, hsame⟩ := any_eq_true.mp hthis
  exact ⟨y, hy, samePush_of_check hsame⟩

theorem fresh_execution (h : t.fresh = true) : t.execution = none := by
  cases t with
  | retention o pc | quotaEnforcement dryRun pc => cases pc <;> first | rfl | cases h
  | _ => rfl

theorem taskAct_runOk (hv : p.shared.Valid)
    (hc : Undisturbed localeCompare p (.act i a)) (ht : p.tasks[i]? = some t)
    (hrun : RunOk p.shared i t) (h : taskAct localeCompare p.shared i t a = some (s', t')) :
    RunOk s' i t' := by
  have hs := taskAct_steady (i := i) h
  have he := taskAct_evolves (i := i) h
  have hidle (hnone : t'.execution = none) : RunOk s' i t' := by
    intro e hexec
    rw [hnone] at hexec
    cases hexec
  obtain hnone | hplan := taskAct_plan (i := i) h
  · exact hidle hnone
  cases hplan with
  | idle hnone => exact hidle hnone
  | made seen steps ok same plan after =>
    intro e hexec
    rw [after] at hexec
    cases hexec
    subst same
    refine ⟨fun x hx => (by cases hx), fun x hx hremoves => ?_⟩
    exact seen_of_upToDate ((hc.act ht).2 seen steps plan ok) hx hremoves
  | executes e e' before after act =>
    have hold := hrun e before
    obtain ⟨hcurrent, hseen, hpending⟩ := executionAct_ok hv hold.current act
    have hnow : ExecutionOk s' e := hold.evolves hs he fun x hx =>
      not_willRemove before ((hc.act ht).1 x hx t (mem_of_getElem? ht))
    intro e'' hexec
    rw [after] at hexec
    cases hexec
    refine ⟨hcurrent, fun x hx hremoves => ?_⟩
    obtain ⟨step, hstep, hthis⟩ := any_eq_true.mp hremoves
    rw [hseen]
    exact hnow.seen x hx (any_eq_true.mpr ⟨step, hpending step hstep, hthis⟩)

theorem cleanupEnv_some {e : Surroundings}
    (h : (cleanupProgram localeCompare rules).env s e = some s') :
    e.keepsRepositories = true ∧ surroundings s e = some s' := by
  change (if e.keepsRepositories then surroundings s e else none) = some s' at h
  split at h
  · rename_i hkeeps
    exact ⟨hkeeps, h⟩
  · cases h

theorem surroundings_steady {e : Surroundings} (hkeeps : e.keepsRepositories = true)
    (h : surroundings s e = some s') : Steady s s' := by
  cases e with
  | clock now | pulled repositoryId name =>
    cases h
    exact ⟨rfl, [], (append_nil _).symm⟩
  | _ => cases hkeeps

theorem cleanups_outline :
    (cleanupProgram localeCompare rules).Outline (Undisturbed localeCompare) Tables.Valid
      RunOk where
  init s h := h.1
  spawn _ t _ _ hfresh e he := by
    rw [fresh_execution hfresh] at he
    cases he
  act p i a t s' t' hp hc ht hact :=
    ⟨taskAct_valid (i := i) hp.shared hact, taskAct_runOk hp.shared hc ht (hp.tasks i t ht) hact⟩
  interfere p i a t s' t' hp hc ht hact j q _ hq e he := by
    refine (hp.tasks j q hq e he).evolves (taskAct_steady (i := i) hact)
      (taskAct_evolves (i := i) hact) fun x hx => ?_
    exact not_willRemove he ((hc.act ht).1 x hx q (mem_of_getElem? hq))
  env p e s' hp _ he := by
    obtain ⟨hkeeps, hstep⟩ := cleanupEnv_some he
    refine ⟨surroundings_valid hp.shared hstep, fun j q hq x hx => ?_⟩
    exact (hp.tasks j q hq x hx).evolves (surroundings_steady hkeeps hstep)
      (surroundings_evolves hstep) nofun

/-! ## What a run removes -/

variable {c : RegistryCall}

theorem ExecutionOk.deletes (h : ExecutionOk s e) (hc : e.call = some c) :
    (∀ r tag, c = .deleteTag r tag → .tag r.id tag ∈ e.pending) ∧
    (∀ r d, c = .deleteManifest r d → .manifest r.id d ∈ e.pending) ∧
    ∀ r tag m, c ≠ .upsertManifest r tag m := by
  obtain ⟨x, hx, hcall⟩ := Option.bind_eq_some_iff.mp hc
  have hok := h.current x hx
  have hpending : e.pending = x.pending ++ e.todo := by simp [Execution.pending, hx]
  rw [hpending]
  cases x with
  | tag repo name pc =>
    cases pc with
    | registryDelete k call =>
      cases hcall
      refine ⟨fun r tag hthis => ?_, fun r d hthis => ?_, fun r tag m hthis => ?_⟩
      · subst hthis
        obtain ⟨hid, hname⟩ : r.id = repo ∧ RegistryRequest.deleteTag name = .deleteTag tag := hok
        cases hname
        rw [hid]
        exact mem_append_left _ (mem_singleton_self _)
      · subst hthis
        cases hok.2
      · subst hthis
        exact hok
    | deleteLatest | putLatest => exact absurd hok id
    | _ => cases hcall
  | manifest repo d pc =>
    cases pc with
    | registryDelete tags call =>
      cases hcall
      refine ⟨fun r tag hthis => ?_, fun r d' hthis => ?_, fun r tag m hthis => ?_⟩
      · subst hthis
        cases hok.2
      · subst hthis
        obtain ⟨hid, hdigest⟩ :
          r.id = repo ∧ RegistryRequest.deleteManifest d = .deleteManifest d' := hok
        cases hdigest
        rw [hid]
        exact mem_append_left _ (mem_singleton_self _)
      · subst hthis
        exact hok
    | _ => cases hcall

theorem Tables.manifestExists_of_mem {m : ManifestRow} (h : m ∈ s.manifests) :
    s.manifestExists m.repositoryId m.digest = true :=
  any_eq_true.mpr ⟨m, h, decide_eq_true ⟨rfl, rfl⟩⟩

theorem Spares.of_same (htags : s'.tags = s.tags)
    (hmanifests : s'.manifests = s.manifests) : Spares e s s' where
  tags := fun x hx hgone => absurd rfl (hgone x (htags ▸ hx))
  manifests := by
    intro m hm hgone
    have hstays : s'.manifestExists m.repositoryId m.digest = true :=
      Tables.manifestExists_of_mem (hmanifests ▸ hm)
    rw [hstays] at hgone
    cases hgone

theorem ExecutionOk.spares (h : ExecutionOk s e)
    (hcall : e.call = some c) (hchange : RegistryChange s a c s') : Spares e s s' := by
  obtain ⟨htag, hmanifest, hpush⟩ := h.deletes hcall
  cases hchange with
  | same => exact .of_same rfl rfl
  | created row =>
    obtain ⟨-, -, rfl⟩ := createRepository_some row
    exact .of_same rfl rfl
  | manifest r tag m => exact absurd rfl (hpush r tag m)
  | tagged r tag d =>
    refine ⟨fun x hx hgone => ?_, fun m hm hgone => ?_⟩
    · rcases Tables.mem_tags_writeTag hx with hx | ⟨hkey, hrow⟩
      · exact absurd rfl (hgone x hx)
      · exact absurd (by rw [Tables.pushedTag_key, hkey]) (hgone _ hrow)
    · rw [show (s.writeTag r.id tag d).manifestExists m.repositoryId m.digest =
        s.manifestExists m.repositoryId m.digest from rfl,
        Tables.manifestExists_of_mem hm] at hgone
      cases hgone
  | tagDeleted r tag =>
    refine ⟨fun x hx hgone => ?_, fun m hm hgone => ?_⟩
    · have hkey : x.key = (r.id, tag) := by
        by_contra hne
        exact hgone x (Tables.mem_tags_deleteTag.mpr ⟨hx, hne⟩) rfl
      exact h.seen x hx (any_eq_true.mpr ⟨_, htag r tag rfl, decide_eq_true hkey⟩)
    · rw [show (s.deleteTag r.id tag).manifestExists m.repositoryId m.digest =
        s.manifestExists m.repositoryId m.digest from rfl,
        Tables.manifestExists_of_mem hm] at hgone
      cases hgone
  | manifestDeleted r d =>
    have hseen : ∀ x ∈ s.tags, x.repositoryId = r.id → x.manifestDigest = d →
        ∃ y ∈ e.seen, SamePush y x := fun x hx hrepo hd =>
      h.seen x hx (any_eq_true.mpr ⟨_, hmanifest r d rfl, decide_eq_true ⟨hrepo, hd⟩⟩)
    refine ⟨fun x hx hgone => ?_, fun m hm hgone x hx hrepo hd => ?_⟩
    · have hthis : x.repositoryId = r.id ∧ x.manifestDigest = d := by
        by_contra hne
        exact hgone x (Tables.mem_tags_deleteManifest.mpr ⟨hx, hne⟩) rfl
      exact hseen x hx hthis.1 hthis.2
    · have hthis : m.repositoryId = r.id ∧ m.digest = d := by
        by_contra hne
        have hstays : m ∈ (s.deleteManifest r.id d).manifests :=
          mem_filter.mpr ⟨hm, decide_eq_true hne⟩
        rw [Tables.manifestExists_of_mem hstays] at hgone
        cases hgone
      exact hseen x hx (hrepo.trans hthis.1) (hd.trans hthis.2)

/-- **Cleanup never removes a just-pushed image** in a run in which no push writes what a
cleanup has still to remove: the tags that a retention or enforcement run removes, by name or
with their manifest, are as its plan has seen them. -/
theorem cleanup_spares_pushes {p p' : Pool Tables Task} {e : Execution}
    (hp : (cleanups localeCompare rules).Run (Undisturbed localeCompare) p)
    (ht : p.tasks[i]? = some t) (hexec : t.execution = some e)
    (hstep : (cleanups localeCompare rules).step p (.act i a) = some p') :
    Spares e p.shared p'.shared := by
  have hok := (cleanups_outline.run hp).tasks i t ht e hexec
  have hact : (cleanupProgram localeCompare rules).step p (.act i a) = some p' := hstep
  rcases Program.step_cases hact with ⟨_, hm, -⟩ | ⟨j, b, q, s', q', hm, hq, hact, rfl⟩ |
      ⟨_, _, hm, -⟩
  · cases hm
  · cases hm
    cases ht.symm.trans hq
    have hcall : t.call = e.call := by
      cases t with
      | retention o pc | quotaEnforcement dryRun pc =>
        simp only [Task.call, hexec, Option.bind_some]
      | _ => cases hexec
    cases taskAct_step (i := i) hact with
    | call step =>
      rw [hcall] at step
      generalize hthis : e.call = c, q'.call = c' at step
      cases step with
      | reads => exact .of_same rfl rfl
      | registry act => exact hok.spares hthis (registryAct_change act)
    | created r row =>
      obtain ⟨-, -, rfl⟩ := createRepository_some row
      exact .of_same rfl rfl
    | form repositoryId tagName r task | evict unusedFor dryRun cutoff task
    | prune olderThan cutoff task =>
      subst task
      cases hexec
  · cases hm

/-! ## A retention run -/

def oldTag : TagRow := ⟨"r1", "v1", "sha256:aa", 0, 0, none⟩

/-- The same tag, pushed again at another image a month later. -/
def repushedTag : TagRow := { oldTag with manifestDigest := "sha256:bb", updatedAt := 2678400000 }

def oldImages : Tables where
  organizations := [⟨"o1", "acme"⟩]
  repositories := [⟨"r1", "o1", "app", .private⟩]
  issued := ["r1"]
  manifests := [⟨"r1", "sha256:aa", none, 0⟩]
  tags := [oldTag]
  retentionPolicies := [⟨"o1", none, { enabled := true, deleteOlderThanDays := some 30 }⟩]
  now := 2678400000

def planTag : List (Move Task Reply Surroundings) :=
  [.spawn (.retention { dryRun := false } .listRepositories), .act 0 .ok, .act 0 .ok,
    .act 0 (.query 0), .act 0 (.query 1), .act 0 (.query 2), .act 0 .ok]

def pushTag : List (Move Task Reply Surroundings) :=
  [.spawn (.client (.resolve "acme" "app" (.put (some "v1") { digest := "sha256:bb" }))),
    .act 1 .ok, .act 1 .ok, .act 1 .ok, .act 1 .ok]

def reachDelete : List (Move Task Reply Surroundings) :=
  [.act 0 .ok, .act 0 .ok, .act 0 .ok, .act 0 (.query 0), .act 0 (.query 1),
    .act 0 (.query 2), .act 0 .ok, .act 0 .ok, .act 0 .ok, .act 0 .ok]

/-- The tags before the next statement of the run, the tags its plan has seen, and the tags
after the statement. -/
def deleteView (p : Pool Tables Task) : List TagRow × Option (List TagRow) × Option (List TagRow) :=
  (p.shared.tags, (p.tasks[0]?.bind Task.execution).map (·.seen),
    ((cleanups (fun _ _ => .eq) []).step p (.act 0 .ok)).map (·.shared.tags))

theorem deleteView_some {before after : List TagRow}
    (h : deleteView p = (before, some seen, some after)) :
    p.shared.tags = before ∧ (∃ t e, p.tasks[0]? = some t ∧ t.execution = some e ∧
      e.seen = seen) ∧ ∃ p', (cleanups (fun _ _ => .eq) []).step p (.act 0 .ok) = some p' ∧
        p'.shared.tags = after := by
  simp only [deleteView, Prod.mk.injEq, Option.map_eq_some_iff, Option.bind_eq_some_iff] at h
  obtain ⟨hbefore, ⟨e, ⟨t, ht, hexec⟩, hseen⟩, p', hstep, hafter⟩ := h
  exact ⟨hbefore, ⟨t, e, ht, hexec, hseen⟩, p', hstep, hafter⟩

theorem oldImages_init : (cleanups (fun _ _ => .eq) []).init ⟨oldImages, []⟩ :=
  ⟨⟨⟨by decide, by decide, by decide, by decide, by decide, by decide⟩, rfl⟩, rfl⟩

theorem cleanup_spares_pushes_retention :
    ∃ p p' t e, (cleanups (fun _ _ => .eq) []).Run (Undisturbed fun _ _ => .eq) p ∧
      p.tasks[0]? = some t ∧ t.execution = some e ∧ p.shared.tags = [oldTag] ∧
      (cleanups (fun _ _ => .eq) []).step p (.act 0 .ok) = some p' ∧ p'.shared.tags = [] ∧
      Spares e p.shared p'.shared := by
  have hview : ((cleanups (fun _ _ => .eq) []).replay (Undisturbed fun _ _ => .eq)
      ⟨oldImages, []⟩ (planTag ++ reachDelete)).map deleteView =
        some ([oldTag], some [oldTag], some []) := by decide +kernel
  obtain ⟨p, hp, hview⟩ := Option.map_eq_some_iff.mp hview
  obtain ⟨hbefore, ⟨t, e, ht, hexec, -⟩, p', hstep, hafter⟩ := deleteView_some hview
  have hrun := Machine.run_of_replay oldImages_init hp
  exact ⟨p, p', t, e, hrun, ht, hexec, hbefore, hstep, hafter,
    cleanup_spares_pushes hrun ht hexec hstep⟩

theorem repushed_tag_removed : ∃ p p' t e, (cleanups (fun _ _ => .eq) []).Reachable p ∧
      p.tasks[0]? = some t ∧ t.execution = some e ∧ p.shared.tags = [repushedTag] ∧
      (cleanups (fun _ _ => .eq) []).step p (.act 0 .ok) = some p' ∧ p'.shared.tags = [] ∧
      ¬ Spares e p.shared p'.shared := by
  have hview : ((cleanups (fun _ _ => .eq) []).replay (fun _ _ => True)
      ⟨oldImages, []⟩ (planTag ++ pushTag ++ reachDelete)).map deleteView =
        some ([repushedTag], some [oldTag], some []) := by decide +kernel
  obtain ⟨p, hp, hview⟩ := Option.map_eq_some_iff.mp hview
  obtain ⟨hbefore, ⟨t, e, ht, hexec, hseen⟩, p', hstep, hafter⟩ := deleteView_some hview
  refine ⟨p, p', t, e, Machine.run_of_replay oldImages_init hp, ht, hexec, hbefore, hstep,
    hafter, fun hspares => ?_⟩
  obtain ⟨y, hy, hsame⟩ := hspares.tags repushedTag
    (by rw [hbefore]; exact mem_singleton_self _) (by simp [hafter])
  rw [hseen] at hy
  rw [mem_singleton.mp hy] at hsame
  exact absurd hsame.digest (by decide)

end Chicoree.Images
