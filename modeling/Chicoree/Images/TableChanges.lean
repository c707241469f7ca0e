import Chicoree.Images.Cleanup

/-! # What one statement does

A statement of the web app reads, or is a statement of the request that it has under way at
registryd; four write by themselves. What follows for the rows of repositories and tags is
said once for all of them. -/

namespace Chicoree.Images

open Transition Option
open Registryd (Digest RepoId OrgId Time Repository Organization TagRule TagRuleRow)

variable {localeCompare : String → String → Ordering}

/-! ## The request under way -/

def TagAdminPc.call : TagAdminPc → Option RegistryCall
  | .registryDelete _ c | .deleteLatest _ c | .putLatest _ _ c => some c
  | _ => none

def ManifestPc.call : ManifestPc → Option RegistryCall
  | .registryDelete _ c => some c
  | _ => none

def Deletion.call : Deletion → Option RegistryCall
  | .tag _ _ pc => pc.call
  | .manifest _ _ pc => pc.call

def Execution.call (e : Execution) : Option RegistryCall := e.current.bind Deletion.call

def Guarded.call {π : Type} (f : π → Option RegistryCall) : Guarded π → Option RegistryCall
  | .body pc => f pc
  | _ => none

def MovePc.call : MovePc → Option RegistryCall
  | .push _ _ _ c _ => some c
  | .deleteTag pc => pc.call
  | _ => none

def RetentionPc.execution : RetentionPc → Option Execution
  | .apply _ e _ => some e
  | _ => none

def EnforcePc.execution : EnforcePc → Option Execution
  | .apply e _ => some e
  | _ => none

def Task.execution : Task → Option Execution
  | .retention _ pc => pc.execution
  | .quotaEnforcement _ pc => pc.execution
  | _ => none

def Task.call : Task → Option RegistryCall
  | .client c => some c
  | .deleteTagAction _ pc => pc.call TagAdminPc.call
  | .deleteManifestAction _ _ pc => pc.call ManifestPc.call
  | .moveImage _ pc => pc.call
  | .retention o pc => (Task.retention o pc).execution.bind Execution.call
  | .quotaEnforcement dryRun pc => (Task.quotaEnforcement dryRun pc).execution.bind Execution.call
  | _ => none

def RegistryCall.isSent : RegistryCall → Bool
  | .resolve _ _ _ => true
  | _ => false

/-- One statement of a function of the web app, by the requests it has under way before and
after: it reads, or the statement is registryd's. -/
inductive CallStep (s : Tables) (a : Reply) :
    Option RegistryCall → Tables → Option RegistryCall → Prop where
  | reads {c c' : Option RegistryCall} (sent : ∀ x, c' = some x → x.isSent = true) :
      CallStep s a c s c'
  | registry {c c' : RegistryCall} {s' : Tables} (act : registryAct s c a = some (s', c')) :
      CallStep s a (some c) s' (some c')

theorem CallStep.silent {s : Tables} {a : Reply} {c : Option RegistryCall} :
    CallStep s a c s none :=
  .reads nofun

variable {x : RegistryCall}

theorem CallStep.sends {s : Tables} {a : Reply} {c : Option RegistryCall}
    (h : x.isSent = true) : CallStep s a c s (some x) :=
  .reads fun y hy => by cases hy; exact h

variable {s s' : Tables} {a : Reply}

theorem CallStep.sent {c : RegistryCall} {π : Type} {w : RegistryCall → π} {pc' : π}
    {f : π → Option RegistryCall} (hcall : ∀ c, f (w c) = some c)
    (h : (registryAct s c a).map (fun out => (out.1, w out.2)) = some (s', pc')) :
    CallStep s a (some c) s' (f pc') := by
  obtain ⟨⟨s₁, c'⟩, hact, hout⟩ := map_eq_some_iff.mp h
  cases hout
  rw [hcall]
  exact .registry hact

theorem tagAdminAct_step {r : TagRemoval} {pc pc' : TagAdminPc}
    (h : tagAdminAct localeCompare s r pc a = some (s', pc')) :
    CallStep s a pc.call s' pc'.call := by
  cases pc with
  | done result => cases h
  | repository | organization repo =>
    simp only [tagAdminAct] at h
    split at h
    · cases h
      exact .silent
    · split at h <;> cases h <;> exact .silent
  | load repo orgSlug q =>
    simp only [tagAdminAct] at h
    split at h
    · cases h
      exact .silent
    · split at h
      · cases h
        unfold TagRemoval.check
        split
        · exact .silent
        · split
          · exact .silent
          · exact .sends rfl
      · cases h
    · cases h
      exact .silent
    · cases h
  | registryDelete k call =>
    cases call
    case answered status message =>
      cases h
      unfold TagRemoval.deleted
      repeat' split
      all_goals exact .silent
    all_goals exact CallStep.sent (w := TagAdminPc.registryDelete k) (fun _ => rfl) h
  | remaining k =>
    simp only [tagAdminAct] at h
    split at h
    · cases h
      exact .silent
    · split at h <;> cases h
      · exact .sends rfl
      · exact .silent
  | deleteLatest k call =>
    cases call
    case answered status message =>
      cases h
      unfold TagRemoval.latestDeleted
      repeat' split
      all_goals exact .silent
    all_goals exact CallStep.sent (w := TagAdminPc.deleteLatest k) (fun _ => rfl) h
  | pickNewest k remaining =>
    simp only [tagAdminAct] at h
    split at h
    · cases h
      unfold TagRemoval.follow
      repeat' split
      all_goals exact .silent
    · cases h
      exact .silent
    · cases h
  | fetchManifest k pick =>
    simp only [tagAdminAct] at h
    split at h <;> cases h
    · exact .sends rfl
    · exact .silent
  | putLatest k pick call =>
    cases call
    case answered status message =>
      simp only [tagAdminAct] at h
      split at h <;> cases h <;> exact .silent
    all_goals exact CallStep.sent (w := TagAdminPc.putLatest k pick) (fun _ => rfl) h

theorem manifestAct_step {repo : RepoId} {d : Digest} {pc pc' : ManifestPc}
    (h : manifestAct localeCompare s repo d pc a = some (s', pc')) :
    CallStep s a pc.call s' pc'.call := by
  cases pc with
  | done result => cases h
  | repository | organization r | «exists» r orgSlug =>
    simp only [manifestAct] at h
    split at h
    · cases h
      exact .silent
    · split at h <;> cases h <;> exact .silent
  | blocker r orgSlug q =>
    simp only [manifestAct] at h
    split at h
    · cases h
      exact .silent
    · split at h
      · split at h <;> cases h
        · exact .silent
        · exact .sends rfl
      · cases h
    · cases h
      exact .silent
    · cases h
  | registryDelete tags call =>
    cases call
    case answered status message =>
      cases h
      unfold manifestDeleted
      repeat' split
      all_goals exact .silent
    all_goals exact CallStep.sent (w := ManifestPc.registryDelete tags) (fun _ => rfl) h

theorem deletionAct_step {x x' : Deletion}
    (h : deletionAct localeCompare s x a = some (s', x')) : CallStep s a x.call s' x'.call := by
  cases x with
  | tag repositoryId name pc =>
    obtain ⟨out, hact, hout⟩ := map_eq_some_iff.mp h
    cases hout
    exact tagAdminAct_step hact
  | manifest repositoryId d pc =>
    obtain ⟨out, hact, hout⟩ := map_eq_some_iff.mp h
    cases hout
    exact manifestAct_step hact

theorem executionAct_step {e e' : Execution}
    (h : executionAct localeCompare s e a = some (s', e')) : CallStep s a e.call s' e'.call := by
  unfold executionAct at h
  split at h
  · split at h
    · cases h
    · cases h
      rename_i step rest _
      cases step <;> exact .silent
  · rename_i x hx
    split at h
    · cases h
      exact .silent
    · obtain ⟨out, hact, hout⟩ := map_eq_some_iff.mp h
      cases hout
      have hcall : e.call = x.call := by simp [Execution.call, hx]
      rw [hcall]
      exact deletionAct_step hact

theorem guardAct_step {π : Type} {repo : RepoId} {start : π} {body : π → Option (Tables × π)}
    {call : π → Option RegistryCall} (hstart : call start = none)
    (hbody : ∀ pc s' pc', body pc = some (s', pc') → CallStep s a (call pc) s' (call pc'))
    {pc pc' : Guarded π} (h : guardAct s repo start body pc a = some (s', pc')) :
    CallStep s a (pc.call call) s' (pc'.call call) := by
  cases pc with
  | refused error => cases h
  | repository =>
    simp only [guardAct] at h
    split at h
    · cases h
      exact .silent
    · split at h <;> cases h <;> exact .silent
  | role r =>
    simp only [guardAct] at h
    split at h <;> cases h
    · refine .reads fun x hx => ?_
      rw [show (Guarded.body start).call call = call start from rfl, hstart] at hx
      cases hx
    · exact .silent
  | body pc =>
    obtain ⟨out, hact, hout⟩ := map_eq_some_iff.mp h
    cases hout
    exact hbody pc out.1 out.2 hact

/-- The plan that the next statement of a run makes, with what it has seen. -/
def Task.plan (localeCompare : String → String → Ordering) (s : Tables) :
    Task → Option (List TagRow × List CleanupStep)
  | .retention o (.load now r policy q _) =>
    if o.dryRun then none else q.plan localeCompare r policy now
  | .quotaEnforcement dryRun (.load b q _) =>
    if dryRun then none else (q.plan localeCompare s b.limitBytes).bind id
  | _ => none

variable {i : Nat} {t t' : Task}

/-- One statement of a run, by the plan it executes. -/
inductive PlanStep (localeCompare : String → String → Ordering) (s : Tables) (a : Reply)
    (t : Task) (s' : Tables) (t' : Task) : Prop where
  | idle (none : t'.execution = none) (same : s' = s)
  | executes (e e' : Execution) (before : t.execution = some e) (after : t'.execution = some e')
      (act : executionAct localeCompare s e a = some (s', e'))
  | made (seen : List TagRow) (steps : List CleanupStep) (ok : a = .ok) (same : s' = s)
      (plan : t.plan localeCompare s = some (seen, steps))
      (after : t'.execution = some { seen := seen, todo := steps })

theorem retentionAct_plan {o : RetentionOptions} {pc : RetentionPc}
    (h : taskAct localeCompare s i (.retention o pc) a = some (s', t')) :
    PlanStep localeCompare s a (.retention o pc) s' t' := by
  obtain ⟨⟨s₁, pc'⟩, hact, hout⟩ := map_eq_some_iff.mp h
  cases hout
  cases pc with
  | done => cases hact
  | listRepositories =>
    simp only [retentionAct] at hact
    split at hact <;> cases hact <;> exact .idle rfl rfl
  | policies now todo =>
    cases todo with
    | nil =>
      cases hact
      exact .idle rfl rfl
    | cons r todo =>
      simp only [retentionAct] at hact
      repeat' split at hact
      all_goals
        cases hact
        exact .idle rfl rfl
  | load now r policy q todo =>
    simp only [retentionAct] at hact
    split at hact
    · cases hact
      exact .idle rfl rfl
    · split at hact
      · rename_i seen steps hplan
        split at hact <;> cases hact
        · exact .idle rfl rfl
        · rename_i hdry
          exact .made seen steps rfl rfl (by simp only [Task.plan, if_neg hdry, hplan]) rfl
      · cases hact
    · cases hact
      exact .idle rfl rfl
    · cases hact
  | apply now e todo =>
    simp only [retentionAct] at hact
    split at hact
    · cases hact
      exact .idle rfl rfl
    · obtain ⟨⟨s₂, e'⟩, hrun, hout⟩ := map_eq_some_iff.mp hact
      cases hout
      exact .executes e e' rfl rfl hrun

theorem enforceAct_plan {dryRun : Bool} {pc : EnforcePc}
    (h : taskAct localeCompare s i (.quotaEnforcement dryRun pc) a = some (s', t')) :
    PlanStep localeCompare s a (.quotaEnforcement dryRun pc) s' t' := by
  obtain ⟨⟨s₁, pc'⟩, hact, hout⟩ := map_eq_some_iff.mp h
  cases hout
  cases pc with
  | done => cases hact
  | findBreaches =>
    simp only [enforceAct] at hact
    split at hact <;> cases hact <;> exact .idle rfl rfl
  | scopes due =>
    cases due with
    | nil =>
      cases hact
      exact .idle rfl rfl
    | cons b due =>
      simp only [enforceAct] at hact
      split at hact <;> cases hact <;> exact .idle rfl rfl
  | load b q due =>
    simp only [enforceAct] at hact
    split at hact
    · cases hact
      exact .idle rfl rfl
    · split at hact
      · rename_i seen steps hplan
        split at hact <;> cases hact
        · exact .idle rfl rfl
        · rename_i hdry
          refine .made seen steps rfl rfl ?_ rfl
          simp only [Task.plan, if_neg hdry, hplan, bind_some, id_eq]
      · cases hact
        exact .idle rfl rfl
      · cases hact
    · cases hact
      exact .idle rfl rfl
    · cases hact
  | apply e due =>
    simp only [enforceAct] at hact
    split at hact
    · cases hact
      exact .idle rfl rfl
    · obtain ⟨⟨s₂, e'⟩, hrun, hout⟩ := map_eq_some_iff.mp hact
      cases hout
      exact .executes e e' rfl rfl hrun

theorem PlanStep.call (h : PlanStep localeCompare s a t s' t') :
    CallStep s a (t.execution.bind Execution.call) s' (t'.execution.bind Execution.call) := by
  cases h with
  | idle none same =>
    rw [none, same]
    exact .silent
  | executes e e' before after act =>
    rw [before, after]
    exact executionAct_step act
  | made seen steps ok same plan after =>
    rw [after, same]
    exact .silent

variable {f : MoveForm}

theorem nextPush_sent {src : MoveSource} {orgSlug name : String} {todo : List PlannedManifest}
    (h : (f.nextPush src orgSlug name todo).call = some x) : x.isSent = true := by
  cases todo with
  | nil =>
    simp only [MoveForm.nextPush] at h
    split at h <;> cases h
  | cons m todo =>
    cases h
    rfl

theorem moveAct_step {pc pc' : MovePc} (h : moveAct localeCompare s f pc a = some (s', pc')) :
    CallStep s a pc.call s' pc'.call ∨
      (∃ r, s.createRepository r = some s') ∧ ∀ x, pc'.call = some x → x.isSent = true := by
  cases pc with
  | done refusal => cases h
  | sourceRepository | sourceOrganization | sourceRole | sourceProxy | tagDigest r orgSlug
  | sourceRules src | destination | destinationChecks | destinationRepository src dst
  | destinationRules src dst r =>
    simp only [moveAct] at h
    repeat' split at h
    all_goals
      cases h
      exact .inl .silent
  | planCopy src dst r =>
    simp only [moveAct] at h
    split at h <;> cases h
    · exact .inl (.reads fun x hx => nextPush_sent hx)
    · exact .inl .silent
    · exact .inl .silent
  | createRepository src dst plan =>
    simp only [moveAct] at h
    split at h
    · obtain ⟨s₁, hcreate, hout⟩ := map_eq_some_iff.mp h
      cases hout
      exact .inr ⟨⟨_, hcreate⟩, fun x hx => nextPush_sent hx⟩
    · cases h
      exact .inl .silent
  | push src orgSlug name call todo =>
    cases call
    case answered status message =>
      simp only [moveAct] at h
      split at h <;> cases h
      · exact .inl .silent
      · exact .inl (.reads fun x hx => nextPush_sent hx)
    all_goals exact .inl (CallStep.sent
      (w := fun c => MovePc.push src orgSlug name c todo) (fun _ => rfl) h)
  | deleteTag pc =>
    cases pc
    case done result =>
      cases result <;> cases h <;> exact .inl .silent
    all_goals
      obtain ⟨out, hact, hout⟩ := map_eq_some_iff.mp h
      cases hout
      exact .inl (tagAdminAct_step hact)

inductive TaskStep (s : Tables) (a : Reply) (t : Task) (s' : Tables) (t' : Task) : Prop where
  | call (step : CallStep s a t.call s' t'.call)
  | created (r : Repository) (row : s.createRepository r = some s')
      (sent : ∀ x, t'.call = some x → x.isSent = true)
  | form (repositoryId : RepoId) (tagName : String) (r : Repository)
      (task : t = .deleteTag repositoryId tagName (.delete r)) (ran : a ≠ .failed)
      (tables : s' = s.deleteTag repositoryId tagName) (silent : t'.call = none)
  | evict (unusedFor : Time) (dryRun : Bool) (cutoff : Time)
      (task : t = .proxyEvict unusedFor dryRun (.delete cutoff)) (ran : a ≠ .failed)
      (tables : s' = s.evictTags cutoff) (silent : t'.call = none)
  | prune (olderThan cutoff : Time) (task : t = .pruneUntagged olderThan none)
      (tables : s' = s.pruneUntagged cutoff) (silent : t'.call = none)

theorem taskAct_step {i : Nat} {t t' : Task}
    (h : taskAct localeCompare s i t a = some (s', t')) : TaskStep s a t s' t' := by
  cases t with
  | client call =>
    exact .call (CallStep.sent (w := Task.client) (f := Task.call) (fun _ => rfl) h)
  | deleteTag repositoryId tagName pc =>
    obtain ⟨out, hact, hout⟩ := map_eq_some_iff.mp h
    cases hout
    cases pc with
    | done => cases hact
    | repository | role r =>
      simp only [formAct] at hact
      repeat' split at hact
      all_goals
        cases hact
        exact .call .silent
    | delete r =>
      simp only [formAct] at hact
      split at hact
      · cases hact
        exact .call .silent
      · rename_i hran
        cases hact
        exact .form repositoryId tagName r rfl hran rfl rfl
  | deleteTagAction r pc =>
    obtain ⟨out, hact, hout⟩ := map_eq_some_iff.mp h
    cases hout
    exact .call (guardAct_step rfl (fun _ _ _ hbody => tagAdminAct_step hbody) hact)
  | deleteManifestAction repositoryId d pc =>
    obtain ⟨out, hact, hout⟩ := map_eq_some_iff.mp h
    cases hout
    exact .call (guardAct_step rfl (fun _ _ _ hbody => manifestAct_step hbody) hact)
  | moveImage f pc =>
    obtain ⟨out, hact, hout⟩ := map_eq_some_iff.mp h
    cases hout
    rcases moveAct_step hact with hstep | ⟨⟨r, hrow⟩, hsent⟩
    · exact .call hstep
    · exact .created r hrow hsent
  | retention o pc =>
    have hplan := retentionAct_plan (i := i) h
    obtain ⟨out, -, hout⟩ := map_eq_some_iff.mp h
    cases hout
    exact .call hplan.call
  | quotaEnforcement dryRun pc =>
    have hplan := enforceAct_plan (i := i) h
    obtain ⟨out, -, hout⟩ := map_eq_some_iff.mp h
    cases hout
    exact .call hplan.call
  | proxyEvict unusedFor dryRun pc =>
    obtain ⟨out, hact, hout⟩ := map_eq_some_iff.mp h
    cases hout
    cases pc with
    | done candidates deleted => cases hact
    | select =>
      simp only [evictAct] at hact
      split at hact <;> cases hact <;> exact .call .silent
    | delete cutoff =>
      simp only [evictAct] at hact
      split at hact
      · cases hact
        exact .call .silent
      · rename_i hran
        cases hact
        exact .evict unusedFor dryRun cutoff rfl hran rfl rfl
  | pruneUntagged olderThan pruned =>
    cases pruned with
    | some n => cases h
    | none =>
      simp only [taskAct] at h
      split at h <;> cases h
      · exact .call .silent
      · exact .prune olderThan (s.now - olderThan) rfl rfl rfl

theorem fresh_call {t : Task} (h : t.fresh = true) : ∀ x, t.call = some x → x.isSent = true := by
  intro x hx
  cases t with
  | client call =>
    cases hx
    cases x with
    | resolve => rfl
    | _ => cases h
  | deleteTag | proxyEvict | pruneUntagged => cases hx
  | deleteTagAction _ pc | deleteManifestAction _ _ pc | moveImage _ pc | retention _ pc
    | quotaEnforcement _ pc =>
    cases pc <;> first | (cases hx; done) | cases h

/-! ## What a statement of registryd changes -/

/-- The row that the next statement of the request leaves in `tags`. -/
def RegistryCall.writes (s : Tables) : RegistryCall → Option TagRow
  | .upsertTagGuarded r tag d =>
    match Registryd.checkImmutable (s.rulesOf r) tag (s.resolveTag r.id tag) d with
    | .error _ => none
    | .ok () => if s.manifestExists r.id d then some (s.pushedTag r.id tag d) else none
  | _ => none

inductive RegistryChange (s : Tables) (a : Reply) : RegistryCall → Tables → Prop where
  | same {c : RegistryCall} : RegistryChange s a c s
  | created {c : RegistryCall} {r : Repository} {s' : Tables}
      (row : s.createRepository r = some s') : RegistryChange s a c s'
  | manifest (r : Repository) (tag : Option String) (m : PushedManifest) :
      RegistryChange s a (.upsertManifest r tag m) (s.upsertManifest r.id m.digest m.subject m.refs)
  | tagged (r : Repository) (tag : String) (d : Digest) (ran : a ≠ .failed)
      (row : (RegistryCall.upsertTagGuarded r tag d).writes s = some (s.pushedTag r.id tag d)) :
      RegistryChange s a (.upsertTagGuarded r tag d) (s.writeTag r.id tag d)
  | tagDeleted (r : Repository) (tag : String) :
      RegistryChange s a (.deleteTag r tag) (s.deleteTag r.id tag)
  | manifestDeleted (r : Repository) (d : Digest) :
      RegistryChange s a (.deleteManifest r d) (s.deleteManifest r.id d)

theorem registryAct_change {c c' : RegistryCall} (h : registryAct s c a = some (s', c')) :
    RegistryChange s a c s' := by
  cases registryAct_step h with
  | created row create => exact .created create
  | @manifest r tag m | @untagged r m => exact .manifest r _ m
  | @tagged r tag d ran ok row => exact .tagged r tag d ran (by simp [RegistryCall.writes, ok, row])
  | @tagDeleted r tag => exact .tagDeleted r tag
  | @manifestDeleted r d => exact .manifestDeleted r d
  | _ => exact .same

end Chicoree.Images

/-! ## What the tables go through

From one statement to the next: rules stay, identifiers of repositories are not given out
again, and a tag that is there afterwards was there before at the same image, or has just been
pushed. -/

namespace Chicoree.Images

open List
open Transition
open Registryd (Digest RepoId OrgId Time Repository Organization TagRule TagRuleRow)

variable {localeCompare : String → String → Ordering} {s s' : Tables} {a : Reply}

structure SamePush (t t' : TagRow) : Prop where
  key : t.key = t'.key
  digest : t.manifestDigest = t'.manifestDigest
  pushed : t.updatedAt = t'.updatedAt

theorem SamePush.refl (t : TagRow) : SamePush t t := ⟨rfl, rfl, rfl⟩

/-- From one state of the tables to the next, with the row of a push. -/
structure Evolves (s s' : Tables) (written : Option TagRow) : Prop where
  rules : s'.tagRules = s.tagRules
  issued : ∀ id ∈ s.issued, id ∈ s'.issued
  rows : ∀ r ∈ s'.repositories, r ∈ s.repositories ∨ r.id ∉ s.issued
  tags : ∀ t' ∈ s'.tags, (∃ t ∈ s.tags, SamePush t t') ∨ written = some t'

variable {written : Option TagRow}

theorem Evolves.ofTags (hrules : s'.tagRules = s.tagRules)
    (hissued : s'.issued = s.issued) (hrows : ∀ r ∈ s'.repositories, r ∈ s.repositories)
    (htags : ∀ t ∈ s'.tags, t ∈ s.tags ∨ written = some t) : Evolves s s' written where
  rules := hrules
  issued := fun _ hid => hissued ▸ hid
  rows := fun r hr => .inl (hrows r hr)
  tags := fun t ht => (htags t ht).imp_left fun h => ⟨t, h, SamePush.refl t⟩

theorem Evolves.refl : Evolves s s written :=
  .ofTags rfl rfl (fun _ h => h) fun _ h => .inl h

variable {r : Repository}

theorem createRepository_some (h : s.createRepository r = some s') :
    r.id ∉ s.issued ∧ (∀ x ∈ s.repositories, (x.orgId, x.name) ≠ (r.orgId, r.name)) ∧
      s' = { s with repositories := s.repositories ++ [r], issued := s.issued ++ [r.id] } := by
  unfold Tables.createRepository at h
  split at h
  · cases h
  · rename_i hnew
    obtain ⟨hid, hname⟩ := not_or.mp hnew
    refine ⟨by simpa using hid, fun x hx hsame => hname ?_, (Option.some.inj h).symm⟩
    obtain ⟨horg, hthis⟩ := Prod.mk.inj hsame
    exact any_eq_true.mpr ⟨x, hx, decide_eq_true ⟨horg, hthis⟩⟩

theorem createRepository_evolves (h : s.createRepository r = some s') : Evolves s s' written := by
  obtain ⟨hnew, -, rfl⟩ := createRepository_some h
  refine ⟨rfl, fun id hid => mem_append_left _ hid, fun x hx => ?_,
    fun t ht => .inl ⟨t, ht, SamePush.refl t⟩⟩
  rcases mem_append.mp hx with hx | hx
  · exact .inl hx
  · rw [mem_singleton.mp hx]
    exact .inr hnew

def Task.writes (s : Tables) (t : Task) (a : Reply) : Option TagRow :=
  if a = .failed then none else t.call.bind (RegistryCall.writes s)

theorem registryChange_evolves {c : RegistryCall}
    (h : RegistryChange s a c s') (hwritten : a ≠ .failed → written = c.writes s) :
    Evolves s s' written := by
  cases h with
  | same => exact .refl
  | created row => exact createRepository_evolves row
  | manifest => exact .ofTags rfl rfl (fun _ h => h) fun _ h => .inl h
  | tagged r tag d ran row =>
    refine .ofTags rfl rfl (fun _ h => h) fun t ht => ?_
    rcases Tables.mem_tags_of_writeTag ht with ht | rfl
    · exact .inl ht
    · exact .inr ((hwritten ran).trans row)
  | tagDeleted =>
    exact .ofTags rfl rfl (fun _ h => h) fun t ht => .inl (Tables.mem_tags_deleteTag.mp ht).1
  | manifestDeleted =>
    exact .ofTags rfl rfl (fun _ h => h)
      fun t ht => .inl (Tables.mem_tags_deleteManifest.mp ht).1

theorem callStep_evolves {c c' : Option RegistryCall} (h : CallStep s a c s' c')
    (hwritten : a ≠ .failed → written = c.bind (RegistryCall.writes s)) :
    Evolves s s' written := by
  cases h with
  | reads => exact .refl
  | registry act => exact registryChange_evolves (registryAct_change act) hwritten

theorem taskAct_evolves {i : Nat} {t t' : Task}
    (h : taskAct localeCompare s i t a = some (s', t')) : Evolves s s' (t.writes s a) := by
  cases taskAct_step h with
  | call step => exact callStep_evolves step fun hran => by simp [Task.writes, hran]
  | created r row => exact createRepository_evolves row
  | form repositoryId tagName r task ran tables =>
    rw [tables]
    exact .ofTags rfl rfl (fun _ h => h) fun t ht => .inl (Tables.mem_tags_deleteTag.mp ht).1
  | evict unusedFor dryRun cutoff task ran tables =>
    rw [tables]
    exact .ofTags rfl rfl (fun _ h => h) fun t ht => .inl (mem_filter.mp ht).1
  | prune olderThan cutoff task tables =>
    rw [tables]
    exact .ofTags rfl rfl (fun _ h => h) fun t ht => .inl (Tables.mem_tags_pruneUntagged.mp ht)

theorem mem_tags_notePull {repo : RepoId} {name : String} {t' : TagRow}
    (h : t' ∈ (s.notePull repo name).tags) : ∃ t ∈ s.tags, SamePush t t' := by
  obtain ⟨t, ht, rfl⟩ := mem_map.mp h
  refine ⟨t, ht, ?_⟩
  split
  · exact ⟨rfl, rfl, rfl⟩
  · exact SamePush.refl t

variable {e : Surroundings}

theorem surroundings_evolves (h : surroundings s e = some s') : Evolves s s' none := by
  cases e with
  | clock now =>
    cases h
    exact .ofTags rfl rfl (fun _ h => h) fun _ h => .inl h
  | pulled repositoryId name =>
    cases h
    exact ⟨rfl, fun _ h => h, fun _ h => .inl h, fun _ h => .inl (mem_tags_notePull h)⟩
  | createRepository r => exact createRepository_evolves h
  | deleteRepository id =>
    cases h
    exact .ofTags rfl rfl (fun _ h => (mem_filter.mp h).1)
      fun _ h => .inl (mem_filter.mp h).1

/-! ## The constraints of the schema -/

theorem Tables.Valid.ofTags (h : s.Valid) (horgs : s'.organizations = s.organizations)
    (hrepos : s'.repositories = s.repositories) (hissued : s'.issued = s.issued)
    (htags : Table.Keyed TagRow.key s'.tags) : s'.Valid where
  repositoryIds := hrepos ▸ h.repositoryIds
  repositoryNames := hrepos ▸ h.repositoryNames
  organizationIds := horgs ▸ h.organizationIds
  organizationSlugs := horgs ▸ h.organizationSlugs
  tagNames := htags
  issued := by
    rw [hrepos, hissued]
    exact h.issued

theorem Tables.Valid.createRepository (h : s.Valid)
    (hrow : s.createRepository r = some s') : s'.Valid := by
  obtain ⟨hnew, hname, rfl⟩ := createRepository_some hrow
  refine ⟨h.repositoryIds.append fun x hx he => hnew (he ▸ h.issued x hx),
    h.repositoryNames.append hname, h.organizationIds, h.organizationSlugs, h.tagNames, ?_⟩
  intro x hx
  rcases mem_append.mp hx with hx | hx
  · exact mem_append_left _ (h.issued x hx)
  · rw [mem_singleton.mp hx]
    exact mem_append_right _ (mem_singleton_self r.id)

theorem registryChange_valid {c : RegistryCall} (hv : s.Valid) (h : RegistryChange s a c s') :
    s'.Valid := by
  cases h with
  | same => exact hv
  | created row => exact hv.createRepository row
  | manifest => exact hv.ofTags rfl rfl rfl hv.tagNames
  | tagged => exact hv.ofTags rfl rfl rfl (hv.tagNames.upsert _)
  | tagDeleted | manifestDeleted => exact hv.ofTags rfl rfl rfl (hv.tagNames.filter _)

theorem taskAct_valid {i : Nat} {t t' : Task} (hv : s.Valid)
    (h : taskAct localeCompare s i t a = some (s', t')) : s'.Valid := by
  cases taskAct_step h with
  | call step =>
    generalize t.call = c, t'.call = c' at step
    cases step with
    | reads => exact hv
    | registry act => exact registryChange_valid hv (registryAct_change act)
  | created r row => exact hv.createRepository row
  | form repositoryId tagName r task ran tables | evict unusedFor dryRun cutoff task ran tables
  | prune olderThan cutoff task tables =>
    rw [tables]
    exact hv.ofTags rfl rfl rfl (hv.tagNames.filter _)

theorem notePull_keys (repo : RepoId) (name : String) :
    (s.notePull repo name).tags.map TagRow.key = s.tags.map TagRow.key := by
  unfold Tables.notePull
  rw [map_map]
  refine map_congr_left fun t _ => ?_
  rw [Function.comp_apply]
  split <;> rfl

theorem surroundings_valid (hv : s.Valid) (h : surroundings s e = some s') : s'.Valid := by
  cases e with
  | clock now =>
    cases h
    exact hv.ofTags rfl rfl rfl hv.tagNames
  | pulled repositoryId name =>
    cases h
    refine hv.ofTags rfl rfl rfl ?_
    unfold Table.Keyed
    rw [notePull_keys]
    exact hv.tagNames
  | createRepository r => exact hv.createRepository h
  | deleteRepository id =>
    cases h
    exact ⟨hv.repositoryIds.filter _, hv.repositoryNames.filter _, hv.organizationIds,
      hv.organizationSlugs, hv.tagNames.filter _,
      fun r hr => hv.issued r (mem_filter.mp hr).1⟩

end Chicoree.Images
