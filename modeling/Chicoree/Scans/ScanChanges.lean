import Chicoree.Scans.ScanTasks

/-! # What the steps do to the scan tasks

One inversion lemma for every action of an enqueue, a claim, a report and a tick. -/

namespace Chicoree.Scans

open Transition List Table

variable {s s' : ScanQueue} {t t' : Party} {a : Reply} {i id : Nat} {name : String}

/-- The task that an executor has leased or found leased to it, and under which name: from
there on it writes by the id alone. -/
def Party.work : Party → Option (Nat × String)
  | .claim name (.target t) => some (t.id, name)
  | .claim name (.nothing t) => some (t.id, name)
  | .claim name (.indexing t _) => some (t.id, name)
  | .claim name (.token t) => some (t.id, name)
  | .report name id _ (.storing _ _) => some (id, name)
  | .report name id _ (.findings _ _) => some (id, name)
  | .report name id _ (.finishing _) => some (id, name)
  | .report name id _ (.failState _ _) => some (id, name)
  | .report name id _ (.failing _ _) => some (id, name)
  | .report name id _ (.retrying _ _) => some (id, name)
  | .dispatch (.run t _ _) => some (t.id, inlineName)
  | .dispatch (.finish t _) => some (t.id, inlineName)
  | _ => none

def Party.executes : Party → Option (Nat × String)
  | .report name id _ _ => some (id, name)
  | t => t.work

/-- The task that the next statement of a party marks done. -/
def Party.finishes : Party → Option Nat
  | .claim _ (.nothing u) => some u.id
  | .report _ id _ (.finishing _) => some id
  | .dispatch (.finish u _) => some u.id
  | _ => none

structure SameTasks (s s' : ScanQueue) : Prop where
  tasks : s'.tasks = s.tasks
  waiting : s'.waiting = s.waiting
  nextId : s'.nextId = s.nextId
  now : s'.now = s.now

structure SameScans (s s' : ScanQueue) : Prop extends SameTasks s s' where
  scans : s'.scans = s.scans
  findings : s'.findings = s.findings

theorem SameScans.refl : SameScans s s := ⟨⟨rfl, rfl, rfl, rfl⟩, rfl, rfl⟩

theorem setScanState_same {digest : String} {repositoryId : Option String}
    {f : ScanRow → ScanRow} : SameTasks s (setScanState s digest repositoryId f) :=
  ⟨rfl, rfl, rfl, rfl⟩

inductive PartyStep (s : ScanQueue) (t : Party) (a : Reply) (s' : ScanQueue) (t' : Party) :
    Prop where
  /-- A party without a task. -/
  | aside (before : t.work = none) (after : t'.work = none) (same : SameTasks s s')
      (quiet : t.executes.isSome = true → SameScans s s')
  | enqueued (path digest repositoryId : String) (web : Int)
      (party : t = .enqueue path digest repositoryId .insert) (ok : a = .ok web)
      (after : t'.work = none) (state : s' = enqueueTask s path digest repositoryId web)
  | released (web : Int) (party : t = .dispatch .release) (ok : a = .ok web)
      (after : t'.work = none) (state : s' = releaseExpired s)
  | swept (party : t = .dispatch .sweep) (after : t'.work = none) (state : s' = sweepTasks s)
  | claimed (name : String) (locked : List Nat) (r : ScanTask)
      (party : t = .claim name .claiming) (reply : a = .next locked)
      (row : nextTask s locked = some r) (after : t'.work = some (r.id, name))
      (state : s' = s.lease r.id name (s.now + leaseTime) s.now)
  | taken (u : TaskRead) (rest : List TaskRead) (web : Int)
      (party : t = .dispatch (.lease u rest)) (reply : a = .ok web)
      (after : t'.work = some (u.id, inlineName))
      (state : s' = s.lease u.id inlineName (web + leaseTime) web)
  | checked (name : String) (id : Nat) (outcome : Outcome) (web : Int) (r : ScanTask)
      (party : t = .report name id outcome .check) (reply : a = .ok web)
      (row : leasedTask s id name = some r) (after : t'.work = some (id, name))
      (state : s' = s)
  | works (id : Nat) (name : String) (before : t.work = some (id, name))
      (after : t'.work = some (id, name)) (same : SameTasks s s')
  | leaves (id : Nat) (name : String) (before : t.work = some (id, name))
      (after : t'.work = none) (same : SameTasks s s')
  | finished (id : Nat) (name : String) (lastError : ScanTask → Option String) (web : Int)
      (finishes : t.finishes = some id) (ok : a = .ok web)
      (before : t.work = some (id, name)) (after : t'.work = none)
      (state : s' = s.update id fun r => r.finish name (lastError r) web)
  | failed (id : Nat) (name message : String) (web : Int) (before : t.work = some (id, name))
      (after : t'.work = none) (state : s' = s.update id (ScanTask.fail name message web))
  | retried (id : Nat) (name message : String) (outcome : Outcome) (u : TaskRead) (web : Int)
      (party : t = .report name id outcome (.retrying u message)) (ok : a = .ok web)
      (after : t'.work = none)
      (state : s' = s.update id (ScanTask.retry name message u.attempts web))

theorem enqueueAct_step {path digest repositoryId : String} {pc pc' : EnqueuePc}
    (h : enqueueAct s path digest repositoryId pc a = some (s', pc')) :
    PartyStep s (.enqueue path digest repositoryId pc) a s'
      (.enqueue path digest repositoryId pc') := by
  have hnobody {pc : EnqueuePc} :
      (Party.enqueue path digest repositoryId pc).executes.isSome = true → SameScans s s' :=
    nofun
  cases pc with
  | scanState =>
    cases a <;> cases h <;> exact .aside rfl rfl ⟨rfl, rfl, rfl, rfl⟩ hnobody
  | insert =>
    cases a <;> cases h
    case ok.refl web => exact .enqueued path digest repositoryId web rfl rfl rfl rfl
    case fails.refl => exact .aside rfl rfl SameScans.refl.toSameTasks hnobody
  | done | aborted => cases a <;> cases h

theorem claimAct_step {pc pc' : ClaimPc} (h : claimAct s name pc a = some (s', pc')) :
    PartyStep s (.claim name pc) a s' (.claim name pc') := by
  have hnobody {s s' : ScanQueue} {pc : ClaimPc} (hwork : (Party.claim name pc).work = none) :
      (Party.claim name pc).executes.isSome = true → SameScans s s' := by
    intro hsome
    rw [show (Party.claim name pc).executes = none from hwork] at hsome
    cases hsome
  cases pc with
  | heartbeat running =>
    cases a <;> cases h <;> exact .aside rfl rfl ⟨rfl, rfl, rfl, rfl⟩ (hnobody rfl)
  | claiming =>
    cases a with
    | next locked =>
      simp only [claimAct] at h
      split at h
      · cases h
        exact .aside rfl rfl SameScans.refl.toSameTasks (hnobody rfl)
      · rename_i r hr
        cases h
        exact .claimed name locked r rfl rfl hr rfl rfl
    | fails =>
      cases h
      exact .aside rfl rfl SameScans.refl.toSameTasks (hnobody rfl)
    | _ => cases h
  | polled =>
    cases a <;> cases h
    · exact .aside rfl rfl SameScans.refl.toSameTasks (hnobody rfl)
  | target u =>
    cases a with
    | target repositoryId =>
      cases repositoryId <;> cases h <;>
        exact .works u.id name rfl rfl SameScans.refl.toSameTasks
    | fails =>
      cases h
      exact .leaves u.id name rfl rfl SameScans.refl.toSameTasks
    | _ => cases h
  | nothing u =>
    cases a <;> cases h
    case ok.refl web => exact .finished u.id name (fun _ => some "nothing to scan") web rfl rfl rfl rfl rfl
    case fails.refl => exact .leaves u.id name rfl rfl SameScans.refl.toSameTasks
  | indexing u repositoryId =>
    cases a <;> cases h
    case ok.refl web => exact .works u.id name rfl rfl setScanState_same
    case fails.refl => exact .leaves u.id name rfl rfl SameScans.refl.toSameTasks
  | token u =>
    cases a <;> cases h <;> exact .leaves u.id name rfl rfl SameScans.refl.toSameTasks
  | handed payload | aborted => cases a <;> cases h

theorem reportAct_step {outcome : Outcome} {pc pc' : ReportPc}
    (h : reportAct s name id outcome pc a = some (s', pc')) :
    PartyStep s (.report name id outcome pc) a s' (.report name id outcome pc') := by
  -- every statement may fail, and ends the report
  have hfails {pc : ReportPc} (hwork : (Party.report name id outcome pc).work = some (id, name)) :
      PartyStep s (.report name id outcome pc) .fails s (.report name id outcome .aborted) :=
    .leaves id name hwork rfl SameScans.refl.toSameTasks
  cases pc with
  | check =>
    cases a with
    | ok web =>
      simp only [reportAct] at h
      split at h
      · cases h
        exact .aside rfl rfl SameScans.refl.toSameTasks fun _ => SameScans.refl
      · rename_i r hr
        cases outcome with
        | result result =>
          cases h
          exact .checked name id _ web r rfl rfl hr rfl rfl
        | failure message =>
          dsimp only at h
          split at h <;> cases h <;> exact .checked name id _ web r rfl rfl hr rfl rfl
    | fails =>
      cases h
      exact .aside rfl rfl SameScans.refl.toSameTasks fun _ => SameScans.refl
    | _ => cases h
  | storing u result | failState u message =>
    cases a <;> cases h
    case ok.refl web => exact .works id name rfl rfl setScanState_same
    case fails.refl => exact hfails rfl
  | findings u result =>
    cases a <;> cases h
    case ok.refl web => exact .works id name rfl rfl ⟨rfl, rfl, rfl, rfl⟩
    case fails.refl => exact hfails rfl
  | finishing u =>
    cases a <;> cases h
    case ok.refl web => exact .finished id name (fun _ => none) web rfl rfl rfl rfl rfl
    case fails.refl => exact hfails rfl
  | failing u message =>
    cases a <;> cases h
    case ok.refl web => exact .failed id name message web rfl rfl rfl
    case fails.refl => exact hfails rfl
  | retrying u message =>
    cases a <;> cases h
    case ok.refl web => exact .retried id name message outcome u web rfl rfl rfl rfl
    case fails.refl => exact hfails rfl
  | counting message =>
    cases a with
    | ok web | fails =>
      cases h
      exact .aside rfl rfl ⟨rfl, rfl, rfl, rfl⟩ fun _ => ⟨⟨rfl, rfl, rfl, rfl⟩, rfl, rfl⟩
    | _ => cases h
  | answered ok | aborted => cases a <;> cases h

theorem runScanAct_same {digest : String} {pc : RunPc} {out : Option RunPc}
    (h : runScanAct s digest pc a = some (s', out)) : SameTasks s s' := by
  cases pc with
  | start =>
    cases a with
    | target repositoryId => cases repositoryId <;> cases h <;> exact ⟨rfl, rfl, rfl, rfl⟩
    | ok web | fails | next locked | active b | artifact | scanned result =>
      cases h <;> exact ⟨rfl, rfl, rfl, rfl⟩
  | artifact | indexing repositoryId | executing repositoryId | storing repositoryId result
  | findings repositoryId result | failing repositoryId message =>
    cases a <;> cases h <;> exact ⟨rfl, rfl, rfl, rfl⟩

theorem dispatchNext_work (rest : List TaskRead) :
    (Party.dispatch (dispatchNext rest)).work = none := by
  cases rest <;> rfl

theorem dispatchAct_step {pc pc' : DispatchPc} (h : dispatchAct s pc a = some (s', pc')) :
    PartyStep s (.dispatch pc) a s' (.dispatch pc') := by
  -- a statement that fails, or one that only reads
  have haside {pc pc' : DispatchPc} {a : Reply} (hbefore : (Party.dispatch pc).work = none)
      (hafter : (Party.dispatch pc').work = none) :
      PartyStep s (.dispatch pc) a s (.dispatch pc') :=
    .aside hbefore hafter SameScans.refl.toSameTasks fun _ => SameScans.refl
  cases pc with
  | release =>
    cases a <;> cases h
    case ok.refl web => exact .released web rfl rfl rfl rfl
    case fails.refl => exact haside rfl rfl
  | settings =>
    cases a with
    | active b => cases b <;> cases h <;> exact haside rfl rfl
    | fails =>
      cases h
      exact haside rfl rfl
    | _ => cases h
  | online =>
    cases a with
    | ok web =>
      simp only [dispatchAct] at h
      cases h
      split <;> exact haside rfl rfl
    | fails =>
      cases h
      exact haside rfl rfl
    | _ => cases h
  | select =>
    cases a <;> cases h
    case ok.refl web => exact haside rfl (dispatchNext_work _)
    case fails.refl => exact haside rfl rfl
  | lease u rest =>
    cases a <;> cases h
    case ok.refl web => exact .taken u rest web rfl rfl rfl rfl
    case fails.refl => exact haside rfl rfl
  | run u pc rest =>
    simp only [dispatchAct] at h
    split at h
    · rename_i s₁ pc₁ hrun
      cases h
      exact .works u.id inlineName rfl rfl (runScanAct_same hrun)
    · rename_i s₁ hrun
      cases h
      exact .works u.id inlineName rfl rfl (runScanAct_same hrun)
    · cases h
  | finish u rest =>
    cases a <;> cases h
    case ok.refl web => exact .finished u.id inlineName (·.lastError) web rfl rfl rfl (dispatchNext_work _) rfl
    case fails.refl => exact .leaves u.id inlineName rfl rfl SameScans.refl.toSameTasks
  | sweep =>
    cases a <;> cases h
    case ok.refl web => exact .swept rfl rfl rfl
    case fails.refl => exact haside rfl rfl
  | sweepWorkers =>
    cases a <;> cases h
    case ok.refl web => exact .aside rfl rfl ⟨rfl, rfl, rfl, rfl⟩ nofun
    case fails.refl => exact haside rfl rfl
  | done | aborted => cases a <;> cases h

theorem partyAct_step (h : partyAct s i t a = some (s', t')) : PartyStep s t a s' t' := by
  cases t with
  | enqueue path digest repositoryId pc =>
    obtain ⟨⟨s₁, pc'⟩, hc, ⟨⟩⟩ := Option.map_eq_some_iff.mp h
    exact enqueueAct_step hc
  | claim name pc =>
    obtain ⟨⟨s₁, pc'⟩, hc, ⟨⟩⟩ := Option.map_eq_some_iff.mp h
    exact claimAct_step hc
  | report name id outcome pc =>
    obtain ⟨⟨s₁, pc'⟩, hc, ⟨⟩⟩ := Option.map_eq_some_iff.mp h
    exact reportAct_step hc
  | dispatch pc =>
    obtain ⟨⟨s₁, pc'⟩, hc, ⟨⟩⟩ := Option.map_eq_some_iff.mp h
    exact dispatchAct_step hc

/-! ## Enqueued tasks -/

section enqueue

variable {path digest repositoryId : String} {web : Int} {r : ScanTask}

theorem mem_enqueue (hr : r ∈ (enqueueTask s path digest repositoryId web).tasks) :
    (r ∈ s.tasks ∧ r.digest ≠ digest) ∨
      (r.digest = digest ∧ r.status = .queued ∧ r.held = [] ∧ r.attempts = 0 ∧ r.leases = 0) := by
  unfold enqueueTask at hr
  split at hr
  · rename_i hnone
    rcases mem_append.mp hr with hr | hr
    · exact .inl ⟨hr, find_none hnone hr⟩
    · cases mem_singleton.mp hr
      exact .inr ⟨rfl, rfl, rfl, rfl, rfl⟩
  · rcases mem_update hr with hr | ⟨x, -, hx, rfl⟩
    · exact .inl hr
    · exact .inr ⟨hx, rfl, rfl, rfl, rfl⟩

theorem mem_enqueue_of_ne (hr : r ∈ s.tasks) (hne : r.digest ≠ digest) :
    r ∈ (enqueueTask s path digest repositoryId web).tasks := by
  unfold enqueueTask
  split
  · exact mem_append_left _ hr
  · exact mem_map.mpr ⟨r, hr, if_neg hne⟩

theorem exists_enqueued : ∃ r ∈ (enqueueTask s path digest repositoryId web).tasks,
    r.digest = digest ∧ r.status = .queued := by
  unfold enqueueTask
  split
  · exact ⟨_, mem_append_right _ (mem_singleton_self _), rfl, rfl⟩
  · rename_i x hx
    obtain ⟨hmem, hxd⟩ := find_some hx
    exact ⟨_, mem_map_of_mem hmem, by rw [if_pos hxd]; exact hxd, by rw [if_pos hxd]⟩

theorem enqueueTask_waiting : (enqueueTask s path digest repositoryId web).waiting =
    s.waiting ++ [digest] := by
  unfold enqueueTask
  split <;> rfl

theorem enqueueTask_now : (enqueueTask s path digest repositoryId web).now = s.now := by
  unfold enqueueTask
  split <;> rfl

end enqueue

/-! ## Keys -/

structure Indexed (s : ScanQueue) : Prop where
  ids : Table.Keyed (·.id) s.tasks
  digests : Table.Keyed (·.digest) s.tasks
  old : ∀ r ∈ s.tasks, r.id < s.nextId

theorem indexed_empty (h : s.tasks = []) : Indexed s := by
  refine ⟨?_, ?_, ?_⟩
  · rw [h]; exact nodup_nil
  · rw [h]; exact nodup_nil
  · simp [h]

theorem Indexed.map {g : ScanTask → ScanTask} (h : Indexed s)
    (htasks : s'.tasks = s.tasks.map g) (hnext : s.nextId ≤ s'.nextId)
    (hid : ∀ r, (g r).id = r.id) (hdigest : ∀ r, (g r).digest = r.digest) : Indexed s' where
  ids := by
    unfold Table.Keyed
    rw [htasks, map_map]
    exact (map_congr_left fun r _ => hid r : s.tasks.map _ = s.tasks.map (·.id)) ▸ h.ids
  digests := by
    unfold Table.Keyed
    rw [htasks, map_map]
    exact (map_congr_left fun r _ => hdigest r : s.tasks.map _ = s.tasks.map (·.digest)) ▸ h.digests
  old r hr := by
    rw [htasks] at hr
    obtain ⟨r₀, hr₀, rfl⟩ := mem_map.mp hr
    rw [hid]
    exact Nat.lt_of_lt_of_le (h.old r₀ hr₀) hnext

theorem Indexed.update {f : ScanTask → ScanTask} (h : Indexed s)
    (htasks : s'.tasks = (s.update id f).tasks) (hnext : s'.nextId = s.nextId)
    (hid : ∀ r, (f r).id = r.id) (hdigest : ∀ r, (f r).digest = r.digest) : Indexed s' := by
  refine h.map htasks (Nat.le_of_eq hnext.symm) (key_ite hid id) fun r => ?_
  split
  · exact hdigest r
  · rfl

theorem Indexed.release (h : Indexed s) : Indexed (releaseExpired s) := by
  refine h.map rfl (Nat.le_refl _) (fun r => ?_) fun r => ?_
  · split <;> rfl
  · split <;> rfl

theorem Indexed.sweep (h : Indexed s) : Indexed (sweepTasks s) where
  ids := h.ids.filter _
  digests := h.digests.filter _
  old r hr := h.old r (mem_filter.mp hr).1

theorem Indexed.enqueue {path digest repositoryId : String} {web : Int} (h : Indexed s) :
    Indexed (enqueueTask s path digest repositoryId web) := by
  unfold enqueueTask
  split
  · rename_i hnone
    refine ⟨h.ids.append fun x hx => ?_, h.digests.append fun x hx => find_none hnone hx,
      fun r hr => ?_⟩
    · exact Nat.ne_of_lt (h.old x hx)
    · show r.id < s.nextId + 1
      rcases mem_append.mp hr with hr | hr
      · have hlt := h.old r hr
        omega
      · rw [mem_singleton.mp hr]
        exact Nat.lt_succ_self _
  · refine h.map rfl (Nat.le_succ _) (fun r => ?_) fun r => ?_
    · split <;> rfl
    · split <;> rfl

theorem Indexed.same (h : Indexed s) (hsame : SameTasks s s') : Indexed s' where
  ids := hsame.tasks ▸ h.ids
  digests := hsame.tasks ▸ h.digests
  old := by rw [hsame.tasks, hsame.nextId]; exact h.old

theorem PartyStep.indexed (h : PartyStep s t a s' t') (hs : Indexed s) : Indexed s' := by
  cases h with
  | aside before after same quiet | works k n before after same | leaves k n before after same =>
    exact hs.same same
  | enqueued path digest repositoryId web party ok after state => exact state ▸ hs.enqueue
  | released web party ok after state => exact state ▸ hs.release
  | swept party after state => exact state ▸ hs.sweep
  | checked n k outcome web x party reply row after state => exact state ▸ hs
  | claimed n locked x party reply row after state | taken u rest web party reply after state
  | finished k n lastError web finishes ok before after state
  | failed k n message web before after state
  | retried k n message outcome u web party ok after state =>
    subst state
    refine hs.update rfl rfl ?_ ?_ <;> exact fun _ => rfl

end Chicoree.Scans
