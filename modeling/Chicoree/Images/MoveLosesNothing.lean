import Chicoree.Images.ImageMove
import Chicoree.Images.LatestFollows

/-! # What a move removes

When a move comes to delete its tag, the digest that it resolved has been pushed to the
destination. -/

namespace Chicoree.Images

open Transition List Option
open Registryd (Digest RepoId OrgId Time Repository Organization)

/-! ## The plan lists the image -/

/-- The manifest is among those to push. -/
def Listed (root : Digest) (manifests : List PlannedManifest) : Prop :=
  ∃ m ∈ manifests, m.manifest.digest = root

/-- The image is still to be visited, or to be listed, or it is listed. -/
inductive CopyPlan.Covers (plan : CopyPlan) (root : Digest) : Prop where
  | visit (tag : Option String) (todo : .enter root tag ∈ plan.todo) (new : root ∉ plan.seen)
  | visited (m : PlannedManifest) (todo : .leave m ∈ plan.todo) (digest : m.manifest.digest = root)
  | listed (listed : Listed root plan.ordered)

theorem CopyPlan.covers_start (root : Digest) : (CopyPlan.start root).Covers root :=
  .visit none (mem_singleton.mpr rfl) (fun h => by cases h)

section plan

variable {s : Tables} {children : Digest → List Digest} {repo : RepoId} {plan : CopyPlan}
  {root : Digest}

variable {m : PushedManifest}

theorem storedManifest_digest {d : Digest}
    (h : s.storedManifest repo d = some m) : m.digest = d := by
  obtain ⟨row, -, rfl⟩ := map_eq_some_iff.mp h
  rfl

theorem CopyPlan.Covers.listed_of_nil (h : plan.Covers root) (htodo : plan.todo = []) :
    Listed root plan.ordered := by
  cases h with
  | visit tag hin _ | visited m hin _ =>
    rw [htodo] at hin
    cases hin
  | listed h => exact h

/-- What a step of the plan leaves. -/
def PlanOutcome.Covers (root : Digest) : PlanOutcome → Prop
  | .more plan => plan.Covers root
  | .unreadable => True
  | .complete manifests => Listed root manifests

variable {tag : Option String} {rest : List Visit}

theorem CopyPlan.Covers.skip {d : Digest}
    (h : plan.Covers root) (htodo : plan.todo = .enter d tag :: rest) (hseen : d ∈ plan.seen) :
    CopyPlan.Covers { plan with todo := rest } root := by
  cases h with
  | visit tag' hin hnew =>
    rw [htodo] at hin
    rcases mem_cons.mp hin with heq | hin
    · cases heq
      exact absurd hseen hnew
    · exact .visit tag' hin hnew
  | visited m hin hdigest =>
    rw [htodo] at hin
    rcases mem_cons.mp hin with heq | hin
    · cases heq
    · exact .visited m hin hdigest
  | listed h => exact .listed h

theorem CopyPlan.Covers.descend
    (h : plan.Covers root) (htodo : plan.todo = .enter m.digest tag :: rest) :
    (plan.descend children m tag rest).Covers root := by
  have hrest {v : Visit} (hv : v ∈ rest) : v ∈ (plan.descend children m tag rest).todo :=
    mem_append_right _ (mem_cons_of_mem _ hv)
  by_cases hroot : m.digest = root
  · exact .visited ⟨m, tag⟩ (mem_append_right _ mem_cons_self) hroot
  · cases h with
    | visit tag' hin hnew =>
      rw [htodo] at hin
      rcases mem_cons.mp hin with heq | hin
      · cases heq
        exact absurd rfl hroot
      · refine .visit tag' (hrest hin) ?_
        intro hseen
        rcases mem_cons.mp hseen with heq | hseen
        · exact hroot heq.symm
        · exact hnew hseen
    | visited m' hin hdigest =>
      rw [htodo] at hin
      rcases mem_cons.mp hin with heq | hin
      · cases heq
      · exact .visited m' (hrest hin) hdigest
    | listed h => exact .listed h

theorem CopyPlan.Covers.leave {m : PlannedManifest}
    (h : plan.Covers root) (htodo : plan.todo = .leave m :: rest) :
    CopyPlan.Covers { plan with todo := rest, ordered := plan.ordered ++ [m] } root := by
  cases h with
  | visit tag hin hnew =>
    rw [htodo] at hin
    rcases mem_cons.mp hin with heq | hin
    · cases heq
    · exact .visit tag hin hnew
  | visited m' hin hdigest =>
    rw [htodo] at hin
    rcases mem_cons.mp hin with heq | hin
    · cases heq
      exact .listed ⟨m, mem_append_right _ (mem_singleton.mpr rfl), hdigest⟩
    · exact .visited m' hin hdigest
  | listed h =>
    obtain ⟨m', hm', hdigest⟩ := h
    exact .listed ⟨m', mem_append_left _ hm', hdigest⟩

theorem CopyPlan.act_covers {reply : MoveReply} {out : PlanOutcome} (h : plan.Covers root)
    (hact : plan.act s children repo reply = some out) : out.Covers root := by
  unfold CopyPlan.act at hact
  split at hact
  · rename_i d tag rest reply htodo
    split at hact
    · rename_i hseen
      cases hact
      exact h.skip htodo hseen
    · split at hact
      · cases hact
        trivial
      · rename_i m hm
        split at hact <;> cases hact
        · trivial
        · have hdigest := storedManifest_digest hm
          subst hdigest
          exact h.descend htodo
  · rename_i m rest reply htodo
    cases hact
    exact h.leave htodo
  · rename_i found htodo
    split at hact <;> cases hact
    exact .listed (h.listed_of_nil htodo)
  · rename_i reply htodo
    split at hact
    · cases hact
      trivial
    · split at hact <;> cases hact
      exact h.listed_of_nil htodo
  · cases hact

end plan

/-- What later states keep: repositories stay where they are, and pushes stay noted. -/
structure Later (s s' : MoveState) : Prop where
  tables : Steady s.tables s'.tables
  pushed : ∃ new, s'.pushed = s.pushed ++ new

variable {i : Nat}

section known

variable {s s' : MoveState} {f : MoveForm} {m : Moving} {d : Digest}

theorem Later.mem (h : Later s s') {t : Tagging} (ht : t ∈ s.pushed) : t ∈ s'.pushed := by
  obtain ⟨new, hnew⟩ := h.pushed
  rw [hnew]
  exact mem_append_left _ ht

variable {t t' : Tables}

theorem Steady.findOrganization (h : Steady t t') (id : OrgId) :
    t'.findOrganization id = t.findOrganization id := by
  unfold Tables.findOrganization
  rw [h.organizations]

variable {r : Repository}

theorem Later.destination (h : Later s s') (hr : s.destination f = some r) :
    s'.destination f = some r := by
  obtain ⟨o, ho, hrepo⟩ := bind_eq_some_iff.mp hr
  refine bind_eq_some_iff.mpr ⟨o, ?_, h.tables.getRepository hrepo⟩
  rw [h.tables.findOrganization]
  exact ho

theorem PushedTo.later (hp : PushedTo s f d) (h : Later s s') : PushedTo s' f d := by
  obtain ⟨r, hr, t, ht, hat⟩ := hp
  exact ⟨r, h.destination hr, t, h.mem ht, hat⟩

/-- The push of the image is still to come, is under way, or has been answered. -/
inductive Arrives (s : MoveState) (f : MoveForm) (orgSlug : String) (root : Digest)
    (call : RegistryCall) (todo : List PlannedManifest) : Prop where
  | pending (todo : Listed root todo)
  | underway (r : Repository) (destination : s.destination f = some r)
      (path : s.tables.getRepository orgSlug r.name = some r)
      (serves : ServesPut orgSlug r f.destinationTag root call)
      (noted : ∀ message, call = .answered 201 message → PushedTo s f root)
  | arrived (pushed : PushedTo s f root)

variable {orgSlug : String} {root : Digest} {call : RegistryCall} {todo : List PlannedManifest}

theorem Arrives.later (ha : Arrives s f orgSlug root call todo) (h : Later s s') :
    Arrives s' f orgSlug root call todo := by
  cases ha with
  | pending hlisted => exact .pending hlisted
  | underway r hdest hpath hserves hnoted =>
    exact .underway r (h.destination hdest) (h.tables.getRepository hpath) hserves
      fun message hanswered => (hnoted message hanswered).later h
  | arrived hpushed => exact .arrived (hpushed.later h)

def DestinationOrg (s : MoveState) (f : MoveForm) (dst : Organization) : Prop :=
  s.tables.findOrganization f.destinationOrganizationId = some dst

/-- What a move has made sure of, by where it stands. -/
def MoveStage (s : MoveState) (f : MoveForm) (m : Moving) : Prop :=
  match m.pc with
  | .sourceRepository | .sourceOrganization _ | .sourceRole _ _ | .sourceProxy _ _
  | .tagDigest _ _ => m.resolved = none
  | .destinationChecks _ dst | .destinationRepository _ dst => DestinationOrg s f dst
  | .destinationRules _ dst r => DestinationOrg s f dst ∧ s.destination f = some r
  | .planCopy src dst r => DestinationOrg s f dst ∧ (∀ x, r = some x → s.destination f = some x) ∧
      m.plan.Covers src.digest
  | .createRepository src dst plan => DestinationOrg s f dst ∧ Listed src.digest plan
  | .push src orgSlug name call todo =>
    (∃ dst r, DestinationOrg s f dst ∧ orgSlug = dst.slug ∧ name = f.destinationRepository ∧
      s.destination f = some r) ∧ Arrives s f orgSlug src.digest call todo
  | .deleteTag _ => ∃ d, m.resolved = some d ∧ PushedTo s f d
  | .sourceRules _ | .destination _ | .done _ => True

structure MoveKnown (s : MoveState) (f : MoveForm) (m : Moving) : Prop where
  resolved : ∀ src, m.pc.source = some src → m.resolved = some src.digest
  stage : MoveStage s f m

variable {dst : Organization}

theorem DestinationOrg.later (hd : DestinationOrg s f dst)
    (h : Later s s') : DestinationOrg s' f dst :=
  (h.tables.findOrganization _).trans hd

theorem MoveKnown.later (hm : MoveKnown s f m) (h : Later s s') : MoveKnown s' f m := by
  refine ⟨hm.resolved, ?_⟩
  have hstage := hm.stage
  unfold MoveStage at hstage ⊢
  split at hstage
  · exact hstage
  · exact hstage
  · exact hstage
  · exact hstage
  · exact hstage
  · exact hstage.later h
  · exact hstage.later h
  · exact ⟨hstage.1.later h, h.destination hstage.2⟩
  · exact ⟨hstage.1.later h, fun x hx => h.destination (hstage.2.1 x hx), hstage.2.2⟩
  · exact ⟨hstage.1.later h, hstage.2⟩
  · obtain ⟨⟨dst, r, hdst, hslug, hname, hr⟩, harrives⟩ := hstage
    exact ⟨⟨dst, r, hdst.later h, hslug, hname, h.destination hr⟩, harrives.later h⟩
  · obtain ⟨d, hd, hpushed⟩ := hstage
    exact ⟨d, hd, hpushed.later h⟩
  · trivial
  · trivial
  · trivial

/-! ### Its own steps -/

theorem getRepository_name {name : String}
    (h : t.getRepository orgSlug name = some r) : r.name = name := by
  unfold Tables.getRepository at h
  split at h
  · cases h
  · exact congrArg Prod.snd (Table.find_some h).2

theorem destination_path (hdst : DestinationOrg s f dst) (hr : s.destination f = some r) :
    r.name = f.destinationRepository ∧ s.tables.getRepository dst.slug r.name = some r := by
  obtain ⟨o, ho, hrepo⟩ := bind_eq_some_iff.mp hr
  have hname := getRepository_name hrepo
  have hsame : o = dst := Option.some.inj (ho.symm.trans hdst)
  rw [hname, ← hsame]
  exact ⟨rfl, hrepo⟩

theorem destination_of_mem (hv : s.tables.Valid)
    (hdst : DestinationOrg s f dst) (hr : r ∈ s.tables.repositories) (horg : r.orgId = dst.id)
    (hname : r.name = f.destinationRepository) : s.destination f = some r := by
  have hid : dst.id = f.destinationOrganizationId := (Table.find_some hdst).2
  have hfound : s.tables.findOrganization r.orgId = some dst := by
    rw [horg, hid]
    exact hdst
  refine bind_eq_some_iff.mpr ⟨dst, hdst, ?_⟩
  rw [← hname]
  exact hv.getRepository hr hfound

theorem known_done {refusal : Option MoveRefusal} : MoveKnown s f (m.goTo (.done refusal)) :=
  ⟨(fun _ h => by cases h), trivial⟩

variable {pc : MovePc}

theorem goTo_resolved (hd : m.resolved = some d) : (m.goTo pc).resolved = some d := by
  unfold Moving.goTo
  rw [hd]
  rfl

variable {src : MoveSource}

theorem nextPush_known (hresolved : m.resolved = some src.digest)
    (hdst : DestinationOrg s f dst) (hr : s.destination f = some r)
    (hlisted : Listed src.digest todo ∨ PushedTo s f src.digest) :
    MoveKnown s f (m.goTo (f.nextPush src dst.slug f.destinationRepository todo)) := by
  obtain ⟨hname, hpath⟩ := destination_path hdst hr
  cases todo with
  | nil =>
    have hpushed : PushedTo s f src.digest := by
      rcases hlisted with ⟨x, hx, -⟩ | hpushed
      · cases hx
      · exact hpushed
    simp only [MoveForm.nextPush]
    split
    · exact ⟨(fun _ h => by cases h), src.digest, goTo_resolved hresolved, hpushed⟩
    · exact known_done
  | cons x rest =>
    refine ⟨fun src' hsrc => ?_, ⟨dst, r, hdst, rfl, rfl, hr⟩, ?_⟩
    · cases hsrc
      exact goTo_resolved hresolved
    · rcases hlisted with ⟨y, hy, hdigest⟩ | hpushed
      · rcases mem_cons.mp hy with rfl | hy
        · refine .underway r hr hpath ?_ fun message heq => by cases heq
          refine ⟨rfl, hname.symm, y.manifest, hdigest, ?_⟩
          rw [if_pos hdigest]
        · exact .pending ⟨y, hy, hdigest⟩
      · exact .arrived hpushed

variable {reply : Reply}

theorem upsert_writes {tag message : String} (h : registryAct t (.upsertTagGuarded r tag d) reply =
      some (t', .answered 201 message)) (image : Option Nat) :
    RegistryCall.tagging t reply image (.upsertTagGuarded r tag d) = [⟨r.id, tag, d, image⟩] := by
  simp only [registryAct] at h
  split at h
  · cases h
  · rename_i hran
    unfold upsertTagGuarded at h
    split at h
    · cases h
    · rename_i hok
      split at h
      · rename_i hexists
        have hwrites : (RegistryCall.upsertTagGuarded r tag d).writes t =
            some (t.pushedTag r.id tag d) := by
          simp [RegistryCall.writes, hok, hexists]
        unfold RegistryCall.tagging
        rw [if_neg hran, hwrites]
        simp [Tables.pushedTag_repositoryId, Tables.pushedTag_name]
      · cases h

variable {image : Option Nat}

theorem push_arrives {call' : RegistryCall} (ha : Arrives s f orgSlug root call todo)
    (hact : registryAct s.tables call reply = some (t', call'))
    (hs' : s' = ⟨t', s.pushed ++ call.tagging s.tables reply image⟩) (hlater : Later s s') :
    Arrives s' f orgSlug root call' todo := by
  cases ha with
  | pending hlisted => exact .pending hlisted
  | arrived hpushed => exact .arrived (hpushed.later hlater)
  | underway r hdest hpath hserves hnoted =>
    obtain ⟨hserves', hwrote⟩ := servesPut_step hpath hserves hact
    refine .underway r (hlater.destination hdest) (hlater.tables.getRepository hpath) hserves'
      fun message hanswered => ?_
    rcases hwrote with ⟨-, hno⟩ | ⟨rfl, -⟩
    · exact absurd hanswered (hno message)
    · rw [hanswered] at hact
      refine ⟨r, hlater.destination hdest, ⟨r.id, f.destinationTag, root, image⟩, ?_, rfl, rfl, rfl⟩
      rw [hs', upsert_writes hact image]
      exact mem_append_right _ (mem_singleton.mpr rfl)

variable {localeCompare : String → String → Ordering} {pc' : MovePc}

theorem moveAct_later {new : List Tagging}
    (h : moveAct localeCompare s.tables f pc reply = some (t', pc')) :
    Later s ⟨t', s.pushed ++ new⟩ := by
  refine ⟨?_, new, rfl⟩
  rcases moveAct_step h with hstep | ⟨⟨r, hrow⟩, -⟩
  · generalize pc.call = c, pc'.call = c' at hstep
    cases hstep with
    | reads => exact .refl
    | registry act => exact registryChange_steady (registryAct_change act)
  · exact .created hrow

theorem moveAct_valid (hv : t.Valid)
    (h : moveAct localeCompare t f pc reply = some (t', pc')) : t'.Valid := by
  rcases moveAct_step h with hstep | ⟨⟨r, hrow⟩, -⟩
  · generalize pc.call = c, pc'.call = c' at hstep
    cases hstep with
    | reads => exact hv
    | registry act => exact registryChange_valid hv (registryAct_change act)
  · exact hv.createRepository hrow

theorem moveAct_known (hv : s.tables.Valid)
    (h : MoveKnown s f m) (hplan : ∀ src dst r, m.pc ≠ .planCopy src dst r)
    (hact : moveAct localeCompare s.tables f m.pc reply = some (t', pc'))
    (hs' : s' = ⟨t', s.pushed ++ (m.pc.call.map (·.tagging s.tables reply image)).getD []⟩) :
    MoveKnown s' f (m.goTo pc') := by
  have hlater : Later s s' := by
    rw [hs']
    exact moveAct_later hact
  have hv' : s'.tables.Valid := by
    rw [hs']
    exact moveAct_valid hv hact
  obtain ⟨hresolved, hstage⟩ := h
  -- a later stage with the same source
  have hsame {src : MoveSource} (hsrc : m.pc.source = some src) {pc : MovePc}
      (hpc : pc.source = some src) (hnew : MoveStage s' f (m.goTo pc)) :
      MoveKnown s' f (m.goTo pc) := by
    refine ⟨fun src' hsrc' => ?_, hnew⟩
    have heq : src' = src := Option.some.inj (Eq.symm hsrc' |>.trans hpc)
    rw [heq]
    exact goTo_resolved (hresolved src hsrc)
  generalize hpc : m.pc = pc at *
  unfold MoveStage at hstage
  rw [hpc] at hstage
  cases pc with
  | done refusal => cases hact
  | planCopy src dst r => exact absurd rfl (hplan src dst r)
  | sourceRepository | sourceOrganization | sourceRole | sourceProxy =>
    simp only [moveAct] at hact
    split at hact <;> cases hact
    all_goals first
      | exact known_done
      | exact ⟨(fun _ hsrc => by cases hsrc), by
          unfold Moving.goTo
          rw [hstage]
          rfl⟩
  | tagDigest r orgSlug =>
    have hfresh {src : MoveSource} {pc : MovePc} (hsrc : pc.source = some src)
        (hnew : MoveStage s' f (m.goTo pc)) : MoveKnown s' f (m.goTo pc) := by
      refine ⟨fun src' hsrc' => ?_, hnew⟩
      have heq : src' = src := Option.some.inj (Eq.symm hsrc' |>.trans hsrc)
      unfold Moving.goTo
      rw [heq, hstage, hsrc]
      rfl
    simp only [moveAct] at hact
    split at hact
    · split at hact <;> cases hact
      · exact known_done
      · exact hfresh rfl trivial
    · split at hact
      · cases hact
        exact known_done
      · split at hact <;> cases hact
        · exact hfresh rfl trivial
        · exact hfresh rfl trivial
  | sourceRules src =>
    simp only [moveAct] at hact
    split at hact <;> cases hact
    · exact known_done
    · exact hsame rfl rfl trivial
  | destination src =>
    simp only [moveAct] at hact
    split at hact
    · cases hact
      exact known_done
    · rename_i dst hdst
      cases hact
      have hdst' : DestinationOrg s f dst := hdst
      exact hsame rfl rfl (hdst'.later hlater)
  | destinationChecks src dst =>
    simp only [moveAct] at hact
    split at hact <;> cases hact
    · exact hsame rfl rfl (DestinationOrg.later hstage hlater)
    · exact known_done
  | destinationRepository src dst =>
    have hdst : DestinationOrg s f dst := hstage
    have hdst' := hdst.later hlater
    simp only [moveAct] at hact
    split at hact
    · cases hact
      exact hsame rfl rfl ⟨hdst', (fun _ hx => by cases hx), CopyPlan.covers_start src.digest⟩
    · rename_i r hr
      split at hact <;> cases hact
      · exact known_done
      · obtain ⟨hmem, hkey⟩ := Table.find_some hr
        have horg : r.orgId = dst.id := congrArg Prod.fst hkey
        have hname : r.name = f.destinationRepository := congrArg Prod.snd hkey
        have hfound : s.destination f = some r := destination_of_mem hv hdst hmem horg hname
        exact hsame rfl rfl ⟨hdst', hlater.destination hfound⟩
  | destinationRules src dst r =>
    obtain ⟨hdst, hr⟩ := hstage
    have hplanned : MoveStage s' f (m.goTo (.planCopy src dst (some r))) := by
      refine ⟨hdst.later hlater, fun x hx => ?_, CopyPlan.covers_start src.digest⟩
      cases hx
      exact hlater.destination hr
    simp only [moveAct] at hact
    split at hact
    · split at hact <;> cases hact
      · exact known_done
      · exact hsame rfl rfl hplanned
    · cases hact
      exact hsame rfl rfl hplanned
  | createRepository src dst plan =>
    obtain ⟨hdst, hlisted⟩ := hstage
    simp only [moveAct] at hact
    split at hact
    · rename_i id visibility
      obtain ⟨t, hrow, heq⟩ := map_eq_some_iff.mp hact
      cases heq
      have hmem : (⟨id, dst.id, f.destinationRepository, visibility⟩ : Repository) ∈
          s'.tables.repositories := by
        obtain ⟨-, -, rfl⟩ := createRepository_some hrow
        rw [hs']
        exact mem_append_right _ (mem_singleton.mpr rfl)
      have hr := destination_of_mem hv' (hdst.later hlater) hmem rfl rfl
      exact nextPush_known (hresolved src rfl) (hdst.later hlater) hr (.inl hlisted)
    · cases hact
      exact known_done
  | push src orgSlug name call todo =>
    obtain ⟨⟨dst, r, hdst, rfl, rfl, hr⟩, harrives⟩ := hstage
    by_cases hanswered : ∃ status message, call = .answered status message
    · obtain ⟨status, message, rfl⟩ := hanswered
      simp only [moveAct] at hact
      split at hact <;> cases hact
      · exact known_done
      · rename_i hstatus
        have hstatus : status = 201 := by omega
        have hlisted : Listed src.digest todo ∨ PushedTo s' f src.digest := by
          cases harrives with
          | pending hlisted => exact .inl hlisted
          | underway r' _ _ _ hnoted =>
            rw [hstatus] at hnoted
            exact .inr ((hnoted message rfl).later hlater)
          | arrived hpushed => exact .inr (hpushed.later hlater)
        exact nextPush_known (hresolved src rfl) (hdst.later hlater) (hlater.destination hr)
          hlisted
    · have hcall : moveAct localeCompare s.tables f (.push src dst.slug f.destinationRepository
          call todo) reply = (registryAct s.tables call reply).map
            fun out => (out.1, .push src dst.slug f.destinationRepository out.2 todo) := by
        cases call with
        | answered status message => exact absurd ⟨status, message, rfl⟩ hanswered
        | _ => rfl
      rw [hcall] at hact
      obtain ⟨out, hregistry, heq⟩ := map_eq_some_iff.mp hact
      cases heq
      exact hsame rfl rfl ⟨⟨dst, r, hdst.later hlater, rfl, rfl, hlater.destination hr⟩,
        push_arrives harrives hregistry hs' hlater⟩
  | deleteTag pc =>
    obtain ⟨d, hd, hpushed⟩ := hstage
    have hdeleting {pc : TagAdminPc} : MoveKnown s' f (m.goTo (.deleteTag pc)) :=
      ⟨(fun _ hsrc => by cases hsrc), d, goTo_resolved hd, hpushed.later hlater⟩
    cases pc
    case done result =>
      cases result <;> cases hact <;> exact known_done
    all_goals
      obtain ⟨out, -, heq⟩ := map_eq_some_iff.mp hact
      cases heq
      exact hdeleting

theorem Later.refl : Later s s := ⟨.refl, [], (append_nil _).symm⟩

theorem planned_known {r : Option Repository} {manifests : List PlannedManifest}
    {out : Tables × MovePc} (h : MoveKnown s f m) (hpc : m.pc = .planCopy src dst r)
    (hlisted : Listed src.digest manifests)
    (hact : moveAct localeCompare s.tables f (.planCopy src dst r) (.copyPlan manifests) =
      some out) : out.1 = s.tables ∧ MoveKnown s f (m.goTo out.2) := by
  obtain ⟨hresolved, hstage⟩ := h
  have hsrc : m.resolved = some src.digest := hresolved src (by rw [hpc]; rfl)
  unfold MoveStage at hstage
  rw [hpc] at hstage
  obtain ⟨hdst, hr, -⟩ := hstage
  cases r with
  | none =>
    cases hact
    refine ⟨rfl, fun src' hsrc' => ?_, hdst, hlisted⟩
    cases hsrc'
    exact goTo_resolved hsrc
  | some r =>
    cases hact
    obtain ⟨hname, -⟩ := destination_path hdst (hr r rfl)
    rw [hname]
    exact ⟨rfl, nextPush_known hsrc hdst (hr r rfl) (.inl hlisted)⟩

variable {children : Digest → List Digest} {m' : Moving}

theorem movingAct_known {reply : MoveReply} (hv : s.tables.Valid) (h : MoveKnown s f m)
    (hact : movingAct localeCompare children s i f m reply = some (s', m')) :
    MoveKnown s' f m' ∧ Later s s' ∧ s'.tables.Valid := by
  unfold movingAct at hact
  split at hact
  · rename_i src dst r hpc
    have hstage := h.stage
    unfold MoveStage at hstage
    rw [hpc] at hstage
    obtain ⟨hdst, hr, hcovers⟩ := hstage
    split at hact
    · cases hact
    · rename_i plan hplan
      cases hact
      have hmore : plan.Covers src.digest := CopyPlan.act_covers hcovers hplan
      refine ⟨⟨h.resolved, ?_⟩, .refl, hv⟩
      rw [show ({ m with plan := plan } : Moving).pc = .planCopy src dst r from hpc]
      exact ⟨hdst, hr, hmore⟩
    · cases hact
      exact ⟨known_done, .refl, hv⟩
    · rename_i manifests hplan
      obtain ⟨out, hmove, heq⟩ := map_eq_some_iff.mp hact
      cases heq
      have hlisted : Listed src.digest manifests := CopyPlan.act_covers hcovers hplan
      obtain ⟨htables, hknown⟩ := planned_known h hpc hlisted hmove
      rw [htables]
      exact ⟨hknown, .refl, hv⟩
  · rename_i hplan
    split at hact
    · cases hact
    · obtain ⟨out, hmove, heq⟩ := map_eq_some_iff.mp hact
      cases heq
      exact ⟨moveAct_known hv h hplan hmove rfl, moveAct_later hmove, moveAct_valid hv hmove⟩

theorem mem_tagging {x : Tagging} (hx : x ∈ call.tagging t reply image) :
    x.image = image ∧ ∃ r tag, call = .upsertTagGuarded r tag x.digest := by
  unfold RegistryCall.tagging at hx
  split at hx
  · cases hx
  · obtain ⟨row, hrow, rfl⟩ := mem_map.mp hx
    refine ⟨rfl, ?_⟩
    have hwrites : call.writes t = some row := mem_toList.mp hrow
    unfold RegistryCall.writes at hwrites
    split at hwrites
    · rename_i r tag d
      split at hwrites
      · cases hwrites
      · split at hwrites <;> cases hwrites
        exact ⟨r, tag, by rw [Tables.pushedTag_manifestDigest]⟩
    · cases hwrites

theorem movingAct_pushed {reply : MoveReply} (h : MoveKnown s f m)
    (hact : movingAct localeCompare children s i f m reply = some (s', m')) :
    (∀ x ∈ s'.pushed, x ∈ s.pushed ∨ ∀ j, x.image = some j → j = i ∧ m.resolved = some x.digest) ∧
        ∀ d, m.resolved = some d → m'.resolved = some d := by
  unfold movingAct at hact
  split at hact
  · split at hact
    · cases hact
    · cases hact
      exact ⟨fun x hx => .inl hx, fun d hd => hd⟩
    · cases hact
      exact ⟨fun x hx => .inl hx, fun d hd => goTo_resolved hd⟩
    · obtain ⟨out, -, heq⟩ := map_eq_some_iff.mp hact
      cases heq
      exact ⟨fun x hx => .inl hx, fun d hd => goTo_resolved hd⟩
  · split at hact
    · cases hact
    · obtain ⟨out, -, heq⟩ := map_eq_some_iff.mp hact
      cases heq
      refine ⟨fun x hx => ?_, fun d hd => goTo_resolved hd⟩
      rcases mem_append.mp hx with hx | hx
      · exact .inl hx
      · refine .inr fun j hj => ?_
        cases hcall : m.pc.call with
        | none =>
          rw [hcall] at hx
          cases hx
        | some call =>
          rw [hcall] at hx
          obtain ⟨himage, r, tag, rfl⟩ := mem_tagging hx
          rw [hj] at himage
          split at himage
          · rename_i hpushes
            refine ⟨Option.some.inj himage, ?_⟩
            unfold MovePc.pushesImage at hpushes
            split at hpushes
            · rename_i src slug name r' tag' d todo hpc
              have hd := of_decide_eq_true hpushes
              rw [hpc] at hcall
              cases hcall
              rw [hd]
              exact h.resolved src (by rw [hpc]; rfl)
            · cases hpushes
          · cases himage

end known

/-! ## Runs -/

section runs

variable {localeCompare : String → String → Ordering} {children : Digest → List Digest}
  {p p' : Pool MoveState MoveTask}

def TaskKnown (s : MoveState) (_ : Nat) (t : MoveTask) : Prop :=
  ∀ f m, t = .move f m → MoveKnown s f m

variable {s : MoveState}

theorem imageMoveAct_known {s' : MoveState} {t t' : MoveTask} {reply : MoveReply}
    (hv : s.tables.Valid) (h : TaskKnown s i t)
    (hact : imageMoveAct localeCompare children s i t reply = some (s', t')) :
    TaskKnown s' i t' ∧ Later s s' ∧ s'.tables.Valid := by
  cases t with
  | move f m =>
    obtain ⟨out, hmove, heq⟩ := map_eq_some_iff.mp hact
    cases heq
    obtain ⟨hknown, hlater, hv'⟩ := movingAct_known hv (h f m rfl) hmove
    refine ⟨fun f' m' heq => ?_, hlater, hv'⟩
    cases heq
    exact hknown
  | client call =>
    simp only [imageMoveAct] at hact
    split at hact
    · cases hact
    · obtain ⟨out, hcall, heq⟩ := map_eq_some_iff.mp hact
      cases heq
      have hchange := registryAct_change hcall
      exact ⟨(fun f m heq => by cases heq), ⟨registryChange_steady hchange, _, rfl⟩,
        registryChange_valid hv hchange⟩

theorem move_fresh {t : MoveTask} (h : t.fresh = true) : TaskKnown s i t := by
  intro f m ht
  subst ht
  have hm : m = { pc := .sourceRepository } := of_decide_eq_true h
  subst hm
  exact ⟨(fun _ hsrc => by cases hsrc), rfl⟩

theorem imageMoveOutline (localeCompare : String → String → Ordering)
    (children : Digest → List Digest) :
    (imageMoveProgram localeCompare children).Outline (fun _ _ => True)
      (fun s => s.tables.Valid) TaskKnown where
  init := fun s h => h.1
  spawn := fun p t _ _ hfresh => move_fresh hfresh
  act := fun p i a t s' t' hp _ ht hact => by
    obtain ⟨hknown, -, hv⟩ := imageMoveAct_known hp.shared (hp.tasks i t ht) hact
    exact ⟨hv, hknown⟩
  interfere := fun p i a t s' t' hp _ ht hact j q _ hq f m heq => by
    obtain ⟨-, hlater, -⟩ := imageMoveAct_known hp.shared (hp.tasks i t ht) hact
    exact (hp.tasks j q hq f m heq).later hlater
  env := fun p now s' hp _ henv => by
    cases henv
    refine ⟨hp.shared.ofTags rfl rfl rfl hp.shared.tagNames, fun j q hq f m heq => ?_⟩
    exact (hp.tasks j q hq f m heq).later ⟨⟨rfl, [], (append_nil _).symm⟩, [], (append_nil _).symm⟩

def ImagesResolved (p : Pool MoveState MoveTask) : Prop :=
  ∀ x ∈ p.shared.pushed, ∀ j, x.image = some j →
    ∃ f m, p.tasks[j]? = some (.move f m) ∧ m.resolved = some x.digest

theorem ImagesResolved.step (h : ImagesResolved p)
    (hknown : Program.Holds (fun s => s.tables.Valid) TaskKnown p)
    {a : Move MoveTask MoveReply Time}
    (hstep : (imageMoveProgram localeCompare children).step p a = some p') :
    ImagesResolved p' := by
  rcases Program.step_cases hstep with ⟨t, rfl, -, rfl⟩ | ⟨i, reply, t, s', t', rfl, ht, hact, rfl⟩ |
      ⟨now, s', rfl, henv, rfl⟩
  · intro x hx j hj
    obtain ⟨f, m, hm, hresolved⟩ := h x hx j hj
    have hlt := (List.getElem?_eq_some_iff.mp hm).1
    exact ⟨f, m, by rw [getElem?_append_left hlt]; exact hm, hresolved⟩
  · have hlt := (List.getElem?_eq_some_iff.mp ht).1
    -- a task that was there keeps what it resolved
    have hkept {x : Tagging} {j : Nat} (hx : x ∈ p.shared.pushed) (hj : x.image = some j)
        (hown : ∀ f m, t = .move f m → ∃ m', t' = .move f m' ∧
          ∀ d, m.resolved = some d → m'.resolved = some d) :
        ∃ f m, (p.tasks.set i t')[j]? = some (.move f m) ∧ m.resolved = some x.digest := by
      obtain ⟨f, m, hm, hresolved⟩ := h x hx j hj
      by_cases hji : j = i
      · subst hji
        rw [ht] at hm
        obtain ⟨m', rfl, hm'⟩ := hown f m (Option.some.inj hm)
        exact ⟨f, m', getElem?_set_self hlt, hm' _ hresolved⟩
      · exact ⟨f, m, by rw [getElem?_set_ne (Ne.symm hji)]; exact hm, hresolved⟩
    intro x hx j hj
    cases t with
    | move f m =>
      obtain ⟨out, hmove, heq⟩ := map_eq_some_iff.mp hact
      cases heq
      obtain ⟨hpushed, hresolved⟩ := movingAct_pushed (hknown.tasks i _ ht f m rfl) hmove
      rcases hpushed x hx with hold | hnew
      · refine hkept hold hj fun f' m' heq => ?_
        cases heq
        exact ⟨out.2, rfl, hresolved⟩
      · obtain ⟨rfl, hd⟩ := hnew j hj
        exact ⟨f, out.2, getElem?_set_self hlt, hresolved _ hd⟩
    | client call =>
      have hact' : imageMoveAct localeCompare children p.shared i (.client call) reply =
        some (s', t') := hact
      simp only [imageMoveAct] at hact'
      split at hact'
      · cases hact'
      · obtain ⟨out, -, heq⟩ := map_eq_some_iff.mp hact'
        cases heq
        rcases mem_append.mp hx with hold | hnew
        · exact hkept hold hj fun f m heq => by cases heq
        · obtain ⟨himage, -⟩ := mem_tagging hnew
          rw [hj] at himage
          cases himage
  · cases henv
    exact h

theorem images_resolved (hreach : (imageMoveMachine localeCompare children).Reachable p) :
    ImagesResolved p := by
  induction hreach with
  | init hinit =>
    intro x hx
    rw [hinit.1.2] at hx
    cases hx
  | step hreach _ hstep ih =>
    exact ih.step ((imageMoveOutline localeCompare children).run hreach) hstep

end runs

/-- **An image move loses nothing** where the source tag, when it is removed, still names the
digest that was resolved, or one that came to the destination tag otherwise; and nowhere
else. -/
theorem move_loses_nothing {localeCompare : String → String → Ordering}
    {children : Digest → List Digest} {p : Pool MoveState MoveTask}
    (hreach : (imageMoveMachine localeCompare children).Reachable p) :
    LosesNothing localeCompare children p ↔ SourceUnmoved localeCompare children p := by
  have hknown := (imageMoveOutline localeCompare children).run hreach
  constructor
  · intro h i f m d hremoves
    obtain ⟨r, hr, x, hx, hat⟩ := h i f m d hremoves
    by_cases himage : x.image = some i
    · obtain ⟨f', m', hm', hresolved⟩ := images_resolved hreach x hx i himage
      rw [hremoves.task] at hm'
      cases hm'
      rw [hat.2.2] at hresolved
      exact .inl hresolved
    · exact .inr ⟨r, hr, x, hx, hat, himage⟩
  · intro h i f m d hremoves
    rcases h i f m d hremoves with hresolved | ⟨r, hr, x, hx, hat, -⟩
    · obtain ⟨pc, hpc⟩ := hremoves.deleting
      have hstage := (hknown.tasks i _ hremoves.task f m rfl).stage
      unfold MoveStage at hstage
      rw [hpc] at hstage
      obtain ⟨d', hd', hpushed⟩ := hstage
      rw [hresolved] at hd'
      cases hd'
      exact hpushed
    · exact ⟨r, hr, x, hx, hat⟩

/-- `v1` of the repository is to become `moved`. -/
def renameV1 : MoveForm := ⟨"r1", "v1", "o1", "app", "moved", true⟩

/-- The statements of the move, up to the one that removes `v1`. -/
def moveV1 : List (Move MoveTask MoveReply Time) :=
  .spawn (.move renameV1 { pc := .sourceRepository }) ::
    (List.replicate 12 (.act 0 (.statement .ok)) ++ .act 0 (.artifacts []) ::
      List.replicate 8 (.act 0 (.statement .ok)) ++
        [.act 0 (.statement (.query 0)), .act 0 (.statement (.query 1)),
          .act 0 (.statement (.query 2))] ++ List.replicate 4 (.act 0 (.statement .ok)))

/-- Before that, a client points a tag at another image. -/
def pushTagBetween (tag : String) : List (Move MoveTask MoveReply Time) :=
  moveV1 ++ .spawn (.client (.resolve "acme" "app" (.put (some tag) ⟨"d3", none, []⟩))) ::
    List.replicate 4 (.act 1 (.statement .ok))

def MoveTask.isClient : MoveTask → Bool
  | .client _ => true
  | _ => false

/-- What is seen of a state in which the move may remove `v1`. -/
structure MoveView where
  clients : Bool
  named : Option Digest
  resolved : Option Digest
  pushed : List Tagging
  destination : Option Repository
deriving DecidableEq

def moveView (p : Pool MoveState MoveTask) : Option MoveView :=
  match (p.tasks[0]? : Option MoveTask) with
  | some (.move f ⟨.deleteTag _, _, resolved⟩) =>
    if f = renameV1 ∧ (((imageMoveProgram compare fun _ => []).step p
        (.act 0 (.statement .ok))).map fun p' => p'.shared.tables.resolveTag "r1" "v1") =
          some none then
      some
        { clients := p.tasks.tail.all MoveTask.isClient
          named := p.shared.tables.resolveTag "r1" "v1"
          resolved := resolved
          pushed := p.shared.pushed
          destination := p.shared.destination renameV1 }
    else none
  | _ => none

theorem removes_of_view {p : Pool MoveState MoveTask} {v : MoveView} {d : Digest}
    (h : moveView p = some v) (hd : v.named = some d) :
    ∃ m, RemovesSource compare (fun _ => []) p 0 renameV1 m d ∧ m.resolved = v.resolved ∧
      v = ⟨p.tasks.tail.all MoveTask.isClient, p.shared.tables.resolveTag "r1" "v1", m.resolved,
        p.shared.pushed, p.shared.destination renameV1⟩ := by
  unfold moveView at h
  split at h
  · rename_i f pc plan resolved ht
    split at h
    · rename_i hgone
      obtain ⟨rfl, hgone⟩ := hgone
      obtain ⟨p', hstep, hnone⟩ := map_eq_some_iff.mp hgone
      cases h
      exact ⟨_, ⟨ht, ⟨pc, rfl⟩, hd, .statement .ok, p', hstep, hnone⟩, rfl, rfl⟩
    · cases h
  · cases h

theorem taggedApp_move_init :
    (imageMoveMachine compare fun _ => []).init ⟨⟨taggedApp "v2", []⟩, []⟩ :=
  ⟨⟨(taggedApp_init compare "v2" (by decide)).1.1, rfl⟩, rfl⟩

/-- Another tag is pushed before the move removes `v1`. -/
theorem move_loses_nothing_pushed : ∃ p m, (imageMoveMachine compare fun _ => []).Reachable p ∧
      RemovesSource compare (fun _ => []) p 0 renameV1 m "d1" ∧
        LosesNothing compare (fun _ => []) p := by
  have hfacts : ((imageMoveMachine compare fun _ => []).replay (fun _ _ => True)
      ⟨⟨taggedApp "v2", []⟩, []⟩ (pushTagBetween "v2")).map moveView = some (some ⟨true, some "d1",
          some "d1", [⟨"r1", "moved", "d1", some 0⟩, ⟨"r1", "v2", "d3", none⟩],
          some ⟨"r1", "o1", "app", .«private»⟩⟩) := by
    decide +kernel
  obtain ⟨p, hp, hview⟩ := map_eq_some_iff.mp hfacts
  have hreach := Machine.run_of_replay (M := imageMoveMachine compare fun _ => [])
    taggedApp_move_init hp
  obtain ⟨m, hremoves, hresolved, hv⟩ := removes_of_view hview rfl
  have hclients : true = p.tasks.tail.all MoveTask.isClient := congrArg MoveView.clients hv
  refine ⟨p, m, hreach, hremoves, (move_loses_nothing hreach).mpr ?_⟩
  intro i f m' d hremoves'
  cases i with
  | zero =>
    cases hremoves.task.symm.trans hremoves'.task
    cases hremoves.named.symm.trans hremoves'.named
    exact .inl hresolved
  | succ i =>
    have htail : p.tasks.tail[i]? = some (.move f m') := getElem?_tail.trans hremoves'.task
    cases all_eq_true.mp hclients.symm _ (mem_of_getElem? htail)

/-- A push between the two is lost: `v1` is removed and nothing of it was copied. -/
theorem move_loses_push : ¬ ∀ p, (imageMoveMachine compare fun _ => []).Reachable p →
      LosesNothing compare (fun _ => []) p := by
  intro hall
  have hfacts : ((imageMoveMachine compare fun _ => []).replay (fun _ _ => True)
      ⟨⟨taggedApp "v2", []⟩, []⟩ (pushTagBetween "v1")).map moveView = some (some ⟨true, some "d3",
          some "d1", [⟨"r1", "moved", "d1", some 0⟩, ⟨"r1", "v1", "d3", none⟩],
          some ⟨"r1", "o1", "app", .«private»⟩⟩) := by
    decide +kernel
  obtain ⟨p, hp, hview⟩ := map_eq_some_iff.mp hfacts
  have hreach := Machine.run_of_replay (M := imageMoveMachine compare fun _ => [])
    taggedApp_move_init hp
  obtain ⟨m, hremoves, -, hv⟩ := removes_of_view hview rfl
  obtain ⟨r, -, x, hx, -, htag, hdigest⟩ := hall p hreach 0 renameV1 m "d3" hremoves
  have hpushed := congrArg MoveView.pushed hv
  rw [← show _ = p.shared.pushed from hpushed] at hx
  rcases mem_cons.mp hx with rfl | hx
  · exact absurd hdigest (by decide)
  · cases mem_singleton.mp hx
    exact absurd htag (by decide)

end Chicoree.Images
