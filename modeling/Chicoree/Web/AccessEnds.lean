import Chicoree.Web.Access

/-! # Access ends with the membership

Every removal but the app's has to find nothing to delete: then, whatever the order of
the handlers' statements, no seat or grant outlives its membership unless a clean-up is
on its way to it. -/

namespace Chicoree.Web

open Option (any_some map_eq_some_iff map_some)
open Transition List Tables Access

/-! ## Rows in hand -/

section runs

variable {generatedFor : Id → Id × Id}

def AccessTask.inHand : AccessTask → Option Member
  | .removeMember _ (.delete m) | .removeMember _ (.drop m _) => some m
  | .memberDelete _ (.ownerCount m) | .memberDelete _ (.delete m) => some m
  | .syncGroupBindings _ _ (.lastOwner m) | .syncGroupBindings _ _ (.update m)
  | .syncGroupBindings _ _ (.delete m) => some m
  | _ => none

/-- The identifier was generated for this membership. -/
def Member.Named (generatedFor : Id → Id × Id) (m : Member) : Prop :=
  generatedFor m.id = (m.organizationId, m.userId)

variable {t : Tables}

theorem Tables.membership_mem {o u : Id} {m : Member}
    (h : t.membership o u = some m) : m ∈ t.members :=
  (Table.find_some h).1

variable {b : StepReply} {t' : Tables}

theorem accessAct_inHand {i : Nat} {q q' : AccessTask}
    (h : accessAct generatedFor t i q b = some (t', q')) {m : Member} (hm : q'.inHand = some m) :
    q.inHand = some m ∨ m ∈ t.members := by
  cases q with
  | removeMember rq pc =>
    obtain ⟨⟨t'', pc'⟩, hout, h⟩ := map_eq_some_iff.mp h
    cases h
    unfold removeMember at hout
    split at hout
    -- elsewhere nothing is in hand
    any_goals solve | cases hout <;> cases hm
    · split at hout
      · rename_i x hx
        cases hout
        cases hm
        exact .inr (mem_of_find?_eq_some hx)
      · cases hout
        cases hm
    · cases hout
      cases hm
      exact .inl rfl
    · obtain ⟨out, -, hout⟩ := map_eq_some_iff.mp hout
      cases hout
      split at hm
      · cases hm
      · cases hm
        exact .inl rfl
  | memberDelete rq pc =>
    obtain ⟨⟨t'', pc'⟩, hout, h⟩ := map_eq_some_iff.mp h
    cases h
    unfold memberDeleteStep at hout
    split at hout
    any_goals solve | cases hout <;> cases hm
    · split at hout <;> cases hout <;> cases hm
    · split at hout
      · cases hout
        cases hm
      · rename_i x hx
        cases hout
        have hmem : x ∈ t.members := (found_where hx).1
        split at hm <;> cases hm <;> exact .inr hmem
    · split at hout <;> cases hout
      · cases hm
      · cases hm
        exact .inl rfl
  | syncGroupBindings u todo pc =>
    obtain ⟨⟨t'', todo', pc'⟩, hout, h⟩ := map_eq_some_iff.mp h
    cases h
    unfold syncGroupBindings at hout
    split at hout
    any_goals solve | cases hout <;> cases hm
    · split at hout
      · cases hout
        cases hm
      · rename_i x hx
        have hmem := membership_mem hx
        split at hout <;> cases hout
        · cases hm
        · split at hm <;> cases hm <;> exact .inr hmem
      · rename_i x hx
        have hmem := membership_mem hx
        cases hout
        split at hm <;> cases hm <;> exact .inr hmem
      · cases hout
        cases hm
    · split at hout <;> cases hout
      cases hm
    · split at hout <;> cases hout
      · cases hm
      · split at hm <;> cases hm <;> exact .inl rfl
  | addTeamMember rq pc | setRepoGrant rq pc | moveRepository rq pc =>
    obtain ⟨out, -, h⟩ := map_eq_some_iff.mp h
    cases h
    cases hm

theorem Tables.dropMember_members {id : Id} {x : Member}
    (h : x ∈ (t.dropMember id).members) : x ∈ t.members :=
  mem_of_mem_filter h

theorem Member.named_of_setRole {t : Tables} {id : Id} {role : OrgRole} {x : Member}
    (hnamed : ∀ x ∈ t.members, x.Named generatedFor)
    (hx : x ∈ t.members.map fun y => if y.id = id then { y with role := role } else y) :
    x.Named generatedFor := by
  obtain ⟨y, hy, rfl⟩ := mem_map.mp hx
  split <;> exact hnamed y hy

theorem dropOrganizationAccess_members {o u : Id} {pc pc' : DropPc}
    (h : dropOrganizationAccess t o u pc b = some (t', pc')) :
    t'.members = t.members := by
  unfold dropOrganizationAccess at h
  split at h <;> cases h <;> rfl

/-! ### What each request's statement does -/

theorem removeMember_cases {rq : RemoveRequest} {pc pc' : RemovePc}
    (h : removeMember t rq pc b = some (t', pc')) :
    (t' = t ∧ ∀ m dpc, pc ≠ .drop m dpc) ∨
    (∃ m, pc = .delete m ∧ t' = t.dropMember m.id ∧ pc' = .drop m .teams) ∨
    ∃ m dpc dpc', pc = .drop m dpc ∧
      dropOrganizationAccess t m.organizationId m.userId dpc b = some (t', dpc') ∧
      pc' = if dpc' = .done then .done else .drop m dpc' := by
  cases pc with
  | drop m dpc =>
    obtain ⟨⟨t'', dpc'⟩, hdrop, hout⟩ := map_eq_some_iff.mp h
    cases hout
    exact .inr (.inr ⟨m, dpc, dpc', rfl, hdrop, rfl⟩)
  | delete m =>
    cases b <;> cases h
    · exact .inr (.inl ⟨m, rfl, rfl, rfl⟩)
    · exact .inl ⟨rfl, by simp⟩
  | find =>
    have ht : t' = t := by
      cases b <;> simp only [removeMember, reduceCtorEq] at h <;> grind
    exact .inl ⟨ht, by simp⟩
  | done => cases b <;> cases h

theorem memberDeleteStep_cases {rq : MemberDeleteRequest} {pc pc' : MemberDeletePc}
    (h : memberDeleteStep t rq pc b = some (t', pc')) :
    t' = t ∨ ∃ m, pc = .delete m ∧ b = .ok ∧ t' = t.dropMember m.id := by
  by_cases hlast : ∃ m, pc = .delete m ∧ b = .ok
  · obtain ⟨m, rfl, rfl⟩ := hlast
    cases h
    exact .inr ⟨m, rfl, rfl, rfl⟩
  · refine .inl ?_
    unfold memberDeleteStep at h
    grind

theorem syncGroupBindings_cases {u : Id} {todo todo' : Bindings} {pc pc' : BindingPc}
    (h : syncGroupBindings generatedFor t u todo pc b = some (t', todo', pc')) :
    t' = t ∨
    (∃ m, m.Named generatedFor ∧ t' = { t with members := t.members ++ [m] }) ∨
    (∃ id role, t' = { t with members := t.members.map fun x =>
      if x.id = id then { x with role := role } else x }) ∨
    ∃ m, pc = .delete m ∧ b = .ok ∧ t' = t.dropMember m.id := by
  unfold syncGroupBindings at h
  split at h
  · cases h
  · cases h
    exact .inl rfl
  · repeat' split at h
    all_goals
      cases h
      exact .inl rfl
  · cases h
    exact .inl rfl
  · cases h
    exact .inl rfl
  · split at h
    · cases h
    · rename_i hid
      cases h
      simp only [Bool.or_eq_true, decide_eq_true_eq, not_or, not_not] at hid
      exact .inr (.inl ⟨⟨_, _, u, _⟩, hid.2, rfl⟩)
  · split at h <;> cases h <;> exact .inl rfl
  · cases h
    exact .inr (.inr (.inl ⟨_, _, rfl⟩))
  · cases h
    exact .inr (.inr (.inr ⟨_, rfl, rfl, rfl⟩))
  · cases h

theorem addTeamMember_cases {rq : SeatRequest} {pc pc' : SeatPc}
    (h : addTeamMember t rq pc b = some (t', pc')) :
    t' = t ∨ ∃ team, pc = .insert team ∧ b = .ok ∧
      t' = { t with teamMembers := Table.insertNew id ⟨team.id, rq.userId⟩ t.teamMembers } := by
  by_cases hlast : ∃ team, pc = .insert team ∧ b = .ok
  · obtain ⟨team, rfl, rfl⟩ := hlast
    simp only [addTeamMember] at h
    split at h <;> cases h
    · exact .inr ⟨team, rfl, rfl, rfl⟩
    · exact .inl rfl
  · refine .inl ?_
    unfold addTeamMember at h
    grind

theorem setRepoGrant_cases {rq : GrantRequest} {pc pc' : GrantPc}
    (h : setRepoGrant t rq pc b = some (t', pc')) :
    t' = t ∨ ∃ r, pc = .insert r ∧ b = .ok ∧ t' = { t with
        repositoryGrants := Table.upsert RepositoryGrant.key (rq.grant r) t.repositoryGrants } := by
  by_cases hlast : ∃ r, pc = .insert r ∧ b = .ok
  · obtain ⟨r, rfl, rfl⟩ := hlast
    simp only [setRepoGrant] at h
    split at h <;> cases h
    · exact .inr ⟨r, rfl, rfl, rfl⟩
    · exact .inl rfl
  · refine .inl ?_
    unfold setRepoGrant at h
    grind

theorem moveRepository_cases {rq : MoveRequest} {pc pc' : MovePc}
    (h : moveRepositoryToOrganization t rq pc b = some (t', pc')) :
    t' = t ∨ ∃ r, pc = .transaction r ∧ b = .ok ∧
      t' = t.moveRepository r.id rq.targetOrganizationId := by
  by_cases hlast : ∃ r, pc = .transaction r ∧ b = .ok
  · obtain ⟨r, rfl, rfl⟩ := hlast
    simp only [moveRepositoryToOrganization] at h
    split at h <;> cases h
    · exact .inl rfl
    · exact .inr ⟨r, rfl, rfl, rfl⟩
  · refine .inl ?_
    unfold moveRepositoryToOrganization at h
    grind

theorem accessAct_named {i : Nat} {q q' : AccessTask}
    (hnamed : ∀ x ∈ t.members, x.Named generatedFor)
    (h : accessAct generatedFor t i q b = some (t', q')) :
    ∀ x ∈ t'.members, x.Named generatedFor := by
  have hdrop {id : Id} : ∀ x ∈ (t.dropMember id).members, x.Named generatedFor :=
    fun x hx => hnamed x (dropMember_members hx)
  cases q with
  | removeMember rq pc =>
    obtain ⟨⟨t'', pc'⟩, hout, h⟩ := map_eq_some_iff.mp h
    cases h
    rcases removeMember_cases hout with ⟨rfl, -⟩ | ⟨m, -, rfl, -⟩ | ⟨m, dpc, dpc', -, hout, -⟩
    · exact hnamed
    · exact hdrop
    · rw [dropOrganizationAccess_members hout]
      exact hnamed
  | memberDelete rq pc =>
    obtain ⟨⟨t'', pc'⟩, hout, h⟩ := map_eq_some_iff.mp h
    cases h
    rcases memberDeleteStep_cases hout with rfl | ⟨m, -, -, rfl⟩
    · exact hnamed
    · exact hdrop
  | syncGroupBindings u todo pc =>
    obtain ⟨⟨t'', todo', pc'⟩, hout, h⟩ := map_eq_some_iff.mp h
    cases h
    rcases syncGroupBindings_cases hout with rfl | ⟨m, hm, rfl⟩ | ⟨id, role, rfl⟩ |
      ⟨m, -, -, rfl⟩
    · exact hnamed
    · intro x hx
      rcases mem_append.mp hx with hx | hx
      · exact hnamed x hx
      · exact mem_singleton.mp hx ▸ hm
    · exact fun x hx => Member.named_of_setRole hnamed hx
    · exact hdrop
  | addTeamMember rq pc =>
    obtain ⟨⟨t'', pc'⟩, hout, h⟩ := map_eq_some_iff.mp h
    cases h
    rcases addTeamMember_cases hout with rfl | ⟨team, -, -, rfl⟩ <;> exact hnamed
  | setRepoGrant rq pc =>
    obtain ⟨⟨t'', pc'⟩, hout, h⟩ := map_eq_some_iff.mp h
    cases h
    rcases setRepoGrant_cases hout with rfl | ⟨r, -, -, rfl⟩ <;> exact hnamed
  | moveRepository rq pc =>
    obtain ⟨⟨t'', pc'⟩, hout, h⟩ := map_eq_some_iff.mp h
    cases h
    rcases moveRepository_cases hout with rfl | ⟨r, -, -, rfl⟩ <;> exact hnamed

theorem accessEnv_named {e : AccessEvent} (hnamed : ∀ x ∈ t.members, x.Named generatedFor)
    (h : accessEnv generatedFor t e = some t') : ∀ x ∈ t'.members, x.Named generatedFor := by
  cases e with
  | join m =>
    simp only [accessEnv] at h
    split at h
    · cases h
    · rename_i hid
      cases h
      simp only [Bool.or_eq_true, decide_eq_true_eq, not_or, not_not] at hid
      intro x hx
      rcases mem_append.mp hx with hx | hx
      · exact hnamed x hx
      · exact mem_singleton.mp hx ▸ hid.2
  | setRole id role =>
    cases h
    exact fun x hx => Member.named_of_setRole hnamed hx
  | adminRemoveMember m =>
    simp only [accessEnv] at h
    split at h
    · cases h
      exact fun x hx => hnamed x (dropMember_members hx)
    · cases h
  | createTeam team | createRepository r =>
    simp only [accessEnv] at h
    split at h <;> cases h
    exact hnamed
  | deleteTeam id | deleteRepository id | removeTeamMember seat
  | removeRepoGrant r subjectType subjectId =>
    cases h
    exact hnamed

theorem namedOutline {C : Pool Tables AccessTask → Move AccessTask StepReply AccessEvent → Prop} :
    (accessProgram generatedFor).Outline C (fun t => ∀ x ∈ t.members, x.Named generatedFor)
      (fun _ _ q => ∀ m, q.inHand = some m → m.Named generatedFor) where
  init t h := h.members
  spawn p q _ _ hf m hm := by
    unfold AccessTask.inHand at hm
    split at hm <;> simp [accessProgram, AccessTask.fresh] at hf
    cases hm
  act p i b q t' q' h _ hq ha := by
    refine ⟨accessAct_named (i := i) h.shared ha, fun m hm => ?_⟩
    rcases accessAct_inHand (i := i) ha hm with hold | hmem
    · exact h.tasks i q hq m hold
    · exact h.shared m hmem
  interfere p i b q t' q' h _ _ _ j q₂ _ hq₂ := h.tasks j q₂ hq₂
  env p e t' h _ he := ⟨accessEnv_named h.shared he, h.tasks⟩

/-! ## Runs -/

section settle

variable {p : Pool Tables AccessTask} {i : Nat} {q : AccessTask} {t' : Tables} {a : Access}
  (hcarried : Program.Carried Outlived (fun t q a => q.drops t a = true) p)
  (hq : p.tasks[i]? = some q)
include hcarried hq

theorem carriedByOther (hnone : q.drops p.shared a = false) (ha : Outlived p.shared a)
    (hplace : ∀ o, a.place p.shared = some o → a.place t' = some o) :
    Program.CarriedByOther (fun t q a => q.drops t a = true) p.tasks i t' a := by
  rcases hcarried.cases hq ha with hdrops | hother
  · rw [hnone] at hdrops
    cases hdrops
  · exact hother.mono fun q' hdrops => AccessTask.drops_mono hplace hdrops

/-- Somebody who is handed out access is a member, or still to be cleaned up after. -/
theorem carriedByOther_of_mayHold {new : Access} (hnone : q.drops p.shared a = false)
    (hmay : mayHold p new = true) (ha : Outlived p.shared a ∨
      (a = new ∧ new.current p.shared = false))
    (hplace : ∀ o, a.place p.shared = some o → a.place t' = some o) :
    Program.CarriedByOther (fun t q a => q.drops t a = true) p.tasks i t' a := by
  rcases ha with hold | ⟨rfl, hcur⟩
  · exact carriedByOther hcarried hq hnone hold hplace
  · simp only [mayHold, Bool.or_eq_true, any_eq_true] at hmay
    rcases hmay with hmember | ⟨q', hq', hdrops⟩
    · rw [hcur] at hmember
      cases hmember
    · obtain ⟨j, hj⟩ := mem_iff_getElem?.mp hq'
      refine ⟨j, q', fun hji => ?_, hj, AccessTask.drops_mono hplace hdrops⟩
      subst hji
      rw [hq] at hj
      cases hj
      rw [hnone] at hdrops
      cases hdrops

end settle

theorem Access.place_dropMember {id : Id} (a : Access) : a.place (t.dropMember id) = a.place t := by
  cases a <;> rfl

theorem accessSettles (generatedFor : Id → Id × Id) :
    (accessProgram generatedFor).Settles EndsAccess Outlived
      (fun t q a => q.drops t a = true) where
  init t h a ha := by
    obtain ⟨hheld, hcur⟩ := ha
    cases a with
    | seat x =>
      obtain ⟨team, hteam, hid, hmember⟩ := h.ofMembers.seats x (mem_access_seat.mp hheld)
      have hplace : (seat x).place t = some team.organizationId := by
        simp only [place, ← hid, h.teams.find_self hteam, map_some]
      simp only [current, hplace, any_some] at hcur
      exact absurd hcur (by rw [holder, isMember_iff.mpr hmember]; simp)
    | grant g =>
      obtain ⟨hg, hu⟩ := mem_access_grant.mp hheld
      obtain ⟨r, hr, hid, hmember⟩ := h.ofMembers.grants g hg hu
      have hplace : (grant g).place t = some r.organizationId := by
        simp only [place, ← hid, h.repositories.find_self hr, map_some]
      simp only [current, hplace, any_some] at hcur
      exact absurd hcur (by rw [holder, isMember_iff.mpr hmember]; simp)
  act p i b q t' q' hrun hcarried hc hq hact a ha := by
    have hholds := namedOutline.run hrun
    have hnamed := hholds.shared
    have hhand := hholds.tasks i q hq
    cases q with
    | removeMember rq pc =>
      obtain ⟨⟨t'', pc'⟩, hout, hact⟩ := map_eq_some_iff.mp hact
      cases hact
      rcases removeMember_cases hout with ⟨rfl, hpc⟩ | ⟨m, rfl, rfl, rfl⟩ |
        ⟨m, dpc, dpc', rfl, hdrop, rfl⟩
      · refine .inr (carriedByOther hcarried hq ?_ ha fun o h => h)
        cases pc with
        | drop m dpc => exact absurd rfl (hpc m dpc)
        | _ => rfl
      · rcases ha.of_dropMember hnamed (hhand m rfl) with hold | ⟨hplace, hholder⟩
        · exact .inr (carriedByOther hcarried hq rfl hold fun o h => h)
        · -- the hook's clean-up has everything still to do
          refine .inl ?_
          simp [AccessTask.drops, DropPc.drops, hholder, place_dropMember, hplace]
      · have hquiet := dropOrganizationAccess_quiet hdrop
        have hold := hquiet.outlived ha
        rcases hcarried.cases hq hold with hdrops | hother
        · by_cases hb : b = .failed
          · -- the clean-up may not fail over this
            subst hb
            simp only [EndsAccess, endsAccess, hq, all_eq_true, Bool.or_eq_true,
              Bool.not_eq_true'] at hc
            rcases hc a hold.1 with hnone | hcur
            · rw [show dpc.drops p.shared m.organizationId m.userId a = true from hdrops]
                at hnone
              cases hnone
            · rw [hold.2] at hcur
              cases hcur
          · have hstill := dropOrganizationAccess_drops hdrop hb ha.1 hdrops
            refine .inl ?_
            by_cases hdone : dpc' = .done
            · subst hdone
              simp [DropPc.drops] at hstill
            · simpa [AccessTask.drops, hdone] using hstill
        · exact .inr (hother.mono fun q' h =>
            AccessTask.drops_mono (hquiet.place a ha.1) h)
    | memberDelete rq pc =>
      obtain ⟨⟨t'', pc'⟩, hout, hact⟩ := map_eq_some_iff.mp hact
      cases hact
      rcases memberDeleteStep_cases hout with rfl | ⟨m, rfl, rfl, rfl⟩
      · exact .inr (carriedByOther hcarried hq rfl ha fun o h => h)
      · simp only [EndsAccess, endsAccess, hq] at hc
        exact .inr (carriedByOther hcarried hq rfl
          (ha.of_leavesNothing hnamed (hhand m rfl) hc) fun o h => h)
    | syncGroupBindings u todo pc =>
      obtain ⟨⟨t'', todo', pc'⟩, hout, hact⟩ := map_eq_some_iff.mp hact
      cases hact
      rcases syncGroupBindings_cases hout with rfl | ⟨m, -, rfl⟩ | ⟨id, role, rfl⟩ |
        ⟨m, rfl, rfl, rfl⟩
      · exact .inr (carriedByOther hcarried hq rfl ha fun o h => h)
      · have hquiet := Quiet.join (t := p.shared) m
        exact .inr (carriedByOther hcarried hq rfl (hquiet.outlived ha) (hquiet.place a ha.1))
      · have hquiet := Quiet.setRole (t := p.shared) id role
        exact .inr (carriedByOther hcarried hq rfl (hquiet.outlived ha) (hquiet.place a ha.1))
      · simp only [EndsAccess, endsAccess, hq] at hc
        exact .inr (carriedByOther hcarried hq rfl
          (ha.of_leavesNothing hnamed (hhand m rfl) hc)
          fun o h => (place_dropMember a).trans h)
    | addTeamMember rq pc =>
      obtain ⟨⟨t'', pc'⟩, hout, hact⟩ := map_eq_some_iff.mp hact
      cases hact
      rcases addTeamMember_cases hout with rfl | ⟨team, rfl, rfl, rfl⟩
      · exact .inr (carriedByOther hcarried hq rfl ha fun o h => h)
      · simp only [EndsAccess, endsAccess, hq] at hc
        have hplace (x : Access) : x.place { p.shared with
            teamMembers := Table.insertNew id ⟨team.id, rq.userId⟩ p.shared.teamMembers } =
              x.place p.shared := by
          cases x <;> rfl
        exact .inr (carriedByOther_of_mayHold hcarried hq rfl hc
          (Quiet.of_insert (fun x => mem_access_insertSeat) hplace (fun o u => rfl) ha)
          fun o h => (hplace a).trans h)
    | setRepoGrant rq pc =>
      obtain ⟨⟨t'', pc'⟩, hout, hact⟩ := map_eq_some_iff.mp hact
      cases hact
      rcases setRepoGrant_cases hout with rfl | ⟨r, rfl, rfl, rfl⟩
      · exact .inr (carriedByOther hcarried hq rfl ha fun o h => h)
      · simp only [EndsAccess, endsAccess, hq, Bool.or_eq_true, decide_eq_true_eq] at hc
        have hplace (x : Access) : x.place { p.shared with
            repositoryGrants := Table.upsert RepositoryGrant.key (rq.grant r)
              p.shared.repositoryGrants } = x.place p.shared := by
          cases x <;> rfl
        have hnew := Quiet.of_insert
          (fun x hx => (mem_access_upsertGrant hx).imp_right And.left) hplace
          (fun o u => rfl) ha
        rcases hc with hteam | hmay
        · -- a team's grant is nobody's seat
          rcases mem_access_upsertGrant ha.1 with hheld | ⟨-, hu⟩
          · rcases hnew with hold | ⟨rfl, hcur⟩
            · exact .inr (carriedByOther hcarried hq rfl hold fun o h => (hplace a).trans h)
            · exact .inr (carriedByOther hcarried hq rfl ⟨hheld, hcur⟩
                fun o h => (hplace _).trans h)
          · rw [show (rq.grant r).subjectType = rq.subjectType from rfl, hteam] at hu
            cases hu
        · exact .inr (carriedByOther_of_mayHold hcarried hq rfl hmay hnew
            fun o h => (hplace a).trans h)
    | moveRepository rq pc =>
      obtain ⟨⟨t'', pc'⟩, hout, hact⟩ := map_eq_some_iff.mp hact
      cases hact
      rcases moveRepository_cases hout with rfl | ⟨r, rfl, rfl, rfl⟩
      · exact .inr (carriedByOther hcarried hq rfl ha fun o h => h)
      · simp only [EndsAccess, endsAccess, hq, all_eq_true, Bool.or_eq_true,
          Bool.not_eq_true', decide_eq_false_iff_not] at hc
        obtain ⟨hold, hplace⟩ := ha.of_moveRepository fun g hg hid hu =>
          (hc g hg).resolve_left fun hne => hne ⟨hid, hu⟩
        exact .inr (carriedByOther hcarried hq rfl hold fun o h => hplace.trans h)
  env p e t' hrun hcarried hc he a ha := by
    by_cases hadmin : ∃ m, e = .adminRemoveMember m
    · obtain ⟨m, rfl⟩ := hadmin
      have hnamed := (namedOutline.run hrun).shared
      have he : accessEnv generatedFor p.shared (.adminRemoveMember m) = some t' := he
      simp only [accessEnv] at he
      split at he
      · rename_i hm
        cases he
        obtain ⟨q, hq, hdrops⟩ := hcarried a
          (ha.of_leavesNothing hnamed (hnamed m hm) hc)
        exact ⟨q, hq, AccessTask.drops_mono
          (fun o h => (place_dropMember a).trans h) hdrops⟩
      · cases he
    · obtain ⟨hold, hplace⟩ := accessEnv_quiet he fun m hm => hadmin ⟨m, hm⟩
      obtain ⟨q, hq, hdrops⟩ := hcarried a (hold a ha)
      exact ⟨q, hq, AccessTask.drops_mono (hplace a ha.1) hdrops⟩

def NothingRuns (p : Pool Tables AccessTask) : Prop :=
  ∀ q ∈ p.tasks, q.isDone = true

theorem AccessTask.drops_of_isDone {q : AccessTask} (h : q.isDone = true)
    (a : Access) : q.drops t a = false := by
  cases q with
  | removeMember rq pc =>
    cases pc with
    | drop m pc => cases h
    | _ => rfl
  | _ => rfl

theorem AccessOfMembers.of_current (h : ∀ a ∈ t.access, a.current t = true) :
    AccessOfMembers t where
  seats x hx := by
    have hcur := h (.seat x) (mem_access_seat.mpr hx)
    obtain ⟨o, hplace, hmember⟩ := current_iff.mp hcur
    obtain ⟨team, hteam, rfl⟩ := map_eq_some_iff.mp hplace
    obtain ⟨hmem, hid⟩ := Table.find_some hteam
    exact ⟨team, hmem, hid, isMember_iff.mp hmember⟩
  grants g hg hu := by
    have hcur := h (.grant g) (mem_access_grant.mpr ⟨hg, hu⟩)
    obtain ⟨o, hplace, hmember⟩ := current_iff.mp hcur
    obtain ⟨r, hr, rfl⟩ := map_eq_some_iff.mp hplace
    obtain ⟨hmem, hid⟩ := Table.find_some hr
    exact ⟨r, hmem, hid, isMember_iff.mp hmember⟩

/-- **Access ends with the membership.** In every run whose steps meet the condition, once
no handler is running every seat and every grant to a user is a current member's; and
who joins then has no seat or grant in the organization yet. -/
theorem access_ends_with_membership {p : Pool Tables AccessTask}
    (h : (accessProgram generatedFor).machine.Run EndsAccess p) (hdone : NothingRuns p) :
    AccessOfMembers p.shared ∧ ∀ m t', accessEnv generatedFor p.shared (.join m) = some t' →
        p.shared.isMember m.organizationId m.userId = false →
          ∀ a ∈ t'.access, a.holder = m.userId → a.place t' ≠ some m.organizationId := by
  have hcur : ∀ a ∈ p.shared.access, a.current p.shared = true := by
    intro a ha
    by_contra hnot
    obtain ⟨q, hq, hdrops⟩ := (accessSettles generatedFor).run h a
      ⟨ha, Bool.eq_false_iff.mpr hnot⟩
    rw [AccessTask.drops_of_isDone (hdone q hq)] at hdrops
    cases hdrops
  refine ⟨.of_current hcur, fun m t' hjoin hnew a ha hholder hplace => ?_⟩
  simp only [accessEnv] at hjoin
  split at hjoin
  · cases hjoin
  · cases hjoin
    have hplace' : a.place p.shared = some m.organizationId := by
      rw [← hplace]
      cases a <;> rfl
    have hmember := hcur a ha
    simp only [current, hplace', any_some, hholder, hnew] at hmember
    cases hmember

end runs

/-! ## Replayed runs -/

def acmeTeams : Tables where
  organizations := [acme]
  members := [⟨"m1", "o1", "ada", .owner⟩, ⟨"m2", "o1", "eve", .viewer⟩]
  repositories := [privateTools]
  users := [{ id := "ada", email := "ada@acme" }, { id := "eve", email := "eve@acme" }]
  teams := [{ id := "t1", organizationId := "o1", slug := "ops", name := "Ops" }]

def acmeMember (id : Id) : Id × Id :=
  if id = "m1" then ("o1", "ada") else ("o1", "eve")

theorem settledAcme : (accessProgram acmeMember).machine.init ⟨acmeTeams, []⟩ := by
  have hempty : AccessOfMembers acmeTeams := ⟨by simp [acmeTeams], by simp [acmeTeams]⟩
  exact ⟨⟨hempty, by decide, by decide, by decide⟩, rfl⟩

def statements (i n : Nat) : List (Move AccessTask StepReply AccessEvent) :=
  List.replicate n (.act i .ok)

def handOut : List (Move AccessTask StepReply AccessEvent) :=
  .spawn (.addTeamMember ⟨"o1", "t1", "eve"⟩ .findTeam) :: statements 0 3 ++
    .spawn (.setRepoGrant ⟨"acme", "tools", .user, "eve", .admin⟩ .getRepo) :: statements 1 3

def removedThroughApp : List (Move AccessTask StepReply AccessEvent) :=
  handOut ++ .spawn (.removeMember ⟨"o1", "m2"⟩ .find) :: statements 2 6

theorem access_ends_with_membership_acme :
    ∃ p, (accessProgram acmeMember).machine.Run EndsAccess p ∧ NothingRuns p ∧
      p.shared.members.map (·.userId) = ["ada"] ∧ AccessOfMembers p.shared := by
  obtain ⟨p, hp⟩ : ∃ p, (accessProgram acmeMember).machine.replay EndsAccess
      ⟨acmeTeams, []⟩ removedThroughApp = some p := ⟨_, rfl⟩
  have hrun : (accessProgram acmeMember).machine.Run EndsAccess p :=
    Machine.run_of_replay settledAcme hp
  have hdone : NothingRuns p := by
    cases hp
    unfold NothingRuns
    decide
  refine ⟨p, hrun, hdone, ?_, (access_ends_with_membership hrun hdone).1⟩
  cases hp
  rfl

/-- Or she is removed through the REST API, and joins again as a viewer. -/
def removedThroughApi : List (Move AccessTask StepReply AccessEvent) :=
  handOut ++ .spawn (.memberDelete ⟨"acme", "eve"⟩ .loadOrg) :: statements 2 3

/-- Her seat and her grant are still there, and hers again when she is back. -/
theorem api_removal_keeps_access :
    ∃ p, (accessProgram acmeMember).machine.Reachable p ∧ NothingRuns p ∧
      p.shared.members.map (·.userId) = ["ada"] ∧ ¬ AccessOfMembers p.shared ∧
      ∃ t', accessEnv acmeMember p.shared (.join ⟨"m3", "o1", "eve", .viewer⟩) = some t' ∧
        effectivePermission t' "eve" false (some .viewer) "r2" = some .admin := by
  obtain ⟨p, hp⟩ : ∃ p, (accessProgram acmeMember).machine.replay (fun _ _ => True)
      ⟨acmeTeams, []⟩ removedThroughApi = some p := ⟨_, rfl⟩
  have hrun : (accessProgram acmeMember).machine.Reachable p := Machine.run_of_replay settledAcme hp
  have hseats : p.shared.teamMembers = [⟨"t1", "eve"⟩] := by
    cases hp
    rfl
  have hmembers : p.shared.members = [⟨"m1", "o1", "ada", .owner⟩] := by
    cases hp
    rfl
  refine ⟨p, hrun, ?_, by rw [hmembers]; rfl, fun h => ?_, ?_⟩
  · cases hp
    unfold NothingRuns
    decide
  · obtain ⟨team, -, -, m, hm, -, hu⟩ := h.seats ⟨"t1", "eve"⟩ (by simp [hseats])
    rw [hmembers, mem_singleton] at hm
    subst hm
    exact absurd hu (by decide)
  · cases hp
    exact ⟨_, rfl, rfl⟩

end Chicoree.Web
