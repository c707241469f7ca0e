import Chicoree.Web.Membership

/-! # Seats and grants as access

A seat or grant that has outlived its membership is a debt: somebody has still to delete
it, and only the clean-up after a removal through the app does. What each statement
leaves outlived, and which statements may leave nothing. -/

namespace Chicoree.Web

open Option (any_some map_eq_some_iff)
open Transition Bool List Table

/-! ## Seats and grants as access -/

inductive Access where
  | seat (x : TeamMember)
  | grant (g : RepositoryGrant)

namespace Access

def holder : Access → Id
  | .seat x => x.userId
  | .grant g => g.subjectId

def place (t : Tables) : Access → Option Id
  | .seat x => (Table.find Team.id x.teamId t.teams).map (·.organizationId)
  | .grant g => (Table.find Repository.id g.repositoryId t.repositories).map (·.organizationId)

end Access

def Tables.access (t : Tables) : List Access :=
  t.teamMembers.map .seat ++
    (t.repositoryGrants.filter fun g => decide (g.subjectType = .user)).map .grant

def Tables.isMember (t : Tables) (o u : Id) : Bool :=
  t.members.any fun m => decide (m.organizationId = o ∧ m.userId = u)

def Access.current (t : Tables) (a : Access) : Bool :=
  (a.place t).any fun o => t.isMember o a.holder

def Outlived (t : Tables) (a : Access) : Prop := a ∈ t.access ∧ a.current t = false

def DropPc.drops (t : Tables) (o u : Id) (pc : DropPc) (a : Access) : Bool :=
  decide (a.holder = u) &&
    match pc, a with
    | .teams, a => decide (a.place t = some o)
    | .seats teamIds, .seat x => teamIds.contains x.teamId
    | .seats _, a | .repositories, a =>
      match a with
      | .seat _ => false
      | .grant _ => decide (a.place t = some o)
    | .grants repositoryIds, .grant g => repositoryIds.contains g.repositoryId
    | .grants _, .seat _ | .done, _ => false

def AccessTask.drops (t : Tables) (a : Access) : AccessTask → Bool
  | .removeMember _ (.drop m pc) => pc.drops t m.organizationId m.userId a
  | _ => false

/-! ## The condition -/

/-- Apart from this row nothing of the membership is left: no seat, no grant. -/
def leavesNothing (t : Tables) (m : Member) : Bool :=
  (t.dropMember m.id).isMember m.organizationId m.userId ||
    t.access.all fun a => !decide (a.holder = m.userId ∧ a.place t = some m.organizationId)

/-- Access may be handed out: to a member, or to somebody whose clean-up is still to
delete it. -/
def mayHold (p : Pool Tables AccessTask) (a : Access) : Bool :=
  a.current p.shared || p.tasks.any fun q => q.drops p.shared a

/-- **The condition on a step.** Seats and grants are inserted while their holder is
still a member; a repository moves to an organization whose members all its grantees
are; a membership that ends without the hook has no seat or grant left; and the clean-up
of the hook does not fail over something it had to delete. -/
def endsAccess (p : Pool Tables AccessTask) : Move AccessTask StepReply AccessEvent → Bool
  | .act i .ok =>
    match p.tasks[i]? with
    | some (.addTeamMember rq (.insert team)) => mayHold p (.seat ⟨team.id, rq.userId⟩)
    | some (.setRepoGrant rq (.insert r)) =>
      decide (rq.subjectType = .team) || mayHold p (.grant (rq.grant r))
    | some (.memberDelete _ (.delete m)) => leavesNothing p.shared m
    | some (.syncGroupBindings _ _ (.delete m)) => leavesNothing p.shared m
    | some (.moveRepository rq (.transaction r)) =>
      p.shared.repositoryGrants.all fun g =>
        !decide (g.repositoryId = r.id ∧ g.subjectType = .user) ||
          p.shared.isMember rq.targetOrganizationId g.subjectId
    | _ => true
  | .act i .failed =>
    match p.tasks[i]? with
    | some (.removeMember _ (.drop m pc)) =>
      p.shared.access.all fun a =>
        !pc.drops p.shared m.organizationId m.userId a || a.current p.shared
    | _ => true
  | .env (.adminRemoveMember m) => leavesNothing p.shared m
  | _ => true

abbrev EndsAccess (p : Pool Tables AccessTask)
    (m : Move AccessTask StepReply AccessEvent) : Prop :=
  endsAccess p m = true

/-! ## What a statement does -/

section statements

variable {t t' : Tables} {a : Access}

theorem Tables.isMember_iff {o u : Id} :
    t.isMember o u = true ↔ ∃ m ∈ t.members, m.organizationId = o ∧ m.userId = u := by
  simp [Tables.isMember]

theorem Tables.mem_access_seat {x : TeamMember} : Access.seat x ∈ t.access ↔ x ∈ t.teamMembers := by
  simp [Tables.access]

theorem Tables.mem_access_grant {g : RepositoryGrant} :
    Access.grant g ∈ t.access ↔ g ∈ t.repositoryGrants ∧ g.subjectType = .user := by
  simp [Tables.access]

theorem Access.current_iff :
    a.current t = true ↔ ∃ o, a.place t = some o ∧ t.isMember o a.holder = true := by
  simp [Access.current, Option.any_eq_true]

/-- Statements after which no access has outlived its membership that had not before,
and clean-ups still have to delete what they had to. -/
structure Quiet (t t' : Tables) : Prop where
  held : ∀ a ∈ t'.access, a ∈ t.access
  place : ∀ a ∈ t'.access, ∀ o, a.place t = some o → a.place t' = some o
  members : ∀ o u, t.isMember o u = true → t'.isMember o u = true

theorem Quiet.refl (t : Tables) : Quiet t t :=
  ⟨fun _ h => h, fun _ _ _ h => h, fun _ _ h => h⟩

theorem Quiet.outlived (h : Quiet t t') (ha : Outlived t' a) : Outlived t a := by
  refine ⟨h.held a ha.1, ?_⟩
  by_contra hcur
  obtain ⟨o, hplace, hmember⟩ := Access.current_iff.mp (not_eq_false _ ▸ hcur)
  have hcur' : a.current t' = true := by
    unfold Access.current
    rw [h.place a ha.1 o hplace]
    exact h.members o a.holder hmember
  rw [ha.2] at hcur'
  cases hcur'

theorem DropPc.drops_mono {o u : Id} {pc : DropPc}
    (hplace : ∀ o, a.place t = some o → a.place t' = some o)
    (h : pc.drops t o u a = true) : pc.drops t' o u a = true := by
  unfold DropPc.drops at h ⊢
  simp only [and_eq_true] at h ⊢
  refine ⟨h.1, ?_⟩
  have h := h.2
  split at h <;> grind

theorem AccessTask.drops_mono {q : AccessTask}
    (hplace : ∀ o, a.place t = some o → a.place t' = some o)
    (h : q.drops t a = true) : q.drops t' a = true := by
  cases q with
  | removeMember rq pc =>
    cases pc with
    | drop m pc => exact DropPc.drops_mono hplace h
    | _ => cases h
  | _ => cases h

theorem Quiet.fewer (hseats : ∀ x ∈ t'.teamMembers, x ∈ t.teamMembers)
    (hgrants : ∀ g ∈ t'.repositoryGrants, g ∈ t.repositoryGrants)
    (hteams : ∀ x ∈ t'.teamMembers,
      find Team.id x.teamId t'.teams = find Team.id x.teamId t.teams)
    (hrepositories : ∀ g ∈ t'.repositoryGrants,
      find Repository.id g.repositoryId t'.repositories =
        find Repository.id g.repositoryId t.repositories)
    (hmembers : ∀ o u, t.isMember o u = true → t'.isMember o u = true) : Quiet t t' where
  held a ha := by
    cases a with
    | seat x => exact Tables.mem_access_seat.mpr (hseats x (Tables.mem_access_seat.mp ha))
    | grant g =>
      obtain ⟨hg, hu⟩ := Tables.mem_access_grant.mp ha
      exact Tables.mem_access_grant.mpr ⟨hgrants g hg, hu⟩
  place a ha o h := by
    cases a with
    | seat x =>
      simp only [Access.place] at h ⊢
      rw [hteams x (Tables.mem_access_seat.mp ha)]
      exact h
    | grant g =>
      simp only [Access.place] at h ⊢
      rw [hrepositories g (Tables.mem_access_grant.mp ha).1]
      exact h
  members := hmembers

theorem Quiet.rows (hseats : ∀ x ∈ t'.teamMembers, x ∈ t.teamMembers)
    (hgrants : ∀ g ∈ t'.repositoryGrants, g ∈ t.repositoryGrants)
    (hteams : t'.teams = t.teams) (hrepositories : t'.repositories = t.repositories)
    (hmembers : ∀ o u, t.isMember o u = true → t'.isMember o u = true) : Quiet t t' :=
  .fewer hseats hgrants (fun _ _ => by rw [hteams]) (fun _ _ => by rw [hrepositories]) hmembers

theorem Quiet.join (m : Member) : Quiet t { t with members := t.members ++ [m] } :=
  .rows (fun _ hx => hx) (fun _ hg => hg) rfl rfl fun _ _ h => by
    obtain ⟨x, hx, hmember⟩ := Tables.isMember_iff.mp h
    exact Tables.isMember_iff.mpr ⟨x, mem_append_left _ hx, hmember⟩

theorem Quiet.setRole (id : Id) (role : OrgRole) :
    Quiet t { t with members := t.members.map fun x =>
      if x.id = id then { x with role := role } else x } :=
  .rows (fun _ hx => hx) (fun _ hg => hg) rfl rfl fun _ _ h => by
    obtain ⟨x, hx, hmember⟩ := Tables.isMember_iff.mp h
    refine Tables.isMember_iff.mpr ⟨_, mem_map_of_mem hx, ?_⟩
    split <;> exact hmember

section

variable {generatedFor : Id → Id × Id} {m : Member}
  (hnamed : ∀ x ∈ t.members, generatedFor x.id = (x.organizationId, x.userId))
  (hm : generatedFor m.id = (m.organizationId, m.userId))
include hnamed hm

theorem Outlived.of_dropMember (ha : Outlived (t.dropMember m.id) a) :
    Outlived t a ∨ (a.place t = some m.organizationId ∧ a.holder = m.userId) := by
  have hplace : a.place (t.dropMember m.id) = a.place t := by cases a <;> rfl
  by_cases hcur : a.current t = true
  · refine .inr ?_
    obtain ⟨o, ho, hmember⟩ := Access.current_iff.mp hcur
    obtain ⟨x, hx, hxo, hxu⟩ := Tables.isMember_iff.mp hmember
    by_cases hid : x.id = m.id
    · have hsame := (hnamed x hx).symm.trans (hid ▸ hm)
      simp only [Prod.mk.injEq] at hsame
      exact ⟨by rw [ho, ← hxo, hsame.1], by rw [← hxu, hsame.2]⟩
    · -- another row of the same membership is still there
      have hrow : x ∈ (t.dropMember m.id).members := mem_filter.mpr ⟨hx, by simpa using hid⟩
      have hstill : a.current (t.dropMember m.id) = true := by
        unfold Access.current
        rw [hplace, ho, any_some]
        exact Tables.isMember_iff.mpr ⟨x, hrow, hxo, hxu⟩
      rw [ha.2] at hstill
      cases hstill
  · exact .inl ⟨ha.1, eq_false_iff.mpr hcur⟩

theorem Outlived.of_leavesNothing (hleaves : leavesNothing t m = true)
  (ha : Outlived (t.dropMember m.id) a) : Outlived t a := by
  rcases ha.of_dropMember hnamed hm with h | ⟨hplace, hholder⟩
  · exact h
  · simp only [leavesNothing, or_eq_true, all_eq_true, not_eq_true',
      decide_eq_false_iff_not] at hleaves
    rcases hleaves with hmember | hnone
    · have hcur : a.current (t.dropMember m.id) = true := by
        have hplace' : a.place (t.dropMember m.id) = some m.organizationId := by
          rw [← hplace]
          cases a <;> rfl
        unfold Access.current
        rw [hplace', hholder, any_some]
        exact hmember
      rw [ha.2] at hcur
      cases hcur
    · exact absurd ⟨hholder, hplace⟩ (hnone a ha.1)

end

section

variable {o u : Id} {pc pc' : DropPc} {b : StepReply}
  (h : dropOrganizationAccess t o u pc b = some (t', pc'))
include h

theorem dropOrganizationAccess_quiet : Quiet t t' := by
  unfold dropOrganizationAccess at h
  split at h
  · cases h
  · cases h
    exact .refl t
  · cases h
    exact .refl t
  · cases h
    exact .rows (fun x hx => mem_of_mem_filter hx) (fun g hg => hg) rfl rfl fun _ _ h => h
  · cases h
    exact .refl t
  · cases h
    exact .rows (fun x hx => hx) (fun g hg => mem_of_mem_filter hg) rfl rfl fun _ _ h => h
  · cases h

omit h in
theorem mem_keys_of_find {ρ : Type} {key f : ρ → Id} {rows : List ρ} {k : Id}
    (h : (find key k rows).map f = some o) :
    k ∈ (rows.filter fun r => decide (f r = o)).map key := by
  obtain ⟨r, hr, ho⟩ := map_eq_some_iff.mp h
  obtain ⟨hmem, hid⟩ := find_some hr
  exact mem_map.mpr ⟨r, mem_filter.mpr ⟨hmem, decide_eq_true ho⟩, hid⟩

/-- What a clean-up has still to delete it goes on to delete, or has deleted. -/
theorem dropOrganizationAccess_drops (hb : b ≠ .failed) (ha : a ∈ t'.access)
  (hdrops : pc.drops t o u a = true) : pc'.drops t' o u a = true := by
  simp only [DropPc.drops, and_eq_true, decide_eq_true_eq] at hdrops
  obtain ⟨hholder, hdrops⟩ := hdrops
  cases pc with
  | done => cases h
  | teams =>
    cases b <;> simp only [dropOrganizationAccess, reduceCtorEq, ne_eq, not_true_eq_false] at h hb
    cases h
    simp only [decide_eq_true_eq] at hdrops
    cases a with
    | seat x =>
      have hlisted := mem_keys_of_find hdrops
      split
      · rename_i hempty
        rw [isEmpty_iff.mp hempty] at hlisted
        cases hlisted
      · simpa [DropPc.drops, hholder] using hlisted
    | grant g => split <;> simp [DropPc.drops, hholder, hdrops]
  | seats teamIds =>
    cases b <;> simp only [dropOrganizationAccess, reduceCtorEq, ne_eq, not_true_eq_false] at h hb
    cases h
    cases a with
    | seat x =>
      have hkept := (mem_filter.mp (Tables.mem_access_seat.mp ha)).2
      simp only [Access.holder] at hholder
      simp_all
    | grant g =>
      have hplace : (Access.grant g).place t = some o := by simpa using hdrops
      simp only [DropPc.drops, hholder, decide_true, Bool.true_and, decide_eq_true_eq]
      exact hplace
  | repositories =>
    cases b <;> simp only [dropOrganizationAccess, reduceCtorEq, ne_eq, not_true_eq_false] at h hb
    cases h
    cases a with
    | seat x => cases hdrops
    | grant g =>
      simp only [decide_eq_true_eq] at hdrops
      have hlisted := mem_keys_of_find hdrops
      split
      · rename_i hempty
        rw [isEmpty_iff.mp hempty] at hlisted
        cases hlisted
      · simpa [DropPc.drops, hholder] using hlisted
  | grants repositoryIds =>
    cases b <;> simp only [dropOrganizationAccess, reduceCtorEq, ne_eq, not_true_eq_false] at h hb
    cases h
    cases a with
    | seat x => cases hdrops
    | grant g =>
      obtain ⟨hmem, hu⟩ := Tables.mem_access_grant.mp ha
      simp only [Access.holder] at hholder
      simp_all

end

theorem Quiet.of_insert {new : Access} (hheld : ∀ a ∈ t'.access, a ∈ t.access ∨ a = new)
    (hplace : ∀ a : Access, a.place t' = a.place t)
    (hmembers : ∀ o u, t'.isMember o u = t.isMember o u) (ha : Outlived t' a) :
    Outlived t a ∨ (a = new ∧ new.current t = false) := by
  have hcur : a.current t = false := by
    rw [← ha.2]
    unfold Access.current
    rw [hplace]
    congr 1
    funext o
    rw [hmembers]
  rcases hheld a ha.1 with hold | rfl
  · exact .inl ⟨hold, hcur⟩
  · exact .inr ⟨rfl, hcur⟩

theorem Tables.mem_access_insertSeat {seat : TeamMember}
    (h : a ∈ ({ t with teamMembers := Table.insertNew id seat t.teamMembers } : Tables).access) :
    a ∈ t.access ∨ a = .seat seat := by
  cases a with
  | seat x =>
    rcases mem_of_mem_insertNew (Tables.mem_access_seat.mp h) with hx | rfl
    · exact .inl (Tables.mem_access_seat.mpr hx)
    · exact .inr rfl
  | grant g =>
    have hg := Tables.mem_access_grant.mp h
    exact .inl (Tables.mem_access_grant.mpr hg)

theorem Tables.mem_access_upsertGrant {new : RepositoryGrant} (h : a ∈ ({ t with
      repositoryGrants := Table.upsert RepositoryGrant.key new t.repositoryGrants } :
        Tables).access) :
    a ∈ t.access ∨ (a = .grant new ∧ new.subjectType = .user) := by
  cases a with
  | seat x =>
    have hx := Tables.mem_access_seat.mp h
    exact .inl (Tables.mem_access_seat.mpr hx)
  | grant g =>
    obtain ⟨hg, hu⟩ := Tables.mem_access_grant.mp h
    rcases mem_of_mem_upsert hg with hg | rfl
    · exact .inl (Tables.mem_access_grant.mpr ⟨hg, hu⟩)
    · exact .inr ⟨rfl, hu⟩

theorem Access.place_moveRepository {id o : Id} (a : Access) :
    a.place (t.moveRepository id o) = a.place t ∨
      ∃ g, a = .grant g ∧ g.repositoryId = id ∧ a.place (t.moveRepository id o) = some o := by
  cases a with
  | seat x => exact .inl rfl
  | grant g =>
    have hfind : Table.find Repository.id g.repositoryId (t.moveRepository id o).repositories =
        (Table.find Repository.id g.repositoryId t.repositories).map fun r =>
          if r.id = id then { r with organizationId := o } else r :=
      find_map (fun r => by split <;> rfl) _ _
    simp only [Access.place, hfind]
    cases hr : Table.find Repository.id g.repositoryId t.repositories with
    | none => exact .inl rfl
    | some r =>
      have hid := (find_some hr).2
      by_cases h : r.id = id
      · exact .inr ⟨g, rfl, hid ▸ h, by simp [h]⟩
      · exact .inl (by simp [h])

theorem Outlived.of_moveRepository {id o : Id}
    (hgrantees : ∀ g ∈ t.repositoryGrants, g.repositoryId = id → g.subjectType = .user →
      t.isMember o g.subjectId = true)
    (ha : Outlived (t.moveRepository id o) a) :
    Outlived t a ∧ a.place (t.moveRepository id o) = a.place t := by
  have hheld : a ∈ t.access := ha.1
  rcases (Access.place_moveRepository a : a.place (t.moveRepository id o) = a.place t ∨ _) with
    hplace | ⟨g, rfl, hid, hplace⟩
  · refine ⟨⟨hheld, ?_⟩, hplace⟩
    have hcur := ha.2
    unfold Access.current at hcur ⊢
    rw [hplace] at hcur
    exact hcur
  · obtain ⟨hg, hu⟩ := Tables.mem_access_grant.mp hheld
    have hcur := ha.2
    unfold Access.current at hcur
    rw [hplace, any_some] at hcur
    have hmember : (t.moveRepository id o).isMember o g.subjectId = true := hgrantees g hg hid hu
    rw [show (Access.grant g).holder = g.subjectId from rfl, hmember] at hcur
    cases hcur

theorem accessEnv_quiet {generatedFor : Id → Id × Id} {e : AccessEvent}
    (h : accessEnv generatedFor t e = some t') (he : ∀ m, e ≠ .adminRemoveMember m) :
    (∀ a, Outlived t' a → Outlived t a) ∧
      ∀ a ∈ t'.access, ∀ o, a.place t = some o → a.place t' = some o := by
  have ofQuiet (hq : Quiet t t') : (∀ a, Outlived t' a → Outlived t a) ∧
      ∀ a ∈ t'.access, ∀ o, a.place t = some o → a.place t' = some o :=
    ⟨fun a => hq.outlived, hq.place⟩
  cases e with
  | join m =>
    simp only [accessEnv] at h
    split at h
    · cases h
    · cases h
      exact ofQuiet (.join m)
  | setRole id role =>
    cases h
    exact ofQuiet (.setRole id role)
  | adminRemoveMember m => exact absurd rfl (he m)
  | createTeam team =>
    simp only [accessEnv] at h
    split at h
    · cases h
    · cases h
      refine ofQuiet ⟨fun a ha => ha, fun a _ o hplace => ?_, fun o u hm => hm⟩
      cases a with
      | seat x =>
        obtain ⟨x', hx', ho⟩ := map_eq_some_iff.mp hplace
        exact map_eq_some_iff.mpr ⟨x', find_append_of_some hx', ho⟩
      | grant g => exact hplace
  | createRepository r =>
    simp only [accessEnv] at h
    split at h
    · cases h
    · cases h
      refine ofQuiet ⟨fun a ha => ha, fun a _ o hplace => ?_, fun o u hm => hm⟩
      cases a with
      | seat x => exact hplace
      | grant g =>
        obtain ⟨r', hr', ho⟩ := map_eq_some_iff.mp hplace
        exact map_eq_some_iff.mpr ⟨r', find_append_of_some hr', ho⟩
  | deleteTeam id =>
    cases h
    refine ofQuiet (.fewer (fun x hx => mem_of_mem_filter hx) (fun g hg => mem_of_mem_filter hg)
      (fun x hx => ?_) (fun _ _ => rfl) fun _ _ h => h)
    exact find_filter_ne (of_decide_eq_true (mem_filter.mp hx).2) t.teams
  | deleteRepository id =>
    cases h
    refine ofQuiet (.fewer (fun x hx => hx) (fun g hg => mem_of_mem_filter hg) (fun _ _ => rfl)
      (fun g hg => ?_) fun _ _ h => h)
    exact find_filter_ne (of_decide_eq_true (mem_filter.mp hg).2) t.repositories
  | removeTeamMember seat =>
    cases h
    exact ofQuiet (.rows (fun x hx => mem_of_mem_filter hx) (fun g hg => hg) rfl rfl fun _ _ h => h)
  | removeRepoGrant r subjectType subjectId =>
    cases h
    exact ofQuiet (.rows (fun x hx => hx) (fun g hg => mem_of_mem_filter hg) rfl rfl fun _ _ h => h)

end statements

end Chicoree.Web
