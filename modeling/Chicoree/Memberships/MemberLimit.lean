import Chicoree.Memberships.Requests

/-! # The member limit

Seats are counted in one statement and taken in another, and an open invitation is counted by
some of the requests that take one. -/

namespace Chicoree.Memberships

open Web (Id Member Invitation StepReply)
open Transition List Option

/-! ## Seats -/

/-- The members are within the limit of the organization, and the check of an acceptance lets
every open invitation through. -/
structure SeatsHold (org : Id) (t : Tables) : Prop where
  within : ∀ limit, t.maxMembers org = some limit → t.memberCount org ≤ limit
  invited : ∀ i ∈ t.invitations, i.organizationId = org → t.isOpen i = true →
    t.checkMemberQuota org false = true

/-- Condition on a change: a member of the organization takes a seat that is free at that
moment and, while an invitation is open, not the last one; an invitation is sent while a seat
is free. -/
def keepsSeats (org : Id) (t : Tables) : Change → Bool
  | .insertMember m =>
    decide (m.organizationId ≠ org) || (t.maxMembers org).all fun limit =>
      decide (t.memberCount org + (if 0 < t.openInvitations org then 1 else 0) < limit)
  | .insertInvitation i =>
    decide (i.organizationId ≠ org) || !t.isOpen i || t.checkMemberQuota org false
  | _ => true

section changes

variable {t : Tables} {org : Id}

theorem seatsHold_iff : SeatsHold org t ↔ ∀ limit, t.maxMembers org = some limit →
    t.memberCount org ≤ limit ∧ (0 < t.openInvitations org → t.memberCount org < limit) := by
  constructor
  · intro h limit hlimit
    refine ⟨h.within limit hlimit, fun hpos => ?_⟩
    obtain ⟨i, hi, hopen⟩ := countP_pos_iff.mp hpos
    rw [Bool.and_eq_true, decide_eq_true_eq] at hopen
    have hquota := h.invited i hi hopen.1 hopen.2
    simpa [Tables.checkMemberQuota, hlimit] using hquota
  · intro h
    refine ⟨fun limit hlimit => (h limit hlimit).1, fun i hi horg hopen => ?_⟩
    cases hlimit : t.maxMembers org with
    | none => simp [Tables.checkMemberQuota, hlimit]
    | some limit =>
      have hpos : 0 < t.openInvitations org := countP_pos_iff.mpr ⟨i, hi, by simp [horg, hopen]⟩
      simpa [Tables.checkMemberQuota, hlimit] using (h limit hlimit).2 hpos

theorem memberCount_append (m : Member) : (t.apply (.insertMember m)).memberCount org =
    t.memberCount org + if m.organizationId = org then 1 else 0 := by
  show (t.members ++ [m]).countP _ = t.members.countP _ + _
  rw [countP_append, countP_singleton]
  simp only [decide_eq_true_eq]

theorem openInvitations_append (i : Invitation) : (t.apply (.insertInvitation i)).openInvitations org =
    t.openInvitations org + if i.organizationId = org ∧ t.isOpen i = true then 1 else 0 := by
  show (t.invitations ++ [i]).countP _ = t.invitations.countP _ + _
  rw [countP_append, countP_singleton]
  simp only [Bool.and_eq_true, decide_eq_true_eq]
  rfl

theorem SeatsHold.fewer {t' : Tables} (h : SeatsHold org t)
    (hlimit : t'.maxMembers org = t.maxMembers org)
    (hmembers : t'.memberCount org ≤ t.memberCount org)
    (hopen : t'.openInvitations org ≤ t.openInvitations org) : SeatsHold org t' := by
  rw [seatsHold_iff] at h ⊢
  intro limit heq
  obtain ⟨hwithin, hseat⟩ := h limit (hlimit ▸ heq)
  refine ⟨by omega, fun hpos => ?_⟩
  omega

theorem insertMember_seatsHold (h : SeatsHold org t) (m : Member) :
    SeatsHold org (t.apply (.insertMember m)) ↔ keepsSeats org t (.insertMember m) = true := by
  have hlimit : (t.apply (.insertMember m)).maxMembers org = t.maxMembers org := rfl
  have hopen : (t.apply (.insertMember m)).openInvitations org = t.openInvitations org := rfl
  rw [seatsHold_iff, hlimit, hopen, memberCount_append]
  unfold keepsSeats
  by_cases horg : m.organizationId = org
  · cases hmax : t.maxMembers org with
    | none => simp
    | some limit =>
      simp only [horg, if_true, Option.some.injEq, forall_eq', ne_eq, not_true, decide_false,
        Bool.false_or, all_some, decide_eq_true_eq]
      split <;> omega
  · refine iff_of_true (fun limit heq => ?_) (by simp [horg])
    rw [if_neg horg]
    exact seatsHold_iff.mp h limit heq

theorem insertInvitation_seatsHold (h : SeatsHold org t) (i : Invitation) :
    SeatsHold org (t.apply (.insertInvitation i)) ↔
      keepsSeats org t (.insertInvitation i) = true := by
  have hlimit : (t.apply (.insertInvitation i)).maxMembers org = t.maxMembers org := rfl
  have hmembers : (t.apply (.insertInvitation i)).memberCount org = t.memberCount org := rfl
  rw [seatsHold_iff, hlimit, hmembers, openInvitations_append]
  unfold keepsSeats Tables.checkMemberQuota
  by_cases hopens : i.organizationId = org ∧ t.isOpen i = true
  · obtain ⟨horg, hopen⟩ := hopens
    cases hmax : t.maxMembers org with
    | none => simp
    | some limit =>
      simp only [horg, hopen, and_self, if_true, Option.some.injEq, forall_eq', ne_eq, not_true,
        decide_false, Bool.not_true, Bool.false_or, all_some, Bool.false_eq_true,
        if_false, Nat.add_zero, decide_eq_true_eq]
      constructor
      · intro hseats
        exact hseats.2 (by omega)
      · intro hfree
        exact ⟨by omega, fun _ => hfree⟩
  · rw [if_neg hopens]
    refine iff_of_true (seatsHold_iff.mp h) ?_
    by_cases horg : i.organizationId = org
    · have hclosed : t.isOpen i = false := by
        rw [← Bool.not_eq_true]
        exact fun hopen => hopens ⟨horg, hopen⟩
      simp [hclosed]
    · simp [horg]

theorem isOpen_closed (i : Invitation) (how : Closing) :
    t.isOpen { i with status := how.status } = false := by
  cases how <;> simp [Tables.isOpen, Closing.status]

theorem closeInvitation_open (id : Id) (how : Closing) :
    (t.apply (.closeInvitation id how)).openInvitations org ≤ t.openInvitations org := by
  show (t.invitations.map _).countP _ ≤ t.invitations.countP _
  rw [countP_map]
  refine countP_mono_left fun i _ hi => ?_
  by_cases hid : i.id = id
  · rw [Function.comp_apply, if_pos hid, isOpen_closed, Bool.and_false] at hi
    cases hi
  · rw [Function.comp_apply, if_neg hid] at hi
    exact hi

theorem advance_open (ms : Nat) :
    (t.apply (.advance ms)).openInvitations org ≤ t.openInvitations org := by
  refine countP_mono_left fun i _ hi => ?_
  obtain ⟨horg, hopen⟩ := Bool.and_eq_true_iff.mp hi
  obtain ⟨hpending, hexpires⟩ : i.status = .pending ∧ t.now + ms < i.expiresAt :=
    of_decide_eq_true hopen
  refine Bool.and_eq_true_iff.mpr ⟨horg, decide_eq_true ⟨hpending, ?_⟩⟩
  omega

theorem apply_seatsHold (h : SeatsHold org t) (c : Change) :
    SeatsHold org (t.apply c) ↔ keepsSeats org t c = true := by
  cases c with
  | insertMember m => exact insertMember_seatsHold h m
  | insertInvitation i => exact insertInvitation_seatsHold h i
  | deleteUser id =>
    exact iff_of_true (h.fewer rfl filter_sublist.countP_le filter_sublist.countP_le) rfl
  | deleteMember id =>
    exact iff_of_true (h.fewer rfl filter_sublist.countP_le (Nat.le_refl _)) rfl
  | setMemberRole id role =>
    refine iff_of_true (h.fewer rfl (Nat.le_of_eq ?_) (Nat.le_refl _)) rfl
    show (t.members.map _).countP _ = t.members.countP _
    rw [countP_map]
    refine countP_congr fun m _ => ?_
    by_cases hid : m.id = id <;> simp [hid]
  | closeInvitation id how =>
    exact iff_of_true (h.fewer rfl (Nat.le_refl _) (closeInvitation_open id how)) rfl
  | advance ms => exact iff_of_true (h.fewer rfl (Nat.le_refl _) (advance_open ms)) rfl
  | _ => exact iff_of_true (h.fewer rfl (Nat.le_refl _) (Nat.le_refl _)) rfl

end changes

/-! ## Every order -/

section runs

variable {lower : String → String} {org : Id} {p p' : Pool Tables Request}
  {m : Move Request StepReply Event}

/-- Condition on a step: the change it makes, if it makes one, meets its condition. -/
def keepsSeatsStep (lower : String → String) (org : Id) (p : Pool Tables Request)
    (m : Move Request StepReply Event) : Bool :=
  (changeOf lower p m).all (keepsSeats org p.shared)

abbrev KeepsSeats (lower : String → String) (org : Id) (p : Pool Tables Request)
    (m : Move Request StepReply Event) : Prop := keepsSeatsStep lower org p m = true

theorem step_seatsHold (h : SeatsHold org p.shared)
    (hstep : (membershipProgram lower Keys).step p m = some p') :
    SeatsHold org p'.shared ↔ KeepsSeats lower org p m := by
  show _ ↔ keepsSeatsStep lower org p m = true
  unfold keepsSeatsStep
  rcases step_change hstep with ⟨hnone, heq⟩ | ⟨c, hsome, -, heq⟩
  · rw [hnone, heq]
    exact iff_of_true h rfl
  · rw [hsome, heq]
    exact apply_seatsHold h c

theorem step_maxMembers (hstep : (membershipProgram lower Keys).step p m = some p') :
    p'.shared.maxMembers org = p.shared.maxMembers org := by
  rcases step_change hstep with ⟨-, heq⟩ | ⟨c, -, -, heq⟩
  · rw [heq]
  · rw [heq]
    cases c <;> rfl

end runs

/-- **Seats hold** through every step that meets its condition, once they do, and the first
step that does not meet it ends that. -/
theorem seats_hold (lower : String → String) (org : Id) {p p' : Pool Tables Request}
    (hseats : SeatsHold org p.shared)
    (hpath : (membershipProgram lower Keys).machine.Path (KeepsSeats lower org) p p') :
    SeatsHold org p'.shared ∧ p'.shared.maxMembers org = p.shared.maxMembers org ∧
    ∀ m p'', (membershipProgram lower Keys).step p' m = some p'' →
      (SeatsHold org p''.shared ↔ KeepsSeats lower org p' m) := by
  have hboth : SeatsHold org p'.shared ∧ p'.shared.maxMembers org = p.shared.maxMembers org := by
    induction hpath with
    | refl => exact ⟨hseats, rfl⟩
    | step _ hkeeps hstep ih =>
      exact ⟨(step_seatsHold ih.1 hstep).mpr hkeeps, (step_maxMembers hstep).trans ih.2⟩
  exact ⟨hboth.1, hboth.2, fun m p'' hstep => step_seatsHold hboth.1 hstep⟩

def invitedToTwo : Tables where
  users := [⟨"ada", "ada@example.com", .admin⟩, ⟨"bob", "bob@example.com", .user⟩,
    ⟨"cyn", "cyn@example.com", .user⟩, ⟨"dan", "dan@example.com", .user⟩]
  organizations := [{ id := "o1", slug := "acme", name := "Acme" }]
  members := [⟨"m1", "o1", "ada", .owner⟩]
  invitations := [⟨"i1", "o1", "cyn@example.com", .member, .pending, 1000, "ada"⟩]
  organizationLimits := [⟨"o1", { maxMembers := some 2 }⟩]

theorem invitedToTwo_seatsHold : SeatsHold "o1" invitedToTwo := by
  rw [seatsHold_iff]
  intro limit hlimit
  cases hlimit
  decide

def accepted : List (Move Request StepReply Event) :=
  [.spawn (.accept ⟨"i1", "cyn"⟩ .find), .act 0 .ok, .act 0 .ok, .act 0 .ok, .act 0 (.fresh "m2")]

theorem seats_hold_accepted : ∃ p : Pool Tables Request,
      (membershipProgram id Keys).machine.Path (KeepsSeats id "o1") ⟨invitedToTwo, []⟩ p ∧
      p.shared.memberCount "o1" = 2 ∧ SeatsHold "o1" p.shared := by
  have hfacts : ((membershipProgram id Keys).machine.replay (KeepsSeats id "o1")
      ⟨invitedToTwo, []⟩ accepted).map (fun p => p.shared.memberCount "o1") = some 2 := by
    decide +kernel
  obtain ⟨p, hp, hcount⟩ := map_eq_some_iff.mp hfacts
  have hpath := Machine.path_of_replay (M := (membershipProgram id Keys).machine) hp
  exact ⟨p, hpath, hcount, (seats_hold id "o1" invitedToTwo_seatsHold hpath).1⟩

def addedTogether : List (Move Request StepReply Event) :=
  [.spawn (.addMember ⟨"o1", "bob", .member⟩ .quota),
    .spawn (.addMember ⟨"o1", "dan", .member⟩ .quota),
    .act 0 .ok, .act 1 .ok, .act 0 (.fresh "m2"), .act 1 (.fresh "m3")]

theorem seats_taken_twice : (¬ ∀ p p' : Pool Tables Request, SeatsHold "o1" p.shared →
      (membershipProgram id Keys).machine.Path (fun _ _ => True) p p' →
      ∀ limit, p'.shared.maxMembers "o1" = some limit → p'.shared.memberCount "o1" ≤ limit) ∧
    ¬ ∀ p p' : Pool Tables Request, SeatsHold "o1" p.shared →
      (membershipProgram id Keys).machine.Path (fun _ _ => True) p p' →
      ∀ i ∈ p'.shared.invitations, i.organizationId = "o1" → p'.shared.isOpen i = true →
        p'.shared.checkMemberQuota "o1" false = true := by
  have hfacts : ((membershipProgram id Keys).machine.replay (fun _ _ => True)
      ⟨invitedToTwo, []⟩ addedTogether).map (fun p => (p.shared.memberCount "o1",
        p.shared.maxMembers "o1", p.shared.checkMemberQuota "o1" false,
        p.shared.invitations.filter p.shared.isOpen)) =
      some (3, some 2, false, invitedToTwo.invitations) := by
    decide +kernel
  obtain ⟨p, hp, hview⟩ := map_eq_some_iff.mp hfacts
  obtain ⟨hcount, hlimit, hfull, hopen⟩ : p.shared.memberCount "o1" = 3 ∧
      p.shared.maxMembers "o1" = some 2 ∧ p.shared.checkMemberQuota "o1" false = false ∧
      p.shared.invitations.filter p.shared.isOpen = invitedToTwo.invitations := by
    simpa using hview
  have hpath := Machine.path_of_replay (M := (membershipProgram id Keys).machine) hp
  constructor
  · intro hall
    have hwithin := hall _ p invitedToTwo_seatsHold hpath 2 hlimit
    omega
  · intro hall
    have hmem : (⟨"i1", "o1", "cyn@example.com", .member, .pending, 1000, "ada"⟩ : Invitation) ∈
        p.shared.invitations.filter p.shared.isOpen := by
      rw [hopen]
      exact mem_cons_self
    obtain ⟨hi, hisOpen⟩ := mem_filter.mp hmem
    have hquota := hall _ p invitedToTwo_seatsHold hpath _ hi rfl hisOpen
    rw [hfull] at hquota
    cases hquota

end Chicoree.Memberships
