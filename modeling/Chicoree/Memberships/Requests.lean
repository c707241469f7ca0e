import Chicoree.Memberships.DomainLists

/-! # Requests that change accounts and memberships

Accounts are created and deleted, roles change, members are invited, join and leave. Each
request is the sequence of its statements, and the statements of all requests interleave. -/

namespace Chicoree.Memberships

open Web (Id OrgRole Member Invitation StepReply)
open Transition Bool List Table Tables

/-! ## Creating an account -/

structure AccessSettings where
  signUpMode : SignUpMode
  allowedEmailDomains : List String := []

section creation

variable (lower : String → String)

def emailDomainAllowed (email : String) (domains : List String) : Bool :=
  DomainLists.emailDomainAllowed (fun s => (lower (String.ofList s)).toList) email.toList
    (domains.map String.toList)

structure CreateRequest where
  email : String
  access : AccessSettings
  invitationId : Option Id := none

/-- The invitations table, as `enforceSignUpPolicy` asks it in invitation-only mode. -/
def invited (t : Tables) (rq : CreateRequest) : Bool :=
  match rq.invitationId with
  | some id =>
    t.invitations.any fun i =>
      decide (i.id = id) && t.isOpen i && decide (lower i.email = lower rq.email)
  | none => t.invitations.any fun i => decide (i.email = lower rq.email) && t.isOpen i

def enforceSignUpPolicy (t : Tables) (rq : CreateRequest) (isFirstUser : Bool) : Bool :=
  emailDomainAllowed lower (lower rq.email) rq.access.allowedEmailDomains &&
    (isFirstUser ||
      match rq.access.signUpMode with
      | .anyone => true
      | .closed => false
      | .invite => invited lower t rq)

inductive CreatePc where
  | count
  | policy (existing : Nat)
  | insert (existing : Nat)
  | library (userId : Id) (pc : LibraryPc)
deriving DecidableEq

def firstRole (existing : Nat) : InstanceRole := if existing = 0 then .admin else .user

def createAccount (t : Tables) (rq : CreateRequest) :
    CreatePc → StepReply → Option (Option Change × Option CreatePc)
  | .count, .ok => some (none, some (.policy t.users.length))
  | .policy existing, .ok =>
    if enforceSignUpPolicy lower t rq (decide (existing = 0)) then
      some (none, some (.insert existing))
    else some (none, none)
  | .insert existing, .fresh id =>
    some (some (.insertUser ⟨id, rq.email, firstRole existing⟩ existing rq.access.signUpMode),
      if existing = 0 then some (.library id .find) else none)
  | .library _ .done, .ok => some (none, none)
  | .library userId pc, a =>
    (ensureLibraryOrg t userId pc a).map fun out => (out.1, some (.library userId out.2))
  | _, _ => none

end creation

/-- A user deletes their own account: `refuseDeletionOfLastOwner`, then the deletion. -/
inductive DeleteSelfPc where
  | session
  | owners (role : InstanceRole)
  | admins
  | delete
deriving DecidableEq

def deleteSelf (t : Tables) (userId : Id) :
    DeleteSelfPc → StepReply → Option (Option Change × Option DeleteSelfPc)
  | .session, .ok => some (none, (t.findUser userId).map fun u => .owners u.role)
  | .owners role, .ok =>
    if (t.solelyOwned userId).isEmpty then
      some (none, some (if role = .admin then .admins else .delete))
    else some (none, none)
  | .admins, .ok => some (none, if t.admins ≤ 1 then none else some .delete)
  | .delete, .ok => some (some (.deleteUser userId), none)
  | _, _ => none

structure AdminDeleteRequest where
  actorId : Id
  userId : Id

inductive AdminDeletePc where
  | session
  | target
  | owners
  | delete
deriving DecidableEq

def adminDeleteUser (t : Tables) (rq : AdminDeleteRequest) :
    AdminDeletePc → StepReply → Option (Option Change × Option AdminDeletePc)
  | .session, .ok =>
    let isAdmin := (t.findUser rq.actorId).any fun u => decide (u.role = .admin)
    some (none, if isAdmin && decide (rq.userId ≠ rq.actorId) then some .target else none)
  | .target, .ok => some (none, (t.findUser rq.userId).map fun _ => .owners)
  | .owners, .ok => some (none, if (t.ownedAlone rq.userId).isEmpty then some .delete else none)
  | .delete, .ok => some (some (.deleteUser rq.userId), none)
  | _, _ => none

structure MemberRequest where
  org : String
  userId : Id

inductive MemberPc where
  | loadOrg
  | target (organizationId : Id)
  | owners (m : Member)
  | write (m : Member)
deriving DecidableEq

def target (t : Tables) (organizationId userId : Id) : Option Member :=
  (t.membership organizationId userId).filter fun m => (t.findUser m.userId).isSome

/-- `PATCH /orgs/{org}/members/{userId}`, for a role. -/
def memberPatch (t : Tables) (rq : MemberRequest) (role : OrgRole) :
    MemberPc → StepReply → Option (Option Change × Option MemberPc)
  | .loadOrg, .ok => some (none, (t.organizationBySlug rq.org).map fun o => .target o.id)
  | .target o, .ok =>
    some (none, (target t o rq.userId).bind fun m =>
      if m.role = .owner ∧ role ≠ .owner then some (.owners m)
      else if m.role ≠ role then some (.write m)
      else none)
  | .owners m, .ok =>
    some (none, if t.isLastOwner m.organizationId then none else some (.write m))
  | .write m, .ok => some (some (.setMemberRole m.id role), none)
  | _, _ => none

def memberDelete (t : Tables) (rq : MemberRequest) :
    MemberPc → StepReply → Option (Option Change × Option MemberPc)
  | .loadOrg, .ok => some (none, (t.organizationBySlug rq.org).map fun o => .target o.id)
  | .target o, .ok =>
    some (none, (target t o rq.userId).map fun m =>
      if m.role = .owner then .owners m else .write m)
  | .owners m, .ok =>
    some (none, if t.isLastOwner m.organizationId then none else some (.write m))
  | .write m, .ok => some (some (.deleteMember m.id), none)
  | _, _ => none

def invitationTtlMs : Nat := 48 * 3600 * 1000

structure InviteRequest where
  organizationId : Id
  email : String
  role : OrgRole
  inviterId : Id
  /-- Over the API, or in the app. -/
  viaApi : Bool

inductive InvitePc where
  | quota
  | existingUser
  | already (userId : Id)
  | pending
  | insert
deriving DecidableEq

/-- `POST /orgs/{org}/invitations`, or `beforeCreateInvitation` and the insertion. -/
def invite (t : Tables) (rq : InviteRequest) :
    InvitePc → StepReply → Option (Option Change × Option InvitePc)
  | .quota, .ok =>
    some (none, if t.checkMemberQuota rq.organizationId true then
      some (if rq.viaApi then .existingUser else .insert) else none)
  | .existingUser, .ok =>
    some (none, some (match t.users.find? fun u => decide (u.email = rq.email) with
      | some u => .already u.id
      | none => .pending))
  | .already userId, .ok =>
    some (none, if (t.membership rq.organizationId userId).isSome then none else some .pending)
  | .pending, .ok =>
    let pending := t.invitations.find? fun i =>
      decide (i.organizationId = rq.organizationId ∧ i.email = rq.email ∧ i.status = .pending)
    some (none, if pending.any fun i => decide (t.now < i.expiresAt) then none else some .insert)
  | .insert, .fresh id =>
    some (some (.insertInvitation ⟨id, rq.organizationId, rq.email, rq.role, .pending,
      t.now + invitationTtlMs, rq.inviterId⟩), none)
  | _, _ => none

structure AcceptRequest where
  invitationId : Id
  userId : Id

inductive AcceptPc where
  | find
  | quota (i : Invitation)
  | close (i : Invitation)
  | insert (i : Invitation)
deriving DecidableEq

/-- An open invitation is accepted: `beforeAcceptInvitation`, the status, the member. -/
def accept (t : Tables) (rq : AcceptRequest) :
    AcceptPc → StepReply → Option (Option Change × Option AcceptPc)
  | .find, .ok =>
    let found := t.invitations.find? fun i => decide (i.id = rq.invitationId)
    some (none, (found.filter t.isOpen).map .quota)
  | .quota i, .ok =>
    some (none, if t.checkMemberQuota i.organizationId false then some (.close i) else none)
  | .close i, .ok => some (some (.closeInvitation i.id .accepted), some (.insert i))
  | .insert i, .fresh id =>
    some (some (.insertMember ⟨id, i.organizationId, rq.userId, i.role⟩), none)
  | _, _ => none

structure AddRequest where
  organizationId : Id
  userId : Id
  role : OrgRole

inductive AddPc where
  | quota
  | insert
deriving DecidableEq

/-- A member is added directly: `beforeAddMember`, then the insertion. -/
def addMember (t : Tables) (rq : AddRequest) :
    AddPc → StepReply → Option (Option Change × Option AddPc)
  | .quota, .ok =>
    some (none, if t.checkMemberQuota rq.organizationId false then some .insert else none)
  | .insert, .fresh id =>
    some (some (.insertMember ⟨id, rq.organizationId, rq.userId, rq.role⟩), none)
  | _, _ => none

/-! ## All of them -/

inductive Request where
  | createAccount (rq : CreateRequest) (pc : CreatePc)
  | deleteSelf (userId : Id) (pc : DeleteSelfPc)
  | adminDeleteUser (rq : AdminDeleteRequest) (pc : AdminDeletePc)
  | signIn (rq : SignInRequest) (pc : SignInPc)
  | memberPatch (rq : MemberRequest) (role : OrgRole) (pc : MemberPc)
  | memberDelete (rq : MemberRequest) (pc : MemberPc)
  | invite (rq : InviteRequest) (pc : InvitePc)
  | accept (rq : AcceptRequest) (pc : AcceptPc)
  | addMember (rq : AddRequest) (pc : AddPc)
  | ended

namespace Request

def fresh : Request → Bool
  | .createAccount _ .count | .deleteSelf _ .session | .adminDeleteUser _ .session
  | .signIn _ .bindings | .memberPatch _ _ .loadOrg | .memberDelete _ .loadOrg
  | .invite _ .quota | .accept _ .find | .addMember _ .quota => true
  | _ => false

def next {β : Type} (task : β → Request) : Option Change × Option β → Option Change × Request
  | (c, pc) => (c, (pc.map task).getD .ended)

end Request

section program

variable (lower : String → String)

def statement (t : Tables) : Request → StepReply → Option (Option Change × Request)
  | .ended, _ => none
  -- a check refuses the request, or the statement fails
  | _, .refused | _, .failed => some (none, .ended)
  | .createAccount rq pc, a =>
    (createAccount lower t rq pc a).map (Request.next (.createAccount rq))
  | .deleteSelf u pc, a => (deleteSelf t u pc a).map (Request.next (.deleteSelf u))
  | .adminDeleteUser rq pc, a =>
    (adminDeleteUser t rq pc a).map (Request.next (.adminDeleteUser rq))
  | .signIn rq pc, a => (syncGroupBindings lower t rq pc a).map fun out => (out.1, .signIn rq out.2)
  | .memberPatch rq role pc, a =>
    (memberPatch t rq role pc a).map (Request.next (.memberPatch rq role))
  | .memberDelete rq pc, a => (memberDelete t rq pc a).map (Request.next (.memberDelete rq))
  | .invite rq pc, a => (invite t rq pc a).map (Request.next (.invite rq))
  | .accept rq pc, a => (accept t rq pc a).map (Request.next (.accept rq))
  | .addMember rq pc, a => (addMember t rq pc a).map (Request.next (.addMember rq))

def Tables.commit (t : Tables) : Option Change × Request → Tables × Request
  | (none, q) => (t, q)
  | (some c, q) => if t.fits c then (t.apply c, q) else (t, .ended)

def requestAct (t : Tables) (_ : Nat) (q : Request) (a : StepReply) : Option (Tables × Request) :=
  (statement lower t q a).map t.commit

/-- What takes a single statement: an invitation is rejected or cancelled, and time passes. -/
inductive Event where
  | close (invitationId : Id) (how : Closing)
  | advance (ms : Nat)

def Event.change : Event → Change
  | .close id how => .closeInvitation id how
  | .advance ms => .advance ms

/-- The requests of an instance, from tables that meet `Init`. -/
def membershipProgram (Init : Tables → Prop) : Program Tables Request StepReply Event where
  init := Init
  fresh := Request.fresh
  act := requestAct lower
  env t e := some (t.apply e.change)

def changeOf (p : Pool Tables Request) : Move Request StepReply Event → Option Change
  | .spawn _ => none
  | .act i a =>
    ((p.tasks[i]?).bind fun q => (statement lower p.shared q a).bind (·.1)).filter
      p.shared.fits
  | .env e => some e.change

variable {lower : String → String} {Init : Tables → Prop} {p p' : Pool Tables Request}
  {m : Move Request StepReply Event}

theorem step_change (h : (membershipProgram lower Init).step p m = some p') :
    (changeOf lower p m = none ∧ p'.shared = p.shared) ∨
    ∃ c, changeOf lower p m = some c ∧ p.shared.fits c = true ∧ p'.shared = p.shared.apply c := by
  rcases Program.step_cases h with ⟨q, rfl, -, rfl⟩ | ⟨i, a, q, t', q', rfl, hi, hact, rfl⟩ |
      ⟨e, t', rfl, henv, rfl⟩
  · exact .inl ⟨rfl, rfl⟩
  · obtain ⟨⟨c, next⟩, hstatement, hcommit⟩ := Option.map_eq_some_iff.mp hact
    have hchange : changeOf lower p (.act i a) = c.filter p.shared.fits := by
      simp [changeOf, hi, hstatement]
    cases c with
    | none =>
      cases hcommit
      exact .inl ⟨hchange, rfl⟩
    | some c =>
      cases hfits : p.shared.fits c with
      | true =>
        simp only [commit, hfits, if_true] at hcommit
        cases hcommit
        exact .inr ⟨c, by simp [hchange, hfits], hfits, rfl⟩
      | false =>
        simp only [commit, hfits, false_eq_true, if_false] at hcommit
        cases hcommit
        exact .inl ⟨by simp [hchange, hfits], rfl⟩
  · cases henv
    exact .inr ⟨e.change, rfl, by cases e <;> rfl, rfl⟩

theorem reachable_keys (hinit : ∀ t, Init t → Keys t)
    (h : (membershipProgram lower Init).machine.Reachable p) : Keys p.shared := by
  induction h with
  | init h => exact hinit _ h.1
  | step _ _ hstep ih =>
    rcases step_change hstep with ⟨-, heq⟩ | ⟨c, -, hfits, heq⟩
    · rw [heq]
      exact ih
    · rw [heq]
      exact ih.apply hfits

end program

/-! ## The last owner

Owners are demoted, removed or deleted after a count of the owners, in a statement of its
own. The count has to hold still when the row is written. -/

open Web (Id OrgRole Member StepReply)

/-! ## Owners -/

def HasOwner (t : Tables) (org : Id) : Prop := ∃ m ∈ t.members, isOwnerOf org m = true

/-- No organization loses its owners. -/
def OwnersStay (t t' : Tables) : Prop := ∀ org, HasOwner t org → HasOwner t' org

def Tables.ownerRows (t : Tables) (id : Id) : List Member :=
  t.members.filter fun m => decide (m.id = id ∧ m.role = .owner)

/-- Condition on a change: when it takes an owner's role or row, the organization has another
owner at that moment. -/
def keepsOwners (t : Tables) : Change → Bool
  | .setMemberRole id role =>
    decide (role = .owner) || (t.ownerRows id).all fun m => !t.isLastOwner m.organizationId
  | .deleteMember id => (t.ownerRows id).all fun m => !t.isLastOwner m.organizationId
  | .deleteUser userId => (t.solelyOwned userId).isEmpty
  | _ => true

section changes

variable {t : Tables} {org userId id : Id} {m : Member}

theorem isOwnerOf_iff : isOwnerOf org m = true ↔ m.organizationId = org ∧ m.role = .owner :=
  decide_eq_true_iff

theorem mem_ownerRows : m ∈ t.ownerRows id ↔ m ∈ t.members ∧ m.id = id ∧ m.role = .owner := by
  rw [ownerRows, mem_filter, decide_eq_true_iff]

theorem isLastOwner_eq_false (h : Keys t) (hm : m ∈ t.members) (howner : m.role = .owner) :
    t.isLastOwner m.organizationId = false ↔
      ∃ x ∈ t.members, x.id ≠ m.id ∧ isOwnerOf m.organizationId x = true := by
  rw [isLastOwner, decide_eq_false_iff_not, Nat.not_le]
  exact h.members.one_lt_countP hm (isOwnerOf_iff.mpr ⟨rfl, howner⟩)

theorem all_not_last : ((t.ownerRows id).all fun m => !t.isLastOwner m.organizationId) = true ↔
    ∀ m ∈ t.members, m.id = id → m.role = .owner → t.isLastOwner m.organizationId = false := by
  rw [all_eq_true]
  constructor
  · intro h m hm hid howner
    exact not_eq_true' _ ▸ h m (mem_ownerRows.mpr ⟨hm, hid, howner⟩)
  · intro h m hm
    obtain ⟨hmem, hid, howner⟩ := mem_ownerRows.mp hm
    rw [h m hmem hid howner]
    rfl

theorem ownersStay_of_others {t' : Tables} (h : Keys t)
    (hkept : ∀ x ∈ t.members, x.id ≠ id → x ∈ t'.members)
    (hlast : ∀ m ∈ t.members, m.id = id → m.role = .owner →
      t.isLastOwner m.organizationId = false) : OwnersStay t t' := by
  rintro org ⟨m, hm, howner⟩
  by_cases hid : m.id = id
  · obtain ⟨rfl, hrole⟩ := isOwnerOf_iff.mp howner
    obtain ⟨x, hx, hne, hxowner⟩ :=
      (isLastOwner_eq_false h hm hrole).mp (hlast m hm hid hrole)
    exact ⟨x, hkept x hx (hid ▸ hne), hxowner⟩
  · exact ⟨m, hkept m hm hid, howner⟩

/-- An owner whose organization has one after the change is not the last one, where the owners
of after are others. -/
theorem not_last_of_stay {t' : Tables} (h : Keys t) (hstay : OwnersStay t t')
    (hothers : ∀ org, ∀ x ∈ t'.members, isOwnerOf org x = true →
      x ∈ t.members ∧ x.id ≠ id) (hm : m ∈ t.members) (hid : m.id = id)
    (howner : m.role = .owner) : t.isLastOwner m.organizationId = false := by
  obtain ⟨x, hx, hxowner⟩ := hstay m.organizationId ⟨m, hm, isOwnerOf_iff.mpr ⟨rfl, howner⟩⟩
  obtain ⟨hmem, hne⟩ := hothers _ x hx hxowner
  exact (isLastOwner_eq_false h hm howner).mpr ⟨x, hmem, hid ▸ hne, hxowner⟩

theorem setMemberRole_ownersStay (h : Keys t) (role : OrgRole) :
    OwnersStay t (t.apply (.setMemberRole id role)) ↔
      keepsOwners t (.setMemberRole id role) = true := by
  rw [keepsOwners, or_eq_true, decide_eq_true_iff, all_not_last]
  constructor
  · intro hstay
    by_cases hrole : role = .owner
    · exact .inl hrole
    · refine .inr fun m hm hid howner => not_last_of_stay h hstay (fun org x hx hxowner => ?_) hm hid howner
      rcases mem_update hx with hold | ⟨x₀, -, -, rfl⟩
      · exact hold
      · exact absurd (isOwnerOf_iff.mp hxowner).2 hrole
  · rintro (rfl | hlast)
    · rintro org ⟨m, hm, howner⟩
      by_cases hid : m.id = id
      · refine ⟨{ m with role := .owner }, mem_update_self hm hid, ?_⟩
        exact isOwnerOf_iff.mpr ⟨(isOwnerOf_iff.mp howner).1, rfl⟩
      · exact ⟨m, mem_update_ne hm hid, howner⟩
    · exact ownersStay_of_others h (fun x hx hne => mem_update_ne hx hne) hlast

theorem deleteMember_ownersStay (h : Keys t) :
    OwnersStay t (t.apply (.deleteMember id)) ↔ keepsOwners t (.deleteMember id) = true := by
  rw [keepsOwners, all_not_last]
  constructor
  · intro hstay m hm hid howner
    refine not_last_of_stay h hstay (fun org x hx _ => ?_) hm hid howner
    obtain ⟨hmem, hne⟩ := mem_filter.mp hx
    exact ⟨hmem, of_decide_eq_true hne⟩
  · intro hlast
    exact ownersStay_of_others h
      (fun x hx hne => mem_filter.mpr ⟨hx, decide_eq_true hne⟩) hlast

theorem solelyOwned_isEmpty : (t.solelyOwned userId).isEmpty = true ↔
    ∀ m ∈ t.members, m.userId = userId → m.role = .owner →
      ∃ x ∈ t.members, isOwnerOf m.organizationId x = true ∧ x.userId ≠ userId := by
  simp only [solelyOwned, List.isEmpty_iff, map_eq_nil_iff, filter_eq_nil_iff,
    mem_filter, decide_eq_true_eq, not_eq_true', not_eq_false,
    any_eq_true, and_eq_true, and_imp]

theorem deleteUser_ownersStay :
    OwnersStay t (t.apply (.deleteUser userId)) ↔ keepsOwners t (.deleteUser userId) = true := by
  rw [keepsOwners, solelyOwned_isEmpty]
  constructor
  · intro hstay m hm _ howner
    obtain ⟨x, hx, hxowner⟩ := hstay m.organizationId ⟨m, hm, isOwnerOf_iff.mpr ⟨rfl, howner⟩⟩
    obtain ⟨hmem, hne⟩ := mem_filter.mp hx
    exact ⟨x, hmem, hxowner, of_decide_eq_true hne⟩
  · rintro hothers org ⟨m, hm, howner⟩
    by_cases huser : m.userId = userId
    · obtain ⟨rfl, hrole⟩ := isOwnerOf_iff.mp howner
      obtain ⟨x, hx, hxowner, hne⟩ := hothers m hm huser hrole
      exact ⟨x, mem_filter.mpr ⟨hx, decide_eq_true hne⟩, hxowner⟩
    · exact ⟨m, mem_filter.mpr ⟨hm, decide_eq_true huser⟩, howner⟩

/-- A change leaves every organization an owner if and only if it meets its condition. -/
theorem apply_ownersStay (h : Keys t) (c : Change) :
    OwnersStay t (t.apply c) ↔ keepsOwners t c = true := by
  have hsame {t' : Tables} (hsub : ∀ m ∈ t.members, m ∈ t'.members) : OwnersStay t t' := by
    rintro org ⟨m, hm, howner⟩
    exact ⟨m, hsub m hm, howner⟩
  cases c with
  | setMemberRole id role => exact setMemberRole_ownersStay h role
  | deleteMember id => exact deleteMember_ownersStay h
  | deleteUser id => exact deleteUser_ownersStay
  | insertMember m => exact iff_of_true (hsame fun x hx => mem_append_left _ hx) rfl
  | _ => exact iff_of_true (hsame fun x hx => hx) rfl

end changes

section runs

variable {lower : String → String} {p p' : Pool Tables Request} {m : Move Request StepReply Event}

/-- Condition on a step: the change it makes, if it makes one, meets its condition. -/
def keepsOwnersStep (lower : String → String) (p : Pool Tables Request)
    (m : Move Request StepReply Event) : Bool :=
  (changeOf lower p m).all (keepsOwners p.shared)

abbrev KeepsOwners (lower : String → String) (p : Pool Tables Request)
    (m : Move Request StepReply Event) : Prop := keepsOwnersStep lower p m = true

theorem step_ownersStay (h : Keys p.shared)
    (hstep : (membershipProgram lower Keys).step p m = some p') :
    OwnersStay p.shared p'.shared ↔ KeepsOwners lower p m := by
  show _ ↔ keepsOwnersStep lower p m = true
  unfold keepsOwnersStep
  rcases step_change hstep with ⟨hnone, heq⟩ | ⟨c, hsome, -, heq⟩
  · rw [hnone, heq]
    exact iff_of_true (fun _ h => h) rfl
  · rw [hsome, heq]
    exact apply_ownersStay h c

end runs

/-- **The last owner stays** through every step that meets its condition, whatever came
before, and through no other. -/
theorem last_owner_stays (lower : String → String) {p : Pool Tables Request}
    (hreach : (membershipProgram lower Keys).machine.Reachable p) :
    (∀ p', (membershipProgram lower Keys).machine.Path (KeepsOwners lower) p p' →
      OwnersStay p.shared p'.shared) ∧
    ∀ m p', (membershipProgram lower Keys).step p m = some p' →
      (OwnersStay p.shared p'.shared ↔ KeepsOwners lower p m) := by
  have hkeys (p : Pool Tables Request)
      (h : (membershipProgram lower Keys).machine.Reachable p) : Keys p.shared :=
    reachable_keys (fun _ h => h) h
  refine ⟨fun p' hpath => ?_, fun m p' hstep => step_ownersStay (hkeys p hreach) hstep⟩
  have hboth : (membershipProgram lower Keys).machine.Reachable p' ∧
      OwnersStay p.shared p'.shared := by
    induction hpath with
    | refl => exact ⟨hreach, fun _ h => h⟩
    | step _ hkeeps hstep ih =>
      obtain ⟨hreach', hstay⟩ := ih
      have hnext := (step_ownersStay (hkeys _ hreach') hstep).mpr hkeeps
      exact ⟨hreach'.step trivial hstep, fun org h => hnext org (hstay org h)⟩
  exact hboth.2

def twoOwners : Tables where
  users := [⟨"ada", "ada@example.com", .admin⟩, ⟨"bob", "bob@example.com", .user⟩]
  organizations := [{ id := "o1", slug := "acme", name := "Acme" }]
  members := [⟨"m1", "o1", "ada", .owner⟩, ⟨"m2", "o1", "bob", .owner⟩]

theorem twoOwners_init : (membershipProgram id Keys).machine.init ⟨twoOwners, []⟩ :=
  ⟨⟨by decide, by decide⟩, rfl⟩

/-- Each of the two is demoted, the second time after the first is through. -/
def demotedInTurn : List (Move Request StepReply Event) :=
  [.spawn (.memberPatch ⟨"acme", "bob"⟩ .member .loadOrg),
    .spawn (.memberPatch ⟨"acme", "ada"⟩ .member .loadOrg),
    .act 0 .ok, .act 0 .ok, .act 0 .ok, .act 0 .ok, .act 1 .ok, .act 1 .ok, .act 1 .ok]

theorem last_owner_stays_demoted : ∃ p : Pool Tables Request,
      (membershipProgram id Keys).machine.Path (KeepsOwners id) ⟨twoOwners, []⟩ p ∧
      p.shared.members = [⟨"m1", "o1", "ada", .owner⟩, ⟨"m2", "o1", "bob", .member⟩] ∧
      OwnersStay twoOwners p.shared := by
  have hfacts : ((membershipProgram id Keys).machine.replay (KeepsOwners id) ⟨twoOwners, []⟩
      demotedInTurn).map (fun p => p.shared.members) =
        some [⟨"m1", "o1", "ada", .owner⟩, ⟨"m2", "o1", "bob", .member⟩] := by
    decide +kernel
  obtain ⟨p, hp, hmembers⟩ := Option.map_eq_some_iff.mp hfacts
  have hpath := Machine.path_of_replay (M := (membershipProgram id Keys).machine) hp
  exact ⟨p, hpath, hmembers, (last_owner_stays id (.init twoOwners_init)).1 p hpath⟩

def demotedTogether : List (Move Request StepReply Event) :=
  [.spawn (.memberPatch ⟨"acme", "bob"⟩ .member .loadOrg),
    .spawn (.memberPatch ⟨"acme", "ada"⟩ .member .loadOrg),
    .act 0 .ok, .act 0 .ok, .act 0 .ok, .act 1 .ok, .act 1 .ok, .act 1 .ok, .act 0 .ok, .act 1 .ok]

theorem both_owners_demoted :
    ¬ ∀ p : Pool Tables Request, (membershipProgram id Keys).machine.Reachable p →
      ∀ p', (membershipProgram id Keys).machine.Path (fun _ _ => True) p p' →
        OwnersStay p.shared p'.shared := by
  intro hall
  have hfacts : ((membershipProgram id Keys).machine.replay (fun _ _ => True) ⟨twoOwners, []⟩
      demotedTogether).map (fun p => p.shared.members) =
        some [⟨"m1", "o1", "ada", .member⟩, ⟨"m2", "o1", "bob", .member⟩] := by
    decide +kernel
  obtain ⟨p, hp, hmembers⟩ := Option.map_eq_some_iff.mp hfacts
  have hpath := Machine.path_of_replay (M := (membershipProgram id Keys).machine) hp
  obtain ⟨m, hm, howner⟩ := hall _ (.init twoOwners_init) p hpath "o1"
    ⟨⟨"m1", "o1", "ada", .owner⟩, mem_cons_self, rfl⟩
  rw [hmembers] at hm
  rcases mem_cons.mp hm with rfl | hm
  · cases howner
  · rcases mem_singleton.mp hm with rfl
    cases howner

end Chicoree.Memberships
