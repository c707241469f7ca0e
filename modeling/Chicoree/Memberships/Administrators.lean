import Chicoree.Memberships.Requests

/-! # The administrator of an instance

The first account becomes administrator. Whether an account is the first is counted before it
is inserted, and group bindings, like deletions by administrators, take the role away without
a look at the other administrators. -/

namespace Chicoree.Memberships

open Option (map_eq_some_iff)
open Web (Id StepReply BindingPc Bindings)
open Transition List Machine Table

/-! ## Administrators -/

def User.isAdmin (u : User) : Bool := decide (u.role = .admin)

def HasAdmin (t : Tables) : Prop := ∃ u ∈ t.users, u.isAdmin = true

/-- At most one account became administrator for being the first. -/
def FirstOnce (t : Tables) : Prop := t.creations.countP (fun c => decide (c.existing = 0)) ≤ 1

/-- No account but the first was created while sign-up was closed. -/
def ClosedToOthers (t : Tables) : Prop := ∀ c ∈ t.creations.tail, c.mode ≠ .closed

def Tables.isLastAdmin (t : Tables) (userId : Id) : Bool :=
  (t.users.any fun u => decide (u.id = userId) && u.isAdmin) && decide (t.admins ≤ 1)

/-- Condition on a change: an account inserted as the first one is the first, and the last
administrator keeps role and account. -/
def keepsAdmin (t : Tables) : Change → Bool
  | .insertUser _ existing _ => decide (existing ≠ 0) || t.creations.isEmpty
  | .setUserRole id role => decide (role = .admin) || !t.isLastAdmin id
  | .deleteUser id => !t.isLastAdmin id
  | _ => true

variable {t' : Tables} {u : User} {existing : Nat} {mode : SignUpMode}

section changes

variable {t : Tables} {id : Id}

theorem isLastAdmin_eq_false (h : Keys t) : t.isLastAdmin id = false ↔
    ∀ u ∈ t.users, u.id = id → u.isAdmin = true → ∃ x ∈ t.users, x.id ≠ id ∧ x.isAdmin = true := by
  have hadmins : t.admins = t.users.countP User.isAdmin := rfl
  simp only [Tables.isLastAdmin, Bool.and_eq_false_iff, any_eq_false, Bool.and_eq_true,
    decide_eq_true_eq, decide_eq_false_iff_not, Nat.not_le, not_and]
  constructor
  · rintro (hnone | hmore) u hu rfl hadmin
    · exact absurd hadmin (hnone u hu rfl)
    · exact (h.users.one_lt_countP hu hadmin).mp (hadmins ▸ hmore)
  · intro hother
    by_cases hall : ∀ u ∈ t.users, u.id = id → ¬ u.isAdmin = true
    · exact .inl hall
    · rw [not_forall] at hall
      obtain ⟨u, hall⟩ := hall
      rw [Classical.not_imp, Classical.not_imp, Classical.not_not] at hall
      obtain ⟨hu, rfl, hadmin⟩ := hall
      exact .inr (hadmins ▸ (h.users.one_lt_countP hu hadmin).mpr (hother u hu rfl hadmin))

theorem hasAdmin_of_others (h : Keys t) (hothers : ∀ x : User, x.isAdmin = true →
      (x ∈ t'.users ↔ x ∈ t.users ∧ x.id ≠ id)) :
    (HasAdmin t → HasAdmin t') ↔ t.isLastAdmin id = false := by
  rw [isLastAdmin_eq_false h]
  constructor
  · intro hstay u hu _ hadmin
    obtain ⟨x, hx, hxadmin⟩ := hstay ⟨u, hu, hadmin⟩
    obtain ⟨hmem, hne⟩ := (hothers x hxadmin).mp hx
    exact ⟨x, hmem, hne, hxadmin⟩
  · rintro hother ⟨u, hu, hadmin⟩
    by_cases hid : u.id = id
    · obtain ⟨x, hx, hne, hxadmin⟩ := hother u hu hid hadmin
      exact ⟨x, (hothers x hxadmin).mpr ⟨hx, hne⟩, hxadmin⟩
    · exact ⟨u, (hothers u hadmin).mpr ⟨hu, hid⟩, hadmin⟩

theorem setUserRole_hasAdmin (h : Keys t) (role : InstanceRole) :
    (HasAdmin t → HasAdmin (t.apply (.setUserRole id role))) ↔
      keepsAdmin t (.setUserRole id role) = true := by
  rw [keepsAdmin, Bool.or_eq_true, decide_eq_true_iff, Bool.not_eq_true']
  cases role with
  | admin =>
    refine iff_of_true ?_ (.inl rfl)
    rintro ⟨u, hu, hadmin⟩
    by_cases hid : u.id = id
    · exact ⟨{ u with role := .admin }, mem_update_self hu hid, rfl⟩
    · exact ⟨u, mem_update_ne hu hid, hadmin⟩
  | user =>
    have hstays : (HasAdmin t → HasAdmin (t.apply (.setUserRole id .user))) ↔
        t.isLastAdmin id = false := by
      refine hasAdmin_of_others h fun x hx => ⟨fun hmem => ?_, fun hmem => ?_⟩
      · rcases mem_update hmem with hold | ⟨u, -, -, rfl⟩
        · exact hold
        · cases hx
      · exact mem_update_ne hmem.1 hmem.2
    rw [hstays]
    simp

theorem deleteUser_hasAdmin (h : Keys t) :
    (HasAdmin t → HasAdmin (t.apply (.deleteUser id))) ↔ keepsAdmin t (.deleteUser id) = true := by
  rw [keepsAdmin, Bool.not_eq_true']
  refine hasAdmin_of_others h fun x _ => ?_
  show x ∈ t.users.filter _ ↔ _
  rw [mem_filter, decide_eq_true_iff]

theorem insertUser_first (hfirst : FirstOnce t) (hclosed : ClosedToOthers t)
    (hsome : t.creations ≠ [] → ∃ c ∈ t.creations, c.existing = 0)
    (hmode : existing ≠ 0 → mode ≠ .closed) :
    (FirstOnce (t.apply (.insertUser u existing mode)) ∧
      ClosedToOthers (t.apply (.insertUser u existing mode))) ↔
      keepsAdmin t (.insertUser u existing mode) = true := by
  have hcount : (t.apply (.insertUser u existing mode)).creations.countP
      (fun c => decide (c.existing = 0)) =
        t.creations.countP (fun c => decide (c.existing = 0)) + if existing = 0 then 1 else 0 := by
    show (t.creations ++ [(⟨u.id, existing, mode⟩ : Creation)]).countP _ = _
    rw [countP_append, countP_singleton]
    simp only [decide_eq_true_eq]
  rw [keepsAdmin, Bool.or_eq_true, decide_eq_true_iff, List.isEmpty_iff]
  unfold FirstOnce ClosedToOthers at *
  rw [hcount]
  constructor
  · rintro ⟨honce, -⟩
    by_cases hzero : existing = 0
    · refine .inr (Classical.byContradiction fun hne => ?_)
      obtain ⟨c, hc, hcounted⟩ := hsome hne
      have hpos : 0 < t.creations.countP (fun c => decide (c.existing = 0)) :=
        countP_pos_iff.mpr ⟨c, hc, decide_eq_true hcounted⟩
      rw [if_pos hzero] at honce
      omega
    · exact .inl hzero
  · intro hcond
    show _ ∧ ∀ c ∈ (t.creations ++ [(⟨u.id, existing, mode⟩ : Creation)]).tail, c.mode ≠ .closed
    rcases hcond with hne | hnil
    · refine ⟨by rw [if_neg hne]; exact hfirst, fun c hc => ?_⟩
      cases hcreations : t.creations with
      | nil =>
        rw [hcreations] at hc
        cases hc
      | cons d ds =>
        rw [hcreations, cons_append, tail_cons] at hc
        rcases mem_append.mp hc with hc | hc
        · exact hclosed c (by rw [hcreations]; exact hc)
        · rw [mem_singleton.mp hc]
          exact hmode hne
    · rw [hnil]
      refine ⟨?_, nofun⟩
      split <;> simp

end changes

/-! ## What each statement changes -/

variable {q q' : Request}

section statements

variable {t : Tables} {a : StepReply} {c : Change}

def Change.createsAccount : Change → Bool
  | .insertUser .. => true
  | _ => false

variable {userId : Id}

theorem ensureLibraryOrg_change {pc pc' : LibraryPc}
    (h : ensureLibraryOrg t userId pc a = some (some c, pc')) : c.createsAccount = false := by
  cases pc <;> cases a <;> simp only [ensureLibraryOrg, reduceCtorEq] at h
  case find.ok => split at h <;> cases h
  case insertOrg.fresh =>
    split at h <;> cases h
    rfl
  case member.ok => split at h <;> cases h
  case insertMember.fresh =>
    cases h
    rfl

theorem syncMemberships_change {todo todo' : Bindings} {pc pc' : BindingPc}
    (h : syncMemberships t userId todo pc a = some (some c, todo', pc')) :
    c.createsAccount = false := by
  unfold syncMemberships at h
  split at h
  · split at h
    · cases h
    · split at h <;> cases h
    · cases h
    · cases h
  · split at h <;> cases h
  · cases h
    rfl
  · split at h <;> cases h
  · cases h
    rfl
  · cases h
    rfl
  · cases h

variable {lower : String → String}

theorem syncGroupBindings_change {rq : SignInRequest}
    {pc pc' : SignInPc} (h : syncGroupBindings lower t rq pc a = some (some c, pc')) :
    c.createsAccount = false := by
  unfold syncGroupBindings at h
  split at h
  · cases h
  · split at h
    · split at h <;> cases h
    · cases h
  · cases h
    rfl
  · cases h
  · obtain ⟨⟨c', pc''⟩, hout, heq⟩ := map_eq_some_iff.mp h
    cases heq
    exact ensureLibraryOrg_change hout
  · cases h
  · obtain ⟨⟨c', todo', pc''⟩, hout, heq⟩ := map_eq_some_iff.mp h
    cases heq
    exact syncMemberships_change hout
  · cases h

/-- Where a request for an account stands with its count. -/
inductive Counted (lower : String → String) (t : Tables) (rq : CreateRequest) :
    CreatePc → Option CreatePc → Prop where
  | count : Counted lower t rq .count (some (.policy t.users.length))
  | allowed (existing : Nat) :
      enforceSignUpPolicy lower t rq (decide (existing = 0)) = true →
      Counted lower t rq (.policy existing) (some (.insert existing))
  | other (pc : CreatePc) (pc' : Option CreatePc) :
      (∀ n, pc' ≠ some (.policy n) ∧ pc' ≠ some (.insert n)) → Counted lower t rq pc pc'

variable {rq : CreateRequest}

theorem createAccount_cases {pc : CreatePc} {c : Option Change} {pc' : Option CreatePc}
    (h : createAccount lower t rq pc a = some (c, pc')) :
    Counted lower t rq pc pc' ∧
    ∀ c', c = some c' → c'.createsAccount = true → ∃ existing id, pc = .insert existing ∧
      c' = .insertUser ⟨id, rq.email, firstRole existing⟩ existing rq.access.signUpMode := by
  unfold createAccount at h
  split at h
  · cases h
    exact ⟨.count, nofun⟩
  · rename_i existing
    split at h <;> cases h
    · exact ⟨.allowed existing ‹_›, nofun⟩
    · exact ⟨.other _ _ (by simp), nofun⟩
  · rename_i existing id
    cases h
    refine ⟨.other _ _ (by split <;> simp), fun c' hc _ => ?_⟩
    cases hc
    exact ⟨existing, id, rfl, rfl⟩
  · cases h
    exact ⟨.other _ _ (by simp), nofun⟩
  · obtain ⟨⟨c₁, pc₁⟩, hout, heq⟩ := map_eq_some_iff.mp h
    cases heq
    refine ⟨.other _ _ (by simp), fun c' hc hcreates => ?_⟩
    cases hc
    rw [ensureLibraryOrg_change hout] at hcreates
    cases hcreates
  · cases h

theorem deleteSelf_change {pc : DeleteSelfPc} {pc' : Option DeleteSelfPc}
    (h : deleteSelf t userId pc a = some (some c, pc')) : c.createsAccount = false := by
  unfold deleteSelf at h
  split at h
  · cases h
  · split at h <;> cases h
  · cases h
  · cases h
    rfl
  · cases h

theorem adminDeleteUser_change {rq : AdminDeleteRequest} {pc : AdminDeletePc}
    {pc' : Option AdminDeletePc}
    (h : adminDeleteUser t rq pc a = some (some c, pc')) : c.createsAccount = false := by
  unfold adminDeleteUser at h
  split at h <;> cases h
  rfl

variable {pc : MemberPc} {pc' : Option MemberPc}

theorem memberPatch_change {rq : MemberRequest} {role : Web.OrgRole}
    (h : memberPatch t rq role pc a = some (some c, pc')) : c.createsAccount = false := by
  unfold memberPatch at h
  split at h <;> cases h
  rfl

theorem memberDelete_change {rq : MemberRequest}
    (h : memberDelete t rq pc a = some (some c, pc')) : c.createsAccount = false := by
  unfold memberDelete at h
  split at h <;> cases h
  rfl

theorem invite_change {rq : InviteRequest} {pc : InvitePc} {pc' : Option InvitePc}
    (h : invite t rq pc a = some (some c, pc')) : c.createsAccount = false := by
  unfold invite at h
  split at h <;> cases h
  rfl

theorem accept_change {rq : AcceptRequest} {pc : AcceptPc} {pc' : Option AcceptPc}
    (h : accept t rq pc a = some (some c, pc')) : c.createsAccount = false := by
  unfold accept at h
  split at h <;> cases h <;> rfl

theorem addMember_change {rq : AddRequest} {pc : AddPc} {pc' : Option AddPc}
    (h : addMember t rq pc a = some (some c, pc')) : c.createsAccount = false := by
  unfold addMember at h
  split at h <;> cases h
  rfl

theorem statement_creates
    (h : statement lower t q a = some (some c, q')) (hcreates : c.createsAccount = true) :
    ∃ rq existing id, q = .createAccount rq (.insert existing) ∧
      c = .insertUser ⟨id, rq.email, firstRole existing⟩ existing rq.access.signUpMode := by
  have hnone (hquiet : c.createsAccount = false) : False := by
    rw [hquiet] at hcreates
    cases hcreates
  unfold statement at h
  split at h
  · cases h
  · cases h
  · cases h
  all_goals
    obtain ⟨⟨c₁, pc₁⟩, hout, heq⟩ := map_eq_some_iff.mp h
    cases heq
  · obtain ⟨existing, id, rfl, rfl⟩ := (createAccount_cases hout).2 c rfl hcreates
    exact ⟨_, existing, id, rfl, rfl⟩
  · exact (hnone (deleteSelf_change hout)).elim
  · exact (hnone (adminDeleteUser_change hout)).elim
  · exact (hnone (syncGroupBindings_change hout)).elim
  · exact (hnone (memberPatch_change hout)).elim
  · exact (hnone (memberDelete_change hout)).elim
  · exact (hnone (invite_change hout)).elim
  · exact (hnone (accept_change hout)).elim
  · exact (hnone (addMember_change hout)).elim

theorem statement_createAccount {c : Option Change} {pc' : CreatePc}
    (h : statement lower t q a = some (c, .createAccount rq pc')) :
    ∃ pc, q = .createAccount rq pc ∧ Counted lower t rq pc (some pc') := by
  unfold statement at h
  split at h
  · cases h
  · cases h
  · cases h
  all_goals obtain ⟨⟨c₁, pc₁⟩, hout, heq⟩ := map_eq_some_iff.mp h
  · cases pc₁ with
    | none => cases heq
    | some pc₁ =>
      cases heq
      exact ⟨_, rfl, (createAccount_cases hout).1⟩
  · cases pc₁ <;> cases heq
  · cases pc₁ <;> cases heq
  · cases heq
  · cases pc₁ <;> cases heq
  · cases pc₁ <;> cases heq
  · cases pc₁ <;> cases heq
  · cases pc₁ <;> cases heq
  · cases pc₁ <;> cases heq

end statements

/-! ## Every order -/

section runs

variable {lower : String → String} {p p' : Pool Tables Request} {m : Move Request StepReply Event}

/-- What a history keeps, whatever its order: an instance without accounts has created none,
and one of those created was counted first. -/
structure History (t : Tables) : Prop where
  keys : Keys t
  none_yet : t.creations = [] → t.users = []
  first : t.creations ≠ [] → ∃ c ∈ t.creations, c.existing = 0

/-- A count of no account is right while none was created, and a count of others lets nobody in
while sign-up is closed. -/
def CountedRight (t : Tables) (_ : Nat) : Request → Prop
  | .createAccount _ (.policy existing) => t.creations = [] → existing = 0
  | .createAccount rq (.insert existing) =>
    (t.creations = [] → existing = 0) ∧ (existing ≠ 0 → rq.access.signUpMode ≠ .closed)
  | _ => True

/-- An instance to start from, with no account or with one that was the first. -/
structure InstanceInOrder (t : Tables) : Prop where
  history : History t
  firstOnce : FirstOnce t
  closed : ClosedToOthers t

theorem apply_creations (t : Tables) (c : Change) : (t.apply c).creations = t.creations ∨
    ∃ u existing mode, c = .insertUser u existing mode ∧
      (t.apply c).creations = t.creations ++ [⟨u.id, existing, mode⟩] := by
  cases c with
  | insertUser u existing mode => exact .inr ⟨u, existing, mode, rfl, rfl⟩
  | _ => exact .inl rfl

variable {t : Tables} {i : Nat}

theorem CountedRight.later (h : CountedRight t i q)
    (hgrows : t'.creations = [] → t.creations = []) : CountedRight t' i q := by
  cases q with
  | createAccount rq pc =>
    cases pc with
    | policy existing => exact fun hnil => h (hgrows hnil)
    | insert existing => exact ⟨fun hnil => h.1 (hgrows hnil), h.2⟩
    | _ => trivial
  | _ => trivial

theorem History.apply {c : Change} (h : History t) (hfits : t.fits c = true)
    (hcreates : ∀ u existing mode, c = .insertUser u existing mode → t.creations = [] →
      existing = 0) : History (t.apply c) := by
  refine ⟨h.keys.apply hfits, ?_, ?_⟩
  · cases c with
    | insertUser u existing mode => exact fun hnil => by simp [Tables.apply] at hnil
    | setUserRole id role =>
      intro hnil
      show t.users.map _ = []
      rw [h.none_yet hnil]
      rfl
    | deleteUser id =>
      intro hnil
      show t.users.filter _ = []
      rw [h.none_yet hnil]
      rfl
    | _ => exact h.none_yet
  · intro hne
    rcases apply_creations t c with hsame | ⟨u, existing, mode, rfl, happend⟩
    · rw [hsame] at hne ⊢
      exact h.first hne
    · rw [happend]
      by_cases hnil : t.creations = []
      · have hzero := hcreates u existing mode rfl hnil
        exact ⟨⟨u.id, existing, mode⟩, mem_append_right _ (mem_singleton_self _), hzero⟩
      · obtain ⟨c, hc, hcounted⟩ := h.first hnil
        exact ⟨c, mem_append_left _ hc, hcounted⟩

theorem creations_grow (t : Tables) (c : Change) (h : (t.apply c).creations = []) :
    t.creations = [] := by
  rcases apply_creations t c with hsame | ⟨u, existing, mode, -, happend⟩
  · rw [← hsame]
    exact h
  · rw [happend] at h
    simp at h

variable {a : StepReply}

theorem requestAct_cases (h : requestAct lower t i q a = some (t', q')) :
    (∃ c, statement lower t q a = some (some c, q') ∧ t.fits c = true ∧ t' = t.apply c) ∨
    (t' = t ∧ (q' = .ended ∨ statement lower t q a = some (none, q'))) := by
  obtain ⟨⟨c, next⟩, hstatement, hcommit⟩ := map_eq_some_iff.mp h
  cases c with
  | none =>
    cases hcommit
    exact .inr ⟨rfl, .inr hstatement⟩
  | some c =>
    simp only [Tables.commit] at hcommit
    split at hcommit <;> cases hcommit
    · exact .inl ⟨c, hstatement, ‹_›, rfl⟩
    · exact .inr ⟨rfl, .inl rfl⟩

theorem statement_counted {c : Option Change} (hhistory : History t) (hq : CountedRight t i q)
    (h : statement lower t q a = some (c, q')) : CountedRight t i q' := by
  cases q' with
  | createAccount rq pc' =>
    obtain ⟨pc, rfl, hcounted⟩ := statement_createAccount h
    generalize hpc : (some pc' : Option CreatePc) = next at hcounted
    cases hcounted with
    | count =>
      cases hpc
      intro hnil
      rw [hhistory.none_yet hnil]
      rfl
    | allowed existing hallowed =>
      cases hpc
      refine ⟨hq, fun hne hclosed => ?_⟩
      simp [enforceSignUpPolicy, hne, hclosed] at hallowed
    | other pc next hother =>
      subst hpc
      cases pc' with
      | policy existing => exact absurd rfl (hother existing).1
      | insert existing => exact absurd rfl (hother existing).2
      | _ => trivial
  | _ => trivial

theorem requestAct_grows (h : requestAct lower t i q a = some (t', q')) (hnil : t'.creations = []) :
    t.creations = [] := by
  rcases requestAct_cases h with ⟨c, -, -, rfl⟩ | ⟨rfl, -⟩
  · exact creations_grow t c hnil
  · exact hnil

theorem history_outline : (membershipProgram lower InstanceInOrder).Outline (fun _ _ => True)
    History CountedRight where
  init t h := h.history
  spawn p q _ _ hfresh := by
    cases q with
    | createAccount rq pc => cases pc <;> trivial
    | _ => trivial
  act p i a q t' q' h _ hi hact := by
    have hq := h.tasks i q hi
    have hgrows : t'.creations = [] → p.shared.creations = [] := requestAct_grows (i := i) hact
    rcases requestAct_cases (i := i) hact with ⟨c, hstatement, hfits, rfl⟩ | ⟨rfl, hends⟩
    · refine ⟨h.shared.apply hfits fun u existing mode hc hnil => ?_,
        (statement_counted h.shared hq hstatement).later hgrows⟩
      obtain ⟨rq, existing', id, rfl, hc'⟩ := statement_creates hstatement (by rw [hc]; rfl)
      rw [hc] at hc'
      cases hc'
      exact hq.1 hnil
    · refine ⟨h.shared, ?_⟩
      rcases hends with rfl | hstatement
      · trivial
      · exact statement_counted h.shared hq hstatement
  interfere p i a q t' q' h _ hi hact j r _ hj :=
    (h.tasks j r hj).later (requestAct_grows (i := i) hact)
  env p e t' h _ henv := by
    cases henv
    have hfits : p.shared.fits e.change = true := by cases e <;> rfl
    constructor
    · refine h.shared.apply hfits fun u existing mode hc => ?_
      cases e <;> cases hc
    · exact fun j r hj => (h.tasks j r hj).later (creations_grow p.shared e.change)

/-- Condition on a step: the change it makes, if it makes one, meets its condition. -/
def keepsAdminStep (lower : String → String) (p : Pool Tables Request)
    (m : Move Request StepReply Event) : Bool :=
  (changeOf lower p m).all (keepsAdmin p.shared)

abbrev KeepsAdmin (lower : String → String) (p : Pool Tables Request)
    (m : Move Request StepReply Event) : Prop := keepsAdminStep lower p m = true

/-- The promise over one step. -/
structure AdminStep (t t' : Tables) : Prop where
  firstOnce : FirstOnce t'
  closed : ClosedToOthers t'
  stays : HasAdmin t → HasAdmin t'

theorem changeOf_insertUser (h : Program.Holds History CountedRight p)
    (hc : changeOf lower p m = some (.insertUser u existing mode)) :
    existing ≠ 0 → mode ≠ .closed := by
  cases m with
  | spawn q => cases hc
  | env e => cases e <;> cases hc
  | act i a =>
    obtain ⟨hbind, -⟩ := Option.filter_eq_some_iff.mp hc
    obtain ⟨q, hi, hbind⟩ := Option.bind_eq_some_iff.mp hbind
    obtain ⟨⟨c, q'⟩, hstatement, rfl⟩ := Option.bind_eq_some_iff.mp hbind
    obtain ⟨rq, existing', id, rfl, hc'⟩ := statement_creates hstatement rfl
    cases hc'
    exact (h.tasks i _ hi).2

theorem step_adminStep (h : Program.Holds History CountedRight p) (hfirst : FirstOnce p.shared)
    (hclosed : ClosedToOthers p.shared)
    (hstep : (membershipProgram lower InstanceInOrder).step p m = some p') :
    AdminStep p.shared p'.shared ↔ KeepsAdmin lower p m := by
  show _ ↔ keepsAdminStep lower p m = true
  unfold keepsAdminStep
  rcases step_change hstep with ⟨hnone, heq⟩ | ⟨c, hsome, -, heq⟩
  · rw [hnone, heq]
    exact iff_of_true ⟨hfirst, hclosed, fun h => h⟩ rfl
  · rw [hsome, heq, Option.all_some]
    have hsame (t' : Tables) (hcreations : t'.creations = p.shared.creations)
        {P : Prop} (hiff : (HasAdmin p.shared → HasAdmin t') ↔ P) :
        AdminStep p.shared t' ↔ P := by
      constructor
      · intro h'
        exact hiff.mp h'.stays
      · intro hP
        refine ⟨?_, ?_, hiff.mpr hP⟩
        · unfold FirstOnce
          rw [hcreations]
          exact hfirst
        · unfold ClosedToOthers
          rw [hcreations]
          exact hclosed
    cases c with
    | insertUser u existing mode =>
      have hmode := changeOf_insertUser h hsome
      have hiff := insertUser_first hfirst hclosed h.shared.first (u := u) hmode
      constructor
      · intro h'
        exact hiff.mp ⟨h'.firstOnce, h'.closed⟩
      · intro hkeeps
        obtain ⟨hfirst', hclosed'⟩ := hiff.mpr hkeeps
        refine ⟨hfirst', hclosed', ?_⟩
        rintro ⟨x, hx, hadmin⟩
        exact ⟨x, mem_append_left _ hx, hadmin⟩
    | setUserRole id role =>
      exact hsame (p.shared.apply (.setUserRole id role)) rfl
        (setUserRole_hasAdmin h.shared.keys role)
    | deleteUser id =>
      exact hsame (p.shared.apply (.deleteUser id)) rfl (deleteUser_hasAdmin h.shared.keys)
    | _ =>
      refine hsame _ ?_ (iff_of_true (fun h => h) rfl)
      rfl

end runs

/-- **The administrator** is handed out once and stays as long as every step meets its
condition, and the first step that does not ends that. -/
theorem administrator_stays (lower : String → String) {p : Pool Tables Request}
    (hrun : (membershipProgram lower InstanceInOrder).machine.Run (KeepsAdmin lower) p) :
    FirstOnce p.shared ∧ ClosedToOthers p.shared ∧
    (∀ p', (membershipProgram lower InstanceInOrder).machine.Path (KeepsAdmin lower) p p' →
      HasAdmin p.shared → HasAdmin p'.shared) ∧
    ∀ m p', (membershipProgram lower InstanceInOrder).step p m = some p' →
      ((FirstOnce p'.shared ∧ ClosedToOthers p'.shared ∧
        (HasAdmin p.shared → HasAdmin p'.shared)) ↔ KeepsAdmin lower p m) := by
  have hkept (p : Pool Tables Request)
      (hrun : (membershipProgram lower InstanceInOrder).machine.Run (KeepsAdmin lower) p) :
      Program.Holds History CountedRight p ∧ FirstOnce p.shared ∧ ClosedToOthers p.shared := by
    refine ⟨history_outline.run hrun.reachable, ?_⟩
    induction hrun with
    | init hinit => exact ⟨hinit.1.firstOnce, hinit.1.closed⟩
    | step hrun hkeeps hstep ih =>
      have hholds := history_outline.run hrun.reachable
      have h' := (step_adminStep hholds ih.1 ih.2 hstep).mpr hkeeps
      exact ⟨h'.firstOnce, h'.closed⟩
  obtain ⟨hholds, hfirst, hclosed⟩ := hkept p hrun
  refine ⟨hfirst, hclosed, fun p' hpath => ?_, fun m p' hstep => ?_⟩
  · have hboth : (membershipProgram lower InstanceInOrder).machine.Run (KeepsAdmin lower) p' ∧
        (HasAdmin p.shared → HasAdmin p'.shared) := by
      induction hpath with
      | refl => exact ⟨hrun, fun h => h⟩
      | step _ hkeeps hstep ih =>
        obtain ⟨hrun', hstays⟩ := ih
        obtain ⟨hholds', hfirst', hclosed'⟩ := hkept _ hrun'
        have h' := (step_adminStep hholds' hfirst' hclosed' hstep).mpr hkeeps
        exact ⟨hrun'.step hkeeps hstep, fun h => h'.stays (hstays h)⟩
    exact hboth.2
  · have hiff := step_adminStep hholds hfirst hclosed hstep
    rw [← hiff]
    exact ⟨fun h => ⟨h.1, h.2.1, h.2.2⟩, fun h => ⟨h.firstOnce, h.closed, h.stays⟩⟩

theorem noAccounts_init : (membershipProgram id InstanceInOrder).machine.init ⟨{}, []⟩ := by
  have hhistory : History {} := ⟨⟨nodup_nil, nodup_nil⟩, fun _ => rfl, fun h => absurd rfl h⟩
  exact ⟨⟨hhistory, Nat.zero_le 1, nofun⟩, rfl⟩

def adaSignsUp (mode : SignUpMode) : CreateRequest := { email := "ada@example.com", access := ⟨mode, []⟩ }
def bobSignsUp (mode : SignUpMode) : CreateRequest := { email := "bob@example.com", access := ⟨mode, []⟩ }

def oneAfterTheOther : List (Move Request StepReply Event) :=
  [.spawn (.createAccount (adaSignsUp .closed) .count), .act 0 .ok, .act 0 .ok, .act 0 (.fresh "ada"),
    .act 0 .ok, .act 0 (.fresh "o0"), .act 0 .ok, .act 0 (.fresh "m0"),
    .spawn (.createAccount (bobSignsUp .anyone) .count), .act 1 .ok, .act 1 .ok,
    .act 1 (.fresh "bob")]

theorem administrator_stays_first : ∃ p : Pool Tables Request,
      (membershipProgram id InstanceInOrder).machine.Run (KeepsAdmin id) p ∧
      p.shared.users = [⟨"ada", "ada@example.com", .admin⟩, ⟨"bob", "bob@example.com", .user⟩] ∧
      FirstOnce p.shared := by
  have hfacts : ((membershipProgram id InstanceInOrder).machine.replay (KeepsAdmin id)
      ⟨{}, []⟩ oneAfterTheOther).map (fun p => p.shared.users) =
        some [⟨"ada", "ada@example.com", .admin⟩, ⟨"bob", "bob@example.com", .user⟩] := by
    decide +kernel
  obtain ⟨p, hp, husers⟩ := map_eq_some_iff.mp hfacts
  have hrun := run_of_replay (M := (membershipProgram id InstanceInOrder).machine)
    noAccounts_init hp
  exact ⟨p, hrun, husers, (administrator_stays id hrun).1⟩

def bothFirst : List (Move Request StepReply Event) :=
  [.spawn (.createAccount (adaSignsUp .closed) .count),
    .spawn (.createAccount (bobSignsUp .closed) .count), .act 0 .ok, .act 1 .ok, .act 0 .ok,
    .act 1 .ok, .act 0 (.fresh "ada"), .act 1 (.fresh "bob")]

def withoutGroup : List (Move Request StepReply Event) :=
  [.spawn (.signIn ⟨.oidc, "ada", [], [⟨.oidc, "admins", .admin⟩]⟩ .bindings), .act 0 .ok,
    .act 0 .ok, .act 0 .ok]

def oneAdministrator : Tables where
  users := [⟨"ada", "ada@example.com", .admin⟩]
  creations := [⟨"ada", 0, .anyone⟩]

theorem oneAdministrator_init :
    (membershipProgram id InstanceInOrder).machine.init ⟨oneAdministrator, []⟩ := by
  have hhistory : History oneAdministrator := by
    refine ⟨⟨by decide, nodup_nil⟩, fun h => ?_, fun _ => ?_⟩
    · cases h
    · exact ⟨_, mem_singleton_self _, rfl⟩
  exact ⟨⟨hhistory, Nat.le_refl 1, nofun⟩, rfl⟩

/-- Two accounts become administrator as the first one, the second while sign-up is closed,
and a sign-in leaves an instance without administrator. -/
theorem first_account_twice :
    (¬ ∀ p : Pool Tables Request, (membershipProgram id InstanceInOrder).machine.Reachable p →
      FirstOnce p.shared) ∧
    (¬ ∀ p : Pool Tables Request, (membershipProgram id InstanceInOrder).machine.Reachable p →
      ClosedToOthers p.shared) ∧
    ¬ ∀ p p' : Pool Tables Request, (membershipProgram id InstanceInOrder).machine.Reachable p →
      (membershipProgram id InstanceInOrder).machine.Path (fun _ _ => True) p p' →
      HasAdmin p.shared → HasAdmin p'.shared := by
  have htwo : ((membershipProgram id InstanceInOrder).machine.replay (fun _ _ => True)
      ⟨{}, []⟩ bothFirst).map (fun p => p.shared.creations) =
        some [⟨"ada", 0, .closed⟩, ⟨"bob", 0, .closed⟩] := by
    decide +kernel
  obtain ⟨p, hp, hcreations⟩ := map_eq_some_iff.mp htwo
  have hreach := run_of_replay (M := (membershipProgram id InstanceInOrder).machine)
    noAccounts_init hp
  have hnone : ((membershipProgram id InstanceInOrder).machine.replay (fun _ _ => True)
      ⟨oneAdministrator, []⟩ withoutGroup).map (fun p => p.shared.users) =
        some [⟨"ada", "ada@example.com", .user⟩] := by
    decide +kernel
  obtain ⟨p', hp', husers⟩ := map_eq_some_iff.mp hnone
  have hpath := path_of_replay (M := (membershipProgram id InstanceInOrder).machine) hp'
  refine ⟨fun hall => ?_, fun hall => ?_, fun hall => ?_⟩
  · have honce := hall p hreach
    unfold FirstOnce at honce
    rw [hcreations] at honce
    exact absurd honce (by decide)
  · have hclosed := hall p hreach
    unfold ClosedToOthers at hclosed
    rw [hcreations] at hclosed
    exact hclosed ⟨"bob", 0, .closed⟩ (mem_singleton_self _) rfl
  · obtain ⟨u, hu, hadmin⟩ := hall _ p' (.init oneAdministrator_init) hpath
      ⟨_, mem_singleton_self _, rfl⟩
    rw [husers] at hu
    rw [mem_singleton.mp hu] at hadmin
    cases hadmin

end Chicoree.Memberships
