import Chicoree.RateLimits.Form
import Chicoree.Web.Membership

/-! # Accounts and memberships

The accounts of an instance, the members of its organizations and the invitations to them.
Every statement of a request reads these tables or makes one change to them. -/

namespace Chicoree.Memberships

open Web (Id OrgRole Member Invitation InvitationStatus Organization OrganizationLimits)

/-! ## Tables -/

inductive InstanceRole where
  | admin
  | user
deriving DecidableEq

structure User where
  id : Id
  email : String
  role : InstanceRole
deriving DecidableEq

inductive SignUpMode where
  | anyone
  | invite
  | closed
deriving DecidableEq

/-- An account that was created: how many accounts there were when they were counted, and the
sign-up mode. -/
structure Creation where
  userId : Id
  existing : Nat
  mode : SignUpMode
deriving DecidableEq

/-- The tables, the clock in milliseconds, and a history of the accounts created, which no
statement reads. -/
structure Tables where
  users : List User := []
  organizations : List Organization := []
  members : List Member := []
  invitations : List Invitation := []
  organizationLimits : List OrganizationLimits := []
  now : Nat := 0
  creations : List Creation := []

namespace Tables

variable (t : Tables)

def findUser (id : Id) : Option User := Table.find User.id id t.users

def organizationBySlug (slug : String) : Option Organization :=
  Table.find Organization.slug slug t.organizations

def membership (organizationId userId : Id) : Option Member :=
  Table.find (fun m : Member => (m.organizationId, m.userId)) (organizationId, userId) t.members

def admins : Nat := t.users.countP fun u => decide (u.role = .admin)

def isOwnerOf (organizationId : Id) (m : Member) : Bool :=
  decide (m.organizationId = organizationId ∧ m.role = .owner)

def ownerCount (organizationId : Id) : Nat := t.members.countP (isOwnerOf organizationId)

def isLastOwner (organizationId : Id) : Bool := decide (t.ownerCount organizationId ≤ 1)

/-- The organizations that no other user owns, of those the user owns: the query of
`refuseDeletionOfLastOwner`. -/
def solelyOwned (userId : Id) : List Id :=
  ((t.members.filter fun m => decide (m.userId = userId ∧ m.role = .owner)).filter fun m =>
    !(t.members.any fun x =>
      isOwnerOf m.organizationId x && decide (x.userId ≠ userId))).map (·.organizationId)

/-- The organizations with one owner row, of those the user owns: the query of
`adminDeleteUser`. -/
def ownedAlone (userId : Id) : List Id :=
  ((t.members.filter fun m => decide (m.userId = userId ∧ m.role = .owner)).filter fun m =>
    decide (t.ownerCount m.organizationId = 1)).map (·.organizationId)

def memberCount (organizationId : Id) : Nat :=
  t.members.countP fun m => decide (m.organizationId = organizationId)

def isOpen (i : Invitation) : Bool := decide (i.status = .pending ∧ t.now < i.expiresAt)

def openInvitations (organizationId : Id) : Nat :=
  t.invitations.countP fun i => decide (i.organizationId = organizationId) && t.isOpen i

def maxMembers (organizationId : Id) : Option Nat :=
  (Table.find OrganizationLimits.organizationId organizationId t.organizationLimits).bind fun r =>
    r.limits.maxMembers

/-- `checkMemberQuota`: whether one more member may join. -/
def checkMemberQuota (organizationId : Id) (includePending : Bool) : Bool :=
  (t.maxMembers organizationId).all fun limit =>
    decide (t.memberCount organizationId +
      (if includePending then t.openInvitations organizationId else 0) < limit)

end Tables

inductive Closing where
  | accepted
  | rejected
  | canceled

def Closing.status : Closing → InvitationStatus
  | .accepted => .accepted
  | .rejected => .rejected
  | .canceled => .canceled

/-- What one statement writes. -/
inductive Change where
  | insertUser (u : User) (existing : Nat) (mode : SignUpMode)
  | setUserRole (id : Id) (role : InstanceRole)
  | deleteUser (id : Id)
  | insertOrganization (o : Organization)
  | insertMember (m : Member)
  | setMemberRole (id : Id) (role : OrgRole)
  | deleteMember (id : Id)
  | insertInvitation (i : Invitation)
  | closeInvitation (id : Id) (how : Closing)
  /-- Time passes. -/
  | advance (ms : Nat)

namespace Tables

/-- Whether the keys of a change fit: an identifier, an address or a slug is new, and the rows
it refers to are there. -/
def fits (t : Tables) : Change → Bool
  | .insertUser u _ _ => !(t.users.any fun x => decide (x.id = u.id ∨ x.email = u.email))
  | .insertOrganization o =>
    !(t.organizations.any fun x => decide (x.id = o.id ∨ x.slug = o.slug))
  | .insertMember m =>
    !(t.members.any fun x => decide (x.id = m.id)) &&
      (t.users.any fun u => decide (u.id = m.userId)) &&
      t.organizations.any fun o => decide (o.id = m.organizationId)
  | .insertInvitation i =>
    !(t.invitations.any fun x => decide (x.id = i.id)) &&
      (t.users.any fun u => decide (u.id = i.inviterId)) &&
      t.organizations.any fun o => decide (o.id = i.organizationId)
  | _ => true

/-- A change. Memberships, and invitations sent, go with their account. -/
def apply (t : Tables) : Change → Tables
  | .insertUser u existing mode =>
    { t with users := t.users ++ [u], creations := t.creations ++ [⟨u.id, existing, mode⟩] }
  | .setUserRole id role =>
    { t with users := Table.update User.id id (fun u => { u with role := role }) t.users }
  | .deleteUser id =>
    { t with
      users := t.users.filter fun u => decide (u.id ≠ id)
      members := t.members.filter fun m => decide (m.userId ≠ id)
      invitations := t.invitations.filter fun i => decide (i.inviterId ≠ id) }
  | .insertOrganization o => { t with organizations := t.organizations ++ [o] }
  | .insertMember m => { t with members := t.members ++ [m] }
  | .setMemberRole id role =>
    { t with members := Table.update Member.id id (fun m => { m with role := role }) t.members }
  | .deleteMember id => { t with members := t.members.filter fun m => decide (m.id ≠ id) }
  | .insertInvitation i => { t with invitations := t.invitations ++ [i] }
  | .closeInvitation id how =>
    { t with
      invitations :=
        Table.update Invitation.id id (fun i => { i with status := how.status }) t.invitations }
  | .advance ms => { t with now := t.now + ms }

end Tables

/-- Rows under their identifiers. -/
structure Keys (t : Tables) : Prop where
  users : Table.Keyed User.id t.users
  members : Table.Keyed Member.id t.members

theorem Keys.apply {t : Tables} {c : Change} (h : Keys t) (hfits : t.fits c = true) :
    Keys (t.apply c) := by
  cases c with
  | insertUser u existing mode =>
    refine ⟨h.users.append fun x hx heq => ?_, h.members⟩
    simp only [Tables.fits, Bool.not_eq_true', List.any_eq_false, decide_eq_true_eq] at hfits
    exact hfits x hx (.inl heq)
  | setUserRole id role =>
    have hid (u : User) : { u with role := role }.id = u.id := rfl
    exact ⟨h.users.update hid, h.members⟩
  | deleteUser id => exact ⟨h.users.filter _, h.members.filter _⟩
  | insertMember m =>
    refine ⟨h.users, h.members.append fun x hx heq => ?_⟩
    simp only [Tables.fits, Bool.and_eq_true, Bool.not_eq_true', List.any_eq_false,
      decide_eq_true_eq] at hfits
    exact hfits.1.1 x hx heq
  | setMemberRole id role =>
    have hid (m : Member) : { m with role := role }.id = m.id := rfl
    exact ⟨h.users, h.members.update hid⟩
  | deleteMember id => exact ⟨h.users, h.members.filter _⟩
  | _ => exact ⟨h.users, h.members⟩

end Chicoree.Memberships

/-! ## Sign-ins that apply group bindings

`lib/group-bindings.ts`: what the groups of a login make of the bindings, and the statements
that bring the instance role and the memberships of the account in line. -/

namespace Chicoree.Memberships

open Web (Id OrgRole Member Organization StepReply BindingPc Bindings)
open RateLimits (isSpaceJs trim)

/-! ## Bindings -/

inductive GroupSource where
  | ldap
  | github
  | google
  | oidc
deriving DecidableEq

inductive BindingTarget where
  | admin
  | org (slug : String) (role : OrgRole)

/-- The group is the pattern without its source. -/
structure GroupBinding where
  source : GroupSource
  group : String
  target : BindingTarget

def roleRank : OrgRole → Nat
  | .viewer => 0
  | .member => 1
  | .admin => 2
  | .owner => 3

def bindingsFor (source : GroupSource) (bindings : List GroupBinding) : List GroupBinding :=
  bindings.filter fun b => decide (b.source = source)

/-- The text without the blanks around a separator: `replace(/\s*,\s*/g, ",")`. The flag
tells whether a separator came last, the blanks are those read since the last character. -/
def closeUp (sep : Char) : Bool → List Char → List Char → List Char
  | _, blanks, [] => blanks
  | after, blanks, c :: cs =>
    if isSpaceJs c then closeUp sep after (if after then [] else blanks ++ [c]) cs
    else if c = sep then sep :: closeUp sep true [] cs
    else blanks ++ c :: closeUp sep false [] cs

section matching

-- `toLowerCase`
variable (lower : String → String)

def normalizeDn (dn : String) : List Char :=
  trim (closeUp '=' false [] (closeUp ',' false [] (lower dn).toList))

/-- The value of the first part of a distinguished name: `split(",")[0]?.split("=")[1]`. -/
def firstValue (dn : List Char) : Option (List Char) :=
  match (dn.takeWhile fun c => decide (c ≠ ',')).dropWhile fun c => decide (c ≠ '=') with
  | [] => none
  | _ :: value => some (value.takeWhile fun c => decide (c ≠ '='))

def groupMatches (source : GroupSource) (identifier pattern : String) : Bool :=
  if source = .ldap then
    let g := normalizeDn lower identifier
    let p := normalizeDn lower pattern
    decide (g = p) || (!p.contains '=' && decide (firstValue g = some p))
  else decide (lower identifier = lower pattern)

def strongest (slug : String) (role : OrgRole) (roles : List (String × OrgRole)) :
    List (String × OrgRole) :=
  match Table.find Prod.fst slug roles with
  | none => roles ++ [(slug, role)]
  | some current =>
    if roleRank current.2 < roleRank role then Table.upsert Prod.fst (slug, role) roles else roles

/-- What the bindings of a source say of a login: nothing about the instance role where none
of them mentions it, the strongest role by slug, and every slug mentioned. -/
structure ResolvedBindings where
  admin : Option Bool := none
  orgRoles : List (String × OrgRole) := []
  managedOrgs : List String := []

def ResolvedBindings.add (groups : List String) (r : ResolvedBindings) (b : GroupBinding) :
    ResolvedBindings :=
  let applies := groups.any fun g => groupMatches lower b.source g b.group
  match b.target with
  | .admin => { r with admin := some (r.admin.getD false || applies) }
  | .org slug role =>
    { r with
      managedOrgs := Table.insertNew id slug r.managedOrgs
      orgRoles := if applies then strongest slug role r.orgRoles else r.orgRoles }

def resolveBindings (source : GroupSource) (groups : List String)
    (bindings : List GroupBinding) : ResolvedBindings :=
  (bindingsFor source bindings).foldl (ResolvedBindings.add lower groups) {}

end matching

/-- Where `ensureLibraryOrg` stands. -/
inductive LibraryPc where
  | find
  | insertOrg
  | member (organizationId : Id)
  | insertMember (organizationId : Id)
  | done
deriving DecidableEq

def librarySlug : String := "library"

/-- One statement of `ensureLibraryOrg` for an administrator, with the change it makes. -/
def ensureLibraryOrg (t : Tables) (adminUserId : Id) :
    LibraryPc → StepReply → Option (Option Change × LibraryPc)
  | .find, .ok =>
    match t.organizationBySlug librarySlug with
    | some o => some (none, .member o.id)
    | none => some (none, .insertOrg)
  | .insertOrg, .fresh id =>
    -- on a conflict nothing is inserted, and the organization is looked up again
    match t.organizationBySlug librarySlug with
    | some o => some (none, .member o.id)
    | none => some (some (.insertOrganization { id := id, slug := librarySlug, name := "Library" }),
        .member id)
  | .member o, .ok =>
    match t.membership o adminUserId with
    | some _ => some (none, .done)
    | none => some (none, .insertMember o)
  | .insertMember o, .fresh id => some (some (.insertMember ⟨id, o, adminUserId, .owner⟩), .done)
  | _, _ => none

/-- One statement of the loop of `syncGroupBindings` over the organizations, each with the
role the groups give, or with none. -/
def syncMemberships (t : Tables) (userId : Id) :
    Bindings → BindingPc → StepReply → Option (Option Change × Bindings × BindingPc)
  | (o, role) :: rest, .existing, .ok =>
    match role, t.membership o userId with
    | some _, none => some (none, (o, role) :: rest, .memberQuota)
    | some r, some m =>
      if m.role = r then some (none, rest, .existing)
      else some (none, (o, role) :: rest, if m.role = .owner then .lastOwner m else .update m)
    | none, some m =>
      some (none, (o, role) :: rest, if m.role = .owner then .lastOwner m else .delete m)
    | none, none => some (none, rest, .existing)
  | (o, role) :: rest, .memberQuota, .ok =>
    -- a full organization takes no new members; the sign-in goes on
    if t.checkMemberQuota o false then some (none, (o, role) :: rest, .insert)
    else some (none, rest, .existing)
  | (o, some r) :: rest, .insert, .fresh id =>
    some (some (.insertMember ⟨id, o, userId, r⟩), rest, .existing)
  | (o, role) :: rest, .lastOwner m, .ok =>
    if t.isLastOwner o then some (none, rest, .existing)
    else some (none, (o, role) :: rest, if role.isSome then .update m else .delete m)
  | (_, some r) :: rest, .update m, .ok => some (some (.setMemberRole m.id r), rest, .existing)
  | _ :: rest, .delete m, .ok => some (some (.deleteMember m.id), rest, .existing)
  | _, _, _ => none

/-! ## The sign-in -/

/-- A login with its groups, and the bindings as they are configured when it applies them. -/
structure SignInRequest where
  source : GroupSource
  userId : Id
  groups : List String
  bindings : List GroupBinding

inductive SignInPc where
  | bindings
  | readUser (admin : Bool)
  | setRole (admin : Bool)
  | library (pc : LibraryPc)
  | organizations
  | memberships (todo : Bindings) (pc : BindingPc)
deriving DecidableEq

section signIn

variable (lower : String → String)

def SignInRequest.resolved (rq : SignInRequest) : ResolvedBindings :=
  resolveBindings lower rq.source rq.groups rq.bindings

def wantedRole (admin : Bool) : InstanceRole := if admin then .admin else .user

def afterRole (admin : Bool) : SignInPc := if admin then .library .find else .organizations

def syncGroupBindings (t : Tables) (rq : SignInRequest) :
    SignInPc → StepReply → Option (Option Change × SignInPc)
  | .bindings, .ok =>
    some (none, match (rq.resolved lower).admin with
      | some admin => .readUser admin
      | none => .organizations)
  | .readUser admin, .ok =>
    match t.findUser rq.userId with
    | some u =>
      if u.role = wantedRole admin then some (none, afterRole admin)
      else some (none, .setRole admin)
    | none => some (none, afterRole admin)
  | .setRole admin, .ok =>
    some (some (.setUserRole rq.userId (wantedRole admin)), afterRole admin)
  | .library .done, .ok => some (none, .organizations)
  | .library pc, a =>
    (ensureLibraryOrg t rq.userId pc a).map fun out => (out.1, .library out.2)
  | .organizations, .ok =>
    let resolved := rq.resolved lower
    let orgs := t.organizations.filter fun o => decide (o.slug ∈ resolved.managedOrgs)
    let todo := orgs.map fun o =>
      (o.id, (Table.find Prod.fst o.slug resolved.orgRoles).map Prod.snd)
    some (none, .memberships todo .existing)
  | .memberships todo pc, a =>
    (syncMemberships t rq.userId todo pc a).map fun out => (out.1, .memberships out.2.1 out.2.2)
  | _, _ => none

end signIn

end Chicoree.Memberships
