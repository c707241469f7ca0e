import Chicoree.Images.LatestRuns
import Chicoree.Images.SparedPushes

/-! # Moving an image next to pushes

A move resolves its tag once, plans what has to travel from the manifests of that image, pushes
it, and deletes the tag by name. Requests of clients run between any two of its statements.
What the pushes of tags wrote is kept in order. -/

namespace Chicoree.Images

open Transition
open Registryd (Digest RepoId Time Repository)

/-! ## The plan of a copy -/

/-- A visit of the depth-first walk: a manifest is looked up, and listed after its children. -/
inductive Visit where
  | enter (d : Digest) (tag : Option String)
  | leave (m : PlannedManifest)
deriving DecidableEq

/-- How far `planImageCopy` has come: the visits to go, the digests seen, and the manifests in
the order they are pushed; the image first, then what is attached to it. -/
structure CopyPlan where
  attached : Bool
  todo : List Visit
  seen : List Digest
  ordered : List PlannedManifest
deriving DecidableEq

def CopyPlan.start (root : Digest) : CopyPlan := ⟨false, [.enter root none], [], []⟩

def CopyPlan.descend (plan : CopyPlan) (children : Digest → List Digest) (m : PushedManifest)
    (tag : Option String) (rest : List Visit) : CopyPlan :=
  { plan with
    todo := (children m.digest).map (fun c => .enter c none) ++ .leave ⟨m, tag⟩ :: rest
    seen := m.digest :: plan.seen }

/-- What a statement of a move comes back with: an answer, or the artifacts that
`discoverArtifacts` found, each with the tag it was found under. -/
inductive MoveReply where
  | statement (reply : Reply)
  | artifacts (found : List (Digest × Option String))

/-- A step of the plan goes on, fails, or has listed everything. -/
inductive PlanOutcome where
  | more (plan : CopyPlan)
  | unreadable
  | complete (manifests : List PlannedManifest)

def CopyPlan.act (s : Tables) (children : Digest → List Digest) (repo : RepoId)
    (plan : CopyPlan) (reply : MoveReply) : Option PlanOutcome :=
  match plan.todo, reply with
  | .enter d tag :: rest, .statement reply =>
    if d ∈ plan.seen then some (.more { plan with todo := rest })
    else
      match s.storedManifest repo d with
      | none => some .unreadable
      | some m =>
        if reply = .failed then some .unreadable
        else some (.more (plan.descend children m tag rest))
  | .leave m :: rest, .statement _ =>
    some (.more { plan with todo := rest, ordered := plan.ordered ++ [m] })
  | [], .artifacts found =>
    if plan.attached then none
    else
      some (.more { plan with
        attached := true
        todo := found.map fun a => .enter a.1 a.2 })
  | [], .statement reply =>
    if reply = .failed then some .unreadable
    else if plan.attached then some (.complete plan.ordered)
    else none
  | _, _ => none

/-! ## A move -/

structure Moving where
  pc : MovePc
  plan : CopyPlan := ⟨false, [], [], []⟩
  resolved : Option Digest := none
deriving DecidableEq

/-- A tag that was pointed at a manifest, with the move whose image that is. -/
structure Tagging where
  repositoryId : RepoId
  tag : String
  digest : Digest
  image : Option Nat
deriving DecidableEq

structure MoveState where
  tables : Tables
  pushed : List Tagging := []

def RegistryCall.tagging (s : Tables) (reply : Reply) (image : Option Nat)
    (call : RegistryCall) : List Tagging :=
  if reply = .failed then []
  else (call.writes s).toList.map fun t => ⟨t.repositoryId, t.name, t.manifestDigest, image⟩

def MovePc.source : MovePc → Option MoveSource
  | .sourceRules src | .destination src | .destinationChecks src _
  | .destinationRepository src _ | .destinationRules src _ _ | .planCopy src _ _
  | .createRepository src _ _ | .push src _ _ _ _ => some src
  | _ => none

def Moving.goTo (m : Moving) (pc : MovePc) : Moving :=
  { pc := pc
    plan :=
      match pc with
      | .planCopy src _ _ => .start src.digest
      | _ => m.plan
    resolved := m.resolved.or (pc.source.map (·.digest)) }

def MovePc.pushesImage : MovePc → Bool
  | .push src _ _ (.upsertTagGuarded _ _ d) _ => decide (d = src.digest)
  | _ => false

section

variable (localeCompare : String → String → Ordering) (children : Digest → List Digest)

def movingAct (s : MoveState) (i : Nat) (f : MoveForm) (m : Moving) (reply : MoveReply) :
    Option (MoveState × Moving) :=
  match m.pc with
  | .planCopy src dst r =>
    match m.plan.act s.tables children src.repository.id reply with
    | none => none
    | some (.more plan) => some (s, { m with plan := plan })
    | some .unreadable => some (s, m.goTo (.done (some .unreadable)))
    | some (.complete manifests) =>
      (moveAct localeCompare s.tables f (.planCopy src dst r) (.copyPlan manifests)).map
        fun out => ({ s with tables := out.1 }, m.goTo out.2)
  | pc =>
    match reply with
    | .artifacts _ => none
    | .statement reply =>
      (moveAct localeCompare s.tables f pc reply).map fun out =>
        ({ tables := out.1
           pushed := s.pushed ++
            (pc.call.map (·.tagging s.tables reply (if pc.pushesImage then some i else none))).getD
              [] },
          m.goTo out.2)

inductive MoveTask where
  | move (f : MoveForm) (m : Moving)
  /-- A request of a client to registryd. -/
  | client (call : RegistryCall)

def MoveTask.fresh : MoveTask → Bool
  | .move _ m => decide (m = { pc := .sourceRepository })
  | .client (.resolve _ _ _) => true
  | _ => false

def imageMoveAct (s : MoveState) (i : Nat) (t : MoveTask) (reply : MoveReply) :
    Option (MoveState × MoveTask) :=
  match t with
  | .move f m => (movingAct localeCompare children s i f m reply).map
      fun out => (out.1, .move f out.2)
  | .client call =>
    match reply with
    | .artifacts _ => none
    | .statement reply =>
      (registryAct s.tables call reply).map fun out =>
        (⟨out.1, s.pushed ++ call.tagging s.tables reply none⟩, .client out.2)

def imageMoveProgram : Program MoveState MoveTask MoveReply Time where
  init s := s.tables.Valid ∧ s.pushed = []
  fresh := MoveTask.fresh
  act := imageMoveAct localeCompare children
  env s now := some { s with tables := { s.tables with now := now } }

abbrev imageMoveMachine : Machine (Pool MoveState MoveTask) (Move MoveTask MoveReply Time) :=
  (imageMoveProgram localeCompare children).machine

end

/-! ## What is promised -/

def MoveState.destination (s : MoveState) (f : MoveForm) : Option Repository :=
  (s.tables.findOrganization f.destinationOrganizationId).bind fun o =>
    s.tables.getRepository o.slug f.destinationRepository

def Tagging.at (t : Tagging) (r : Repository) (f : MoveForm) (d : Digest) : Prop :=
  t.repositoryId = r.id ∧ t.tag = f.destinationTag ∧ t.digest = d

def PushedTo (s : MoveState) (f : MoveForm) (d : Digest) : Prop :=
  ∃ r, s.destination f = some r ∧ ∃ t ∈ s.pushed, t.at r f d

def PushedOtherwise (s : MoveState) (i : Nat) (f : MoveForm) (d : Digest) : Prop :=
  ∃ r, s.destination f = some r ∧ ∃ t ∈ s.pushed, t.at r f d ∧ t.image ≠ some i

section

variable (localeCompare : String → String → Ordering) (children : Digest → List Digest)

/-- The next statement of the move may remove its source tag, which names the digest. -/
structure RemovesSource (p : Pool MoveState MoveTask) (i : Nat) (f : MoveForm) (m : Moving)
    (d : Digest) : Prop where
  task : p.tasks[i]? = some (.move f m)
  deleting : ∃ pc, m.pc = .deleteTag pc
  named : p.shared.tables.resolveTag f.sourceRepositoryId f.reference = some d
  gone : ∃ reply p', (imageMoveProgram localeCompare children).step p (.act i reply) = some p' ∧
    p'.shared.tables.resolveTag f.sourceRepositoryId f.reference = none

/-- What a move removes has been pushed to its destination. -/
def LosesNothing (p : Pool MoveState MoveTask) : Prop :=
  ∀ i f m d, RemovesSource localeCompare children p i f m d → PushedTo p.shared f d

/-- A source tag that is removed still names what the move resolved, or something that was
pushed to the destination otherwise. -/
def SourceUnmoved (p : Pool MoveState MoveTask) : Prop :=
  ∀ i f m d, RemovesSource localeCompare children p i f m d →
    m.resolved = some d ∨ PushedOtherwise p.shared i f d

end

end Chicoree.Images
