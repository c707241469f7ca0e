import Chicoree.PullBlocks.Computed

/-! # The tables a refresh reads and writes

All repositories, and the statements that change what their blocks depend on: pushes, scan
states, policies, exceptions, signatures and transfers. -/

namespace Chicoree.PullBlocks

open Table
open Registryd (Digest)

/-! ## Tables -/

/-- A repository with its rows of the tables that are keyed by repository. -/
structure Repo where
  row : RepoRow
  manifests : List ManifestRow
  tags : List TagRow
  signatures : List SignatureRow
  blocks : List Block

def Repo.id (r : Repo) : Id := r.row.id

structure World where
  now : Int
  /-- `organization_settings` by organization. -/
  settings : List (Id × OrgSettings)
  repos : List Repo
  scans : List ScanRow
  exceptions : List ExceptionRule

namespace World

def repo (w : World) (id : Id) : Option Repo := Table.find Repo.id id w.repos

def org (w : World) (organizationId : Id) : Option OrgSettings :=
  (Table.find Prod.fst organizationId w.settings).map (·.2)

def scansOf (w : World) (rows : List ManifestRow) : List ScanRow :=
  w.scans.filter fun s => decide (s.digest ∈ rows.map (·.digest))

/-- `loadExceptionRules`: those of the organization and of the repository. -/
def rulesFor (w : World) (organizationId repositoryId : Id) : List ExceptionRule :=
  w.exceptions.filter fun e => decide (e.organizationId = organizationId ∧
    (e.repositoryId = none ∨ e.repositoryId = some repositoryId))

def reading (w : World) (r : Repo) : Reading where
  now := w.now
  repo := r.row
  org := w.org r.row.organizationId
  rows := r.manifests
  scans := w.scansOf r.manifests
  rules := w.rulesFor r.row.organizationId r.row.id
  tags := r.tags
  signatures := r.signatures

def updateRepo (w : World) (id : Id) (f : Repo → Repo) : World :=
  { w with repos := Table.update Repo.id id f w.repos }

/-- `UpsertManifest`: a manifest that is there keeps its payload. -/
def push (w : World) (repositoryId : Id) (row : ManifestRow) : World :=
  w.updateRepo repositoryId fun r =>
    let stored := (Table.find (·.digest) row.digest r.manifests).map (·.payload)
    let row := { row with payload := stored.getD row.payload }
    { r with manifests := Table.upsert (·.digest) row r.manifests }

def setTag (w : World) (repositoryId : Id) (tag : TagRow) : World :=
  w.updateRepo repositoryId fun r => { r with tags := Table.upsert (·.name) tag r.tags }

def upsertSignature (w : World) (repositoryId : Id) (row : SignatureRow) : World :=
  w.updateRepo repositoryId fun r =>
    { r with signatures :=
        Table.upsert (fun s => (s.manifestDigest, s.signatureDigest)) row r.signatures }

def deleteSignature (w : World) (repositoryId : Id) (manifest signature : Digest) : World :=
  w.updateRepo repositoryId fun r =>
    { r with signatures := r.signatures.filter fun s =>
        decide ((s.manifestDigest, s.signatureDigest) ≠ (manifest, signature)) }

def scanState (w : World) (digest : Digest) (repositoryId : Option Id)
    (fields : ScanRow → ScanRow) : ScanRow :=
  let old := (Table.find (·.digest) digest w.scans).getD
    ⟨digest, repositoryId, .pending, none, none, none⟩
  { fields old with digest := digest, repositoryId := repositoryId }

def setScanState (w : World) (digest : Digest) (repositoryId : Option Id)
    (fields : ScanRow → ScanRow) : World :=
  { w with scans := Table.upsert (·.digest) (w.scanState digest repositoryId fields) w.scans }

def setScanStatus (w : World) (digest : Digest) (repositoryId : Option Id)
    (status : ScanStatus) : World :=
  w.setScanState digest repositoryId fun row => { row with status := status }

def storeScanResult (w : World) (digest : Digest) (repositoryId : Option Id)
    (findings : List Finding) (report : Option (List Finding)) : World :=
  w.setScanState digest repositoryId fun row =>
    { row with
      status := .scanned, findings := some findings
      summary := some (summarizeFindings findings), report := report }

def setOrgSettings (w : World) (organizationId : Id) (settings : OrgSettings) : World :=
  { w with settings := Table.upsert Prod.fst (organizationId, settings) w.settings }

def setRepoPolicy (w : World) (repositoryId : Id) (blockPullsAt : Option RepoLevel)
    (blockUnrated requireSignature : Option Bool) : World :=
  w.updateRepo repositoryId fun r =>
    { r with
      row := { r.row with
        blockPullsAt := blockPullsAt, blockUnrated := blockUnrated
        requireSignature := requireSignature } }

def transfer (w : World) (repositoryId organizationId : Id) : World :=
  w.updateRepo repositoryId fun r =>
    { r with row := { r.row with organizationId := organizationId } }

def insertException (w : World) (rule : ExceptionRule) : World :=
  { w with exceptions := w.exceptions ++ [rule] }

def deleteException (w : World) (id : Id) : World :=
  { w with exceptions := w.exceptions.filter fun e => decide (e.id ≠ id) }

def setBlocks (w : World) (repositoryId : Id) (blocks : List Block) : World :=
  w.updateRepo repositoryId fun r => { r with blocks := blocks }

/-- A refresh with nothing in between: it does nothing for a repository that is gone, and
leaves everything where it throws. -/
def refresh (lower : String → String) (w : World) (repositoryId : Id) : World :=
  match w.repo repositoryId with
  | none => w
  | some r =>
    match refreshRepositoryBlocks lower (w.reading r) r.blocks with
    | none => w
    | some (after, _) => w.setBlocks repositoryId after

end World

/-! ## What the statements keep -/

structure World.Keyed (w : World) : Prop where
  repos : Table.Keyed Repo.id w.repos
  scans : Table.Keyed (·.digest) w.scans
  manifests : ∀ r ∈ w.repos, Table.Keyed (·.digest) r.manifests
  blocks : ∀ r ∈ w.repos, Table.Keyed (·.digest) r.blocks

/-- A change of a repository that keeps its number and its keys. -/
structure KeepsKeys (f : Repo → Repo) : Prop where
  id : ∀ r, (f r).id = r.id
  manifests : ∀ r, Table.Keyed (·.digest) r.manifests → Table.Keyed (·.digest) (f r).manifests
  blocks : ∀ r, Table.Keyed (·.digest) r.blocks → Table.Keyed (·.digest) (f r).blocks

section keeps

variable {w : World} {id k : Id} {f : Repo → Repo}

theorem repo_updateRepo_self (hf : ∀ r, (f r).id = r.id) :
    (w.updateRepo id f).repo id = (w.repo id).map f :=
  find_update_self hf

theorem repo_updateRepo_ne (hf : ∀ r, (f r).id = r.id) (hk : k ≠ id) :
    (w.updateRepo id f).repo k = w.repo k :=
  find_update_ne hf hk

theorem repo_setBlocks_self {r : Repo} (hr : w.repo id = some r) (blocks : List Block) :
    (w.setBlocks id blocks).repo id = some { r with blocks := blocks } := by
  have hfind : (w.setBlocks id blocks).repo id =
      (w.repo id).map fun r => { r with blocks := blocks } :=
    repo_updateRepo_self fun _ => rfl
  rw [hfind, hr]
  rfl

theorem repo_setBlocks_ne (hk : k ≠ id) (blocks : List Block) :
    (w.setBlocks id blocks).repo k = w.repo k :=
  repo_updateRepo_ne (fun _ => rfl) hk

theorem World.Keyed.updateRepo (h : w.Keyed) (hf : KeepsKeys f) : (w.updateRepo id f).Keyed := by
  refine ⟨?_, h.scans, fun r hr => ?_, fun r hr => ?_⟩
  · unfold Table.Keyed World.updateRepo
    rw [keys_update hf.id]
    exact h.repos
  · rcases mem_update hr with ⟨hr, -⟩ | ⟨r₀, hr₀, -, rfl⟩
    · exact h.manifests r hr
    · exact hf.manifests r₀ (h.manifests r₀ hr₀)
  · rcases mem_update hr with ⟨hr, -⟩ | ⟨r₀, hr₀, -, rfl⟩
    · exact h.blocks r hr
    · exact hf.blocks r₀ (h.blocks r₀ hr₀)

theorem World.Keyed.setScanState (h : w.Keyed) (digest : Digest) (repositoryId : Option Id)
    (fields : ScanRow → ScanRow) : (w.setScanState digest repositoryId fields).Keyed :=
  ⟨h.repos, h.scans.upsert _, h.manifests, h.blocks⟩

theorem find_setScanState_self (w : World) (d : Digest) (repositoryId : Option Id)
    (fields : ScanRow → ScanRow) :
    Table.find (·.digest) d (w.setScanState d repositoryId fields).scans =
      some (w.scanState d repositoryId fields) := by
  have hkey : (w.scanState d repositoryId fields).digest = d := rfl
  have hfind : Table.find (·.digest) (w.scanState d repositoryId fields).digest
      (Table.upsert (·.digest) (w.scanState d repositoryId fields) w.scans) =
        some (w.scanState d repositoryId fields) := find_upsert_self _ _
  rw [hkey] at hfind
  exact hfind

theorem find_setScanState_ne {d d' : Digest} (h : d' ≠ d) (w : World)
    (repositoryId : Option Id) (fields : ScanRow → ScanRow) :
    Table.find (·.digest) d' (w.setScanState d repositoryId fields).scans =
      Table.find (·.digest) d' w.scans := by
  have hkey : d' ≠ (w.scanState d repositoryId fields).digest := h
  exact find_upsert_ne hkey w.scans

theorem mem_of_repo {r : Repo} (h : w.repo id = some r) : r ∈ w.repos ∧ r.id = id :=
  find_some h

theorem keyed_foldl_apply {blocks : List Block} (h : Table.Keyed (·.digest) blocks)
    (writes : List BlockWrite) :
    Table.Keyed (·.digest) (writes.foldl BlockWrite.apply blocks) := by
  induction writes generalizing blocks with
  | nil => exact h
  | cons write _ ih =>
    apply ih
    cases write with
    | upsert b => exact h.upsert b
    | delete d => exact h.filter _

theorem World.Keyed.setBlocks {blocks : List Block} (h : w.Keyed)
    (hb : Table.Keyed (·.digest) blocks) : (w.setBlocks id blocks).Keyed :=
  h.updateRepo ⟨fun _ => rfl, fun _ hm => hm, fun _ _ => hb⟩

theorem refresh_keyed {lower : String → String} (h : w.Keyed) : (w.refresh lower id).Keyed := by
  unfold World.refresh
  cases hr : w.repo id with
  | none => exact h
  | some r =>
    simp only
    cases hout : refreshRepositoryBlocks lower (w.reading r) r.blocks with
    | none => exact h
    | some out =>
      obtain ⟨after, n⟩ := out
      obtain ⟨c, -, heq⟩ := Option.map_eq_some_iff.mp hout
      obtain ⟨rfl, -⟩ := Prod.mk.inj heq
      exact h.setBlocks (keyed_foldl_apply (h.blocks r (mem_of_repo hr).1) _)

theorem find_scansOf (h : w.Keyed) {rows : List ManifestRow} {d : Digest}
    (hd : d ∈ rows.map (·.digest)) :
    Table.find (·.digest) d (w.scansOf rows) = Table.find (·.digest) d w.scans := by
  unfold World.scansOf
  rw [find_filter h.scans]
  cases hfind : Table.find (·.digest) d w.scans with
  | none => rfl
  | some row =>
    have hrow : row.digest ∈ rows.map (·.digest) := (find_some hfind).2 ▸ hd
    simp only [Option.filter, hrow, decide_true, if_true]

end keeps

/-! ## Refreshes one statement at a time

Changes that affect the blocks of a repository, each followed by its own refresh, as tasks
over the tables: every statement of a change, every read of a refresh and every row it writes
is a step. The repository is fixed; an organization-wide change lists the repositories of the
organization and refreshes this one if it is among them. Scans are shared: one that another
repository asked for is stored for this one too, and refreshes the other. -/

open Transition

/-- What a change refreshes when it is made. -/
inductive Target where
  | repository
  /-- `refreshOrganizationBlocks` -/
  | organization (organizationId : Id)
  /-- Another repository that holds some of the same manifests. -/
  | elsewhere (repositoryId : Id)
deriving DecidableEq

inductive Statement where
  | storeScan (digest : Digest) (findings : List Finding) (report : Option (List Finding))
  | scanStatus (digest : Digest) (status : ScanStatus)
  | upsertSignature (row : SignatureRow)
  | deleteSignature (manifest signature : Digest)
  | insertException (rule : ExceptionRule)
  | deleteException (id : Id)
  | orgPolicy (settings : OrgSettings)
  | repoPolicy (blockPullsAt : Option RepoLevel) (blockUnrated requireSignature : Option Bool)
  | transfer (organizationId : Id)

/-- The tables, and how often what a refresh of the repository reads may have changed. -/
structure Shared where
  world : World
  version : Nat

section statements

variable (id : Id)

def Statement.apply (w : World) : Target → Statement → World
  | .elsewhere q, .storeScan d findings report => w.storeScanResult d (some q) findings report
  | .elsewhere q, .scanStatus d status => w.setScanStatus d (some q) status
  | _, .storeScan d findings report => w.storeScanResult d (some id) findings report
  | _, .scanStatus d status => w.setScanStatus d (some id) status
  | _, .upsertSignature row => w.upsertSignature id row
  | _, .deleteSignature m s => w.deleteSignature id m s
  | _, .insertException rule => w.insertException rule
  | _, .deleteException e => w.deleteException e
  | .organization o, .orgPolicy settings => w.setOrgSettings o settings
  | _, .orgPolicy _ => w
  | _, .repoPolicy level unrated signature => w.setRepoPolicy id level unrated signature
  | _, .transfer o => w.transfer id o

/-- The statements a change of each kind makes: one for an organization sets its policy or
changes an exception that is for all its repositories, another repository shares its scans. -/
def Statement.fits (w : World) : Target → Statement → Bool
  | .repository, .orgPolicy _ => false
  | .repository, .scanStatus _ status => decide (status ≠ .scanned)
  | .repository, _ => true
  | .organization _, .orgPolicy _ => true
  | .organization o, .insertException rule =>
    decide (rule.organizationId = o ∧ rule.repositoryId = none)
  | .organization o, .deleteException e =>
    w.exceptions.all fun rule => decide (rule.id = e →
      rule.organizationId = o ∧ rule.repositoryId = none)
  | .organization _, _ => false
  | .elsewhere q, .storeScan _ _ _ => decide (q ≠ id)
  | .elsewhere q, .scanStatus _ status => decide (q ≠ id ∧ status ≠ .scanned)
  | .elsewhere _, _ => false

def Target.concerns (w : World) : Target → Bool
  | .repository => true
  | .organization o => (w.repo id).any fun r => decide (r.row.organizationId = o)
  | .elsewhere _ => false

def Repo.holds (r : Repo) (d : Digest) : Bool := (r.manifests.map (·.digest)).contains d

/-- Whether a statement may change what a refresh of the repository reads. -/
def Statement.touches (w : World) : Target → Statement → Bool
  | .elsewhere _, .storeScan d _ _ => (w.repo id).any (·.holds d)
  | .elsewhere _, .scanStatus d _ => (w.repo id).any (·.holds d)
  | target, _ => target.concerns id w

end statements

/-- What a refresh reads next. -/
inductive Stage where
  | org
  | rows
  | scans
  | rules
  | tags
  | signatures
  | existing
deriving DecidableEq

inductive RunPc where
  | changing (todo : List Statement)
  /-- The repositories to refresh are read. -/
  | list
  /-- The repository is read. -/
  | start
  /-- The rest is read, `since` the version at the first read. -/
  | reading (stage : Stage) (rd : Reading) (since : Nat)
  | writing (todo : List BlockWrite)
  | done

/-- A change with its refresh. -/
structure Task where
  target : Target
  pc : RunPc

def Reading.judgesScans (rd : Reading) : Bool :=
  (effectivePolicy rd.org rd.repo).level.isSome && !rd.rows.isEmpty

def Reading.judgesSignatures (rd : Reading) : Bool :=
  !rd.rows.isEmpty && effectiveSignaturePolicy rd.org rd.repo

def Reading.afterScans (rd : Reading) : Stage := if rd.judgesSignatures then .tags else .existing

def Reading.afterRows (rd : Reading) : Stage :=
  if rd.judgesScans then .scans else rd.afterScans

def Reading.blank (repo : RepoRow) : Reading := ⟨0, repo, none, [], [], [], [], []⟩

section runs

variable (lower : String → String) (id : Id)

def readStep (s : Shared) (r : Repo) (rd : Reading) (since : Nat) : Stage → RunPc
  | .org => .reading .rows { rd with org := s.world.org rd.repo.organizationId } since
  | .rows =>
    let rd := { rd with rows := r.manifests }
    .reading rd.afterRows rd since
  | .scans => .reading .rules { rd with scans := s.world.scansOf rd.rows } since
  | .rules =>
    let rd := { rd with
      now := s.world.now, rules := s.world.rulesFor rd.repo.organizationId rd.repo.id }
    .reading rd.afterScans rd since
  | .tags => .reading .signatures { rd with tags := r.tags } since
  | .signatures => .reading .existing { rd with signatures := r.signatures } since
  | .existing =>
    match compute lower rd with
    | none => .done
    | some c => .writing (c.writes r.blocks)

def runAct (s : Shared) (_ : Nat) (t : Task) (_ : Unit) : Option (Shared × Task) :=
  match t.pc with
  | .changing [] =>
    some (s, { t with pc := if t.target = .repository then .start else .list })
  | .changing (statement :: todo) =>
    if statement.fits id s.world t.target then
      some (⟨statement.apply id s.world t.target,
        if statement.touches id s.world t.target then s.version + 1 else s.version⟩,
        { t with pc := .changing todo })
    else none
  | .list => some (s, { t with pc := if t.target.concerns id s.world then .start else .done })
  | .start =>
    (s.world.repo id).map fun r =>
      (s, { t with pc := .reading .org (.blank r.row) s.version })
  | .reading stage rd since =>
    (s.world.repo id).map fun r => (s, { t with pc := readStep lower s r rd since stage })
  | .writing [] => some (s, { t with pc := .done })
  | .writing (write :: todo) =>
    (s.world.repo id).map fun r =>
      ({ s with world := s.world.setBlocks id (write.apply r.blocks) },
        { t with pc := .writing todo })
  | .done => none

def Task.fresh (t : Task) : Bool :=
  match t.pc with
  | .changing _ => true
  | _ => false

def refreshProgram : Program Shared Task Unit Empty where
  init s := s.world.Keyed ∧ (s.world.repo id).isSome ∧ s.version = 0
  fresh := Task.fresh
  act := runAct lower id
  env _ e := nomatch e

abbrev refreshMachine : Machine (Pool Shared Task) (Move Task Unit Empty) :=
  (refreshProgram lower id).machine

end runs

/-! ## When the blocks have converged -/

def Task.isDone (t : Task) : Bool :=
  match t.pc with
  | .done => true
  | _ => false

/-- The blocks of the repository are those one more refresh would leave. -/
def Converged (lower : String → String) (id : Id) (w : World) : Prop :=
  ∀ r r', w.repo id = some r → (w.refresh lower id).repo id = some r' →
    ∀ b, b ∈ r'.blocks ↔ b ∈ r.blocks

def Task.awaits (id : Id) (s : Shared) (t : Task) : Bool :=
  match t.pc with
  | .changing _ | .list => t.target.concerns id s.world
  | .start => true
  | .reading _ _ _ | .writing _ | .done => false

/-- A run that has yet to see the existing rows, from a reading of the tables as they are. -/
def Task.looksAgain (id : Id) (s : Shared) (t : Task) : Bool :=
  match t.pc with
  | .reading _ _ since => decide (since = s.version)
  | _ => t.awaits id s

/-- The write a refresh of the tables as they are would make, or leave made. -/
def Computed.agrees (c : Computed) : BlockWrite → Bool
  | .upsert b => decide (Table.find (·.digest) b.digest c.rows = some b)
  | .delete d => (Table.find (·.digest) d c.rows).isNone

def fitsNow (lower : String → String) (id : Id) (w : World) (write : BlockWrite) : Bool :=
  (w.repo id).all fun r => (compute lower (w.reading r)).all fun c => c.agrees write

/-- The condition on a step: a row is written that fits the tables as they are, or while some
run has yet to look; a scan another repository asked for is stored while some run has yet to
begin, if it is of a manifest the repository holds. -/
def writesInTime (lower : String → String) (id : Id) (p : Pool Shared Task) :
    Move Task Unit Empty → Bool
  | .act i _ =>
    (p.tasks[i]?).all fun t : Task =>
      match t.pc with
      | .writing (write :: _) =>
        fitsNow lower id p.shared.world write || p.tasks.any (Task.looksAgain id p.shared)
      | .changing (statement :: _) =>
        t.target.concerns id p.shared.world || !statement.touches id p.shared.world t.target ||
          p.tasks.any (Task.awaits id p.shared)
      | _ => true
  | _ => true

abbrev WritesInTime (lower : String → String) (id : Id) (p : Pool Shared Task)
    (m : Move Task Unit Empty) : Prop :=
  writesInTime lower id p m = true

end Chicoree.PullBlocks
