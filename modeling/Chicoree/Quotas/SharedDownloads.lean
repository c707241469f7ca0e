import Chicoree.Lib.Flight
import Chicoree.Quotas.StoreQuota
import Chicoree.Registryd.Registry

/-! # Downloads that organizations share

`ensureProxiedBlob` and `downloadProxiedBlob`, each of their calls a step of its own: a blob
that is not stored yet is downloaded once for all requests that ask for it meanwhile, under
the quota of the organization that came first, and every request then asks for its own. -/

namespace Chicoree.Quotas

open Transition
open Registryd (OrgId Digest Db Repository ProxyOrg Time)

/-! ## Downloads -/

inductive DownloadError where
  | quota (e : Store.QuotaError)
  /-- The upstream, the transfer or the storage. -/
  | other

inductive SharedPc where
  | acquire
  | openBlob
  | hasBlob (size : Nat)
  | quota (size : Nat)
  | stage (length : Option Nat)
  | lateHasBlob (n : Nat)
  | lateQuota (n : Nat)
  | put (n : Nat)
  | register (n : Nat)
  | finished (result : Except DownloadError Nat)

/-- A download: the organization whose request leads it, and where it is. -/
structure SharedDownload where
  orgId : OrgId
  path : String
  /-- How much had happened when it began; no call reads it. -/
  since : Nat
  pc : SharedPc := .acquire

abbrev SharedCall := Flight.Call Digest SharedDownload

inductive CallReply where
  | ok
  | failed
  /-- The length that the upstream announces, if it does. -/
  | opened (length : Option Nat)
  /-- What was staged: its length, and its digest. -/
  | staged (n : Nat) (actual : Digest)
deriving DecidableEq

/-- The tables when a storage check refused an organization. -/
structure Refusal where
  orgId : OrgId
  digest : Digest
  size : Nat
  db : Db
  accounts : Accounts
deriving DecidableEq

inductive Event where
  | refused (r : Refusal)
  /-- A request has passed the quota check of its organization. -/
  | passed (request : Nat) (org : OrgId) (digest : Digest)
  /-- A request has linked a repository of its organization to the blob. -/
  | linked (request : Nat) (org : OrgId) (digest : Digest)
deriving DecidableEq

structure Hub where
  db : Db := {}
  accounts : Accounts := {}
  calls : List SharedCall := []
  now : Time := 0
  /-- No call reads it. -/
  events : List Event := []

namespace Hub

def check (s : Hub) (org : OrgId) (size : Nat) : Option Store.QuotaError :=
  Store.checkContentQuota s.accounts s.db org size

def note (s : Hub) (e : Event) : Hub := { s with events := s.events ++ [e] }

def refuse (s : Hub) (org : OrgId) (d : Digest) (size : Nat) : Hub :=
  s.note (.refused ⟨org, d, size, s.db, s.accounts⟩)

end Hub

/-! ## One download -/

def sharedStep (s : Hub) (d : Digest) (x : SharedDownload) (a : CallReply) :
    Option (Hub × SharedPc) :=
  match x.pc with
  | .finished _ => none
  | .acquire =>
    if a = .failed then some (s, .finished (.error .other)) else some (s, .openBlob)
  | .openBlob =>
    match a with
    | .opened (some size) => some (s, .hasBlob size)
    | .opened none => some (s, .stage none)
    | .failed => some (s, .finished (.error .other))
    | _ => none
  | .hasBlob size =>
    if a = .failed then some (s, .finished (.error .other))
    else if s.db.orgHasBlob x.orgId d then some (s, .stage (some size))
    else some (s, .quota size)
  | .quota size =>
    if a = .failed then some (s, .finished (.error .other))
    else
      match s.check x.orgId size with
      | some e => some (s.refuse x.orgId d size, .finished (.error (.quota e)))
      | none => some (s, .stage (some size))
  | .stage length =>
    match a with
    | .staged n actual =>
      if length.any fun size => decide (n ≠ size) then some (s, .finished (.error .other))
      else if actual ≠ d then some (s, .finished (.error .other))
      else if length.isNone then some (s, .lateHasBlob n)
      else some (s, .put n)
    | .failed => some (s, .finished (.error .other))
    | _ => none
  | .lateHasBlob n =>
    if a = .failed then some (s, .finished (.error .other))
    else if s.db.orgHasBlob x.orgId d then some (s, .put n)
    else some (s, .lateQuota n)
  | .lateQuota n =>
    if a = .failed then some (s, .finished (.error .other))
    else
      match s.check x.orgId n with
      | some e => some (s.refuse x.orgId d n, .finished (.error (.quota e)))
      | none => some (s, .put n)
  | .put n =>
    if a = .failed then some (s, .finished (.error .other)) else some (s, .register n)
  | .register n =>
    if a = .failed then some (s, .finished (.error .other))
    else some ({ s with db := s.db.insertBlob d n s.now }, .finished (.ok n))

/-! ## One request -/

inductive ProxyAnswer where
  /-- The blob may be served from what is stored. -/
  | goesOn
  | denied (e : Store.QuotaError)
  | notAllowed
  | cancelled
  | upstream
  | internal
deriving DecidableEq

inductive SharePc where
  | referenced
  | blobExists
  | download
  | wait (call : Nat)
  | hasBlob (size : Nat)
  | quota (size : Nat)
  | upsertBlob (size : Nat)
  | done (answer : ProxyAnswer)
deriving DecidableEq

structure BlobRequest where
  repo : Repository
  px : ProxyOrg
  name : String
  digest : Digest
  /-- How much had happened when it began, or when the download began that it joined. -/
  since : Nat := 0
  pc : SharePc := .referenced
deriving DecidableEq

def BlobRequest.to (r : BlobRequest) (pc : SharePc) : BlobRequest := { r with pc := pc }

def ensureShared (s : Hub) (i : Nat) (r : BlobRequest) (a : CallReply) :
    Option (Hub × BlobRequest) :=
  match r.pc with
  | .referenced =>
    let r := { r with since := s.events.length }
    if a = .failed then some (s, r.to (.done .internal))
    -- only blobs a cached manifest needs are fetched
    else if s.db.isManifestReference r.repo.id r.digest then some (s, r.to .blobExists)
    else some (s, r.to (.done .goesOn))
  | .blobExists =>
    if a = .failed then some (s, r.to (.done .internal))
    else
      match s.db.blobExists r.digest with
      | some size => some (s, r.to (.hasBlob size))
      | none =>
        if !r.px.enabled then some (s, r.to (.done .goesOn))
        else if !r.px.allows (r.px.upstreamPath r.name) then some (s, r.to (.done .notAllowed))
        else some (s, r.to .download)
  | .download =>
    let work : SharedDownload :=
      { orgId := r.repo.orgId, path := r.px.upstreamPath r.name, since := s.events.length }
    let (calls, call) := Flight.join r.digest work s.calls
    let since := min r.since ((calls[call]?.map fun c => c.work.since).getD r.since)
    some ({ s with calls := calls }, { r with since := since, pc := .wait call })
  | .wait call =>
    -- the client hung up; the download goes on
    if a = .failed then some (s, r.to (.done .cancelled))
    else
      match s.calls[call]? with
      | some ⟨_, ⟨_, _, _, .finished result⟩, false⟩ =>
        match result with
        | .ok size => some (s, r.to (.hasBlob size))
        | .error (.quota e) => some (s, r.to (.done (.denied e)))
        | .error .other => some (s, r.to (.done .upstream))
      | _ => none
  | .hasBlob size =>
    if a = .failed then some (s, r.to (.done .internal))
    else if s.db.orgHasBlob r.repo.orgId r.digest then
      some (s.note (.passed i r.repo.orgId r.digest), r.to (.upsertBlob size))
    else some (s, r.to (.quota size))
  | .quota size =>
    if a = .failed then some (s, r.to (.done .internal))
    else
      match s.check r.repo.orgId size with
      | some e => some (s.refuse r.repo.orgId r.digest size, r.to (.done (.denied e)))
      | none => some (s.note (.passed i r.repo.orgId r.digest), r.to (.upsertBlob size))
  | .upsertBlob size =>
    if a = .failed then some (s, r.to (.done .internal))
    else
      match s.db.upsertBlob r.repo.id r.digest size s.now with
      | some db =>
        some ({ s with db := db }.note (.linked i r.repo.orgId r.digest), r.to (.done .goesOn))
      | none => some (s, r.to (.done .internal))
  | .done _ => none

/-- A download goes on or is taken off the list, time passes, and whatever else the registry
does changes the tables. -/
inductive Elsewhere where
  | download (call : Nat) (a : CallReply)
  | unlist (call : Nat)
  | tables (db : Db) (accounts : Accounts)
  | wait (d : Nat)

def elsewhere (s : Hub) : Elsewhere → Option Hub
  | .download call a =>
    match s.calls[call]? with
    | none => none
    | some c =>
      (sharedStep s c.key c.work a).map fun x =>
        { x.1 with calls := s.calls.set call { c with work := { c.work with pc := x.2 } } }
  | .unlist call =>
    match s.calls[call]? with
    | some ⟨key, ⟨org, path, since, .finished result⟩, true⟩ =>
      some { s with calls := s.calls.set call ⟨key, ⟨org, path, since, .finished result⟩, false⟩ }
    | _ => none
  | .tables db accounts => some { s with db := db, accounts := accounts }
  | .wait d => some { s with now := s.now + d }

def shareProgram : Program Hub BlobRequest CallReply Elsewhere where
  init s := s.calls = [] ∧ s.events = []
  fresh r := decide (r.pc = .referenced)
  act := ensureShared
  env := elsewhere

abbrev shareMachine : Machine (Pool Hub BlobRequest) (Move BlobRequest CallReply Elsewhere) :=
  shareProgram.machine

end Chicoree.Quotas
