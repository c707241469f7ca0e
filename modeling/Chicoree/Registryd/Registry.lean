import Chicoree.Lib.Wildcard
import Chicoree.Registryd.BlobHandlers

/-! # What requests share

The registry as its requests see it: the content tables and the driver, the cached
proxy configuration, the downloads under way, and a history of what was shown and
served, which no handler reads. -/

namespace Chicoree.Registryd

/-! ## Principals -/

structure AccessGrant where
  type : String
  name : String
  actions : List String
deriving DecidableEq

/-- The verified bearer token of a request. -/
structure Identity where
  subject : String
  access : List AccessGrant
deriving DecidableEq

/-- `Can`: the token grants an action on a resource. -/
def Identity.can (who : Identity) (type name action : String) : Bool :=
  who.access.any fun g => decide (g.type = type ∧ g.name = name) &&
    (g.actions.contains action || g.actions.contains "*")

/-- The proxy configuration of one organization. -/
structure ProxyOrg where
  orgId : OrgId
  slug : String
  dockerHub : Bool := false
  /-- The allow-list; an empty one allows everything. -/
  patterns : List String := []
  enabled : Bool := true
deriving DecidableEq

/-- `*` matches anything, slashes too, and `?` one character. -/
def globMatch : List Char → List Char → Bool
  | [], s => s.isEmpty
  | '*' :: p, s => Glob.star (fun _ => true) (globMatch p) s
  | _ :: _, [] => false
  | a :: p, c :: s => (decide (a = '?') || decide (a = c)) && globMatch p s

def ProxyOrg.allows (px : ProxyOrg) (path : String) : Bool :=
  px.patterns.isEmpty || px.patterns.any fun p => globMatch p.toList path.toList

/-- Single-component names on Docker Hub become `library/<name>`. -/
def ProxyOrg.upstreamPath (px : ProxyOrg) (name : String) : String :=
  if px.dockerHub && !name.toList.contains '/' then "library/" ++ name else name

/-! ## Downloads -/

/-- Where `downloadProxiedBlob` stands, with what it has of the upstream's answer. -/
inductive DownloadPc where
  | openBlob
  | quota (content : Bytes) (length : Nat)
  | stage (content : Bytes) (length : Option Nat)
  | lateQuota (content : Bytes)
  | stat (content : Bytes)
  | put (content : Bytes)
  | register (content : Bytes)
  /-- Successful, with the size. -/
  | finished (size : Nat)
  /-- Failed, with the status the waiting requests answer. -/
  | failed (status : Nat)

/-- A call of the download group, for the organization whose request led. -/
structure Download where
  digest : Digest
  px : ProxyOrg
  /-- The organization the quotas are checked for. -/
  orgId : OrgId
  path : String
  pc : DownloadPc

def Download.running (dl : Download) : Bool :=
  match dl.pc with
  | .finished _ | .failed _ => false
  | _ => true

/-- What happened between the registry and its surroundings. -/
inductive Event where
  /-- Bytes were uploaded to a repository of the organization. -/
  | uploaded (orgId : OrgId) (content : Bytes)
  /-- The principal's token could pull a repository that held the blob. -/
  | pullable (who : Identity) (d : Digest)
  /-- The principal mounted the blob into a repository of the organization. -/
  | mounted (who : Identity) (orgId : OrgId) (d : Digest)
  /-- The organization's configured upstream sent bytes. -/
  | delivered (orgId : OrgId) (content : Bytes)
  /-- Bytes were served through a repository of the organization. -/
  | served (orgId : OrgId) (d : Digest)
deriving DecidableEq

structure ManifestRow where
  repositoryId : RepoId
  digest : Digest
deriving DecidableEq

structure Registry where
  storage : Storage
  manifests : List ManifestRow := []
  /-- The configuration cache. -/
  proxies : List ProxyOrg := []
  /-- The download group; a call keeps its place. -/
  downloads : List Download := []
  /-- The verifier lets everybody do everything. -/
  authDisabled : Bool := false
  /-- Identifiers that were generated for repositories. -/
  issued : List RepoId := []
  history : List Event := []

namespace Registry

@[reducible] def db (s : Registry) : Db := s.storage.db

def withDb (s : Registry) (db : Db) : Registry :=
  { s with storage := { s.storage with db := db } }

def withDriver (s : Registry) (driver : Driver) : Registry :=
  { s with storage := { s.storage with driver := driver } }

def proxyFor (s : Registry) (slug : String) : Option ProxyOrg :=
  Table.find ProxyOrg.slug slug s.proxies

def manifestExists (s : Registry) (repo : RepoId) (d : Digest) : Bool :=
  s.manifests.contains ⟨repo, d⟩

end Registry

/-! ## Further statements -/

namespace Db

def repositoryExists (db : Db) (repo : RepoId) : Bool :=
  db.repositories.any fun r => decide (r.id = repo)

/-- `BlobExists`: known to any repository. -/
def blobExists (db : Db) (d : Digest) : Option Nat :=
  (Table.find Blob.digest d db.blobs).map (·.size)

/-- `LinkedBlobSize`: the size of a blob the repository holds. -/
def linkedBlobSize (db : Db) (repo : RepoId) (d : Digest) : Option Nat :=
  if db.repositoryBlobs.any fun l => decide (l.repositoryId = repo ∧ l.blobDigest = d) then
    db.blobExists d
  else none

def mountBlob (db : Db) (repo : RepoId) (d : Digest) (now : Time) : Option Db :=
  if db.repositoryExists repo && (db.blobExists d).isSome then some (db.linkBlob repo d now)
  else none

def isManifestReference (db : Db) (repo : RepoId) (d : Digest) : Bool :=
  db.manifestRefs.any fun m => decide (m.repositoryId = repo ∧ m.refDigest = d)

end Db

/-- What `manifest.Parse` makes of a payload. -/
structure Parsed where
  digest : Digest
  config : Option Digest := none
  /-- Layers, and whether they are foreign. -/
  layers : List (Digest × Bool) := []
  children : List Digest := []
deriving DecidableEq

def Parsed.blobs (m : Parsed) : List Digest :=
  m.config.toList ++ (m.layers.filter fun l => !l.2).map Prod.fst

/-- `References`: foreign layers and the subject are left out. -/
def Parsed.references (m : Parsed) : List Digest :=
  m.blobs ++ m.children

/-- `UpsertManifest`: the row and its references, in one transaction. -/
def Registry.upsertManifest (s : Registry) (repo : RepoId) (m : Parsed) : Option Registry :=
  if s.db.repositoryExists repo then
    let others := s.db.manifestRefs.filter fun x =>
      decide (¬(x.repositoryId = repo ∧ x.manifestDigest = m.digest))
    let refs := m.references.eraseDups.map fun d => ⟨repo, m.digest, d⟩
    some { s.withDb { s.db with manifestRefs := others ++ refs } with
      manifests := Table.insertNew id ⟨repo, m.digest⟩ s.manifests }
  else none

end Chicoree.Registryd
