import Chicoree.Registryd.Registry

/-! # Pulls through the proxy cache

`proxy.go` and the blob and manifest GETs around it, one call at a time. A download
runs on its own: the requests for its digest wait for it, also those of other
organizations. -/

namespace Chicoree.Registryd

open Option

inductive Reply where
  | answer (a : Answer)
  /-- The redirect tables lead to the repository. -/
  | moved (repo : RepoId)
  /-- The local copy of a tag is fresh, unchanged, or all there is. -/
  | cached
  /-- The upstream's manifest. -/
  | manifest (m : Parsed)
deriving DecidableEq

/-! ## Downloads -/

inductive DownloadReply where
  /-- The upstream's body, and the length it announced. -/
  | body (content : Bytes) (length : Option Nat)
  /-- The upstream or a call failed. -/
  | error (status : Nat)
  | answer (a : Answer)

section downloads

variable (hash : Bytes → Digest)

def downloadStep (s : Registry) (dl : Download) :
    DownloadPc → DownloadReply → Option (Registry × DownloadPc)
  | .finished _, _ | .failed _, _ => none
  | _, .error status => some (s, .failed status)
  | .openBlob, .body content (some n) => some (s, .quota content n)
  | .openBlob, .body content none => some (s, .stage content none)
  | .quota content n, .answer .ok => some (s, .stage content (some n))
  -- blobs the organization already holds are free
  | .quota _ _, .answer .refused =>
    if s.db.orgHasBlob dl.orgId dl.digest then none else some (s, .failed 403)
  | .stage content length, .answer .ok =>
    if length.any fun n => decide (content.length ≠ n) then some (s, .failed 502)
    else if hash content ≠ dl.digest then some (s, .failed 502)
    else some (s, if length.isNone then .lateQuota content else .stat content)
  | .lateQuota content, .answer .ok => some (s, .stat content)
  | .lateQuota _, .answer .refused =>
    if s.db.orgHasBlob dl.orgId dl.digest then none else some (s, .failed 403)
  | .stat content, .answer .ok =>
    some (s, if s.storage.driver.stat dl.digest then .register content else .put content)
  | .put content, .answer .ok =>
    some (s.withDriver (s.storage.driver.put dl.digest content), .register content)
  | .put content, .answer .lost =>
    some (s.withDriver (s.storage.driver.put dl.digest content), .failed 502)
  | .register content, .answer .ok =>
    some (s.withDb (s.db.insertBlob dl.digest content.length s.storage.now),
      .finished content.length)
  | .register content, .answer .lost =>
    some (s.withDb (s.db.insertBlob dl.digest content.length s.storage.now), .failed 502)
  | _, _ => none

end downloads

inductive DownloadCall (hash : Bytes → Digest) (s : Registry) (dl : Download) :
    DownloadPc → DownloadReply → Registry → DownloadPc → Prop
  | error {pc : DownloadPc} {status : Nat} :
      DownloadCall hash s dl pc (.error status) s (.failed status)
  | refused {pc : DownloadPc} {a : DownloadReply} {status : Nat} (high : 400 ≤ status) :
      DownloadCall hash s dl pc a s (.failed status)
  | announced {content : Bytes} {n : Nat} :
      DownloadCall hash s dl .openBlob (.body content (some n)) s (.quota content n)
  | unannounced {content : Bytes} :
      DownloadCall hash s dl .openBlob (.body content none) s (.stage content none)
  | room {content : Bytes} {n : Nat} :
      DownloadCall hash s dl (.quota content n) (.answer .ok) s (.stage content (some n))
  | stagedLate {content : Bytes} {length : Option Nat} (digest : hash content = dl.digest) :
      DownloadCall hash s dl (.stage content length) (.answer .ok) s (.lateQuota content)
  | staged {content : Bytes} {length : Option Nat} (digest : hash content = dl.digest) :
      DownloadCall hash s dl (.stage content length) (.answer .ok) s (.stat content)
  | lateRoom {content : Bytes} :
      DownloadCall hash s dl (.lateQuota content) (.answer .ok) s (.stat content)
  | stored {content : Bytes} :
      DownloadCall hash s dl (.stat content) (.answer .ok) s (.register content)
  | missing {content : Bytes} :
      DownloadCall hash s dl (.stat content) (.answer .ok) s (.put content)
  | put {content : Bytes} : DownloadCall hash s dl (.put content) (.answer .ok)
      (s.withDriver (s.storage.driver.put dl.digest content)) (.register content)
  | putLost {content : Bytes} : DownloadCall hash s dl (.put content) (.answer .lost)
      (s.withDriver (s.storage.driver.put dl.digest content)) (.failed 502)
  | register {content : Bytes} : DownloadCall hash s dl (.register content) (.answer .ok)
      (s.withDb (s.db.insertBlob dl.digest content.length s.storage.now)) (.finished content.length)
  | registerLost {content : Bytes} : DownloadCall hash s dl (.register content) (.answer .lost)
      (s.withDb (s.db.insertBlob dl.digest content.length s.storage.now)) (.failed 502)

theorem downloadStep_call {hash : Bytes → Digest} {s s' : Registry} {dl : Download}
    {pc pc' : DownloadPc} {a : DownloadReply} (h : downloadStep hash s dl pc a = some (s', pc')) :
    DownloadCall hash s dl pc a s' pc' := by
  unfold downloadStep at h
  split at h
  · cases h
  · cases h
  · cases h
    exact .error
  · cases h
    exact .announced
  · cases h
    exact .unannounced
  · cases h
    exact .room
  · split at h <;> cases h
    exact .refused (by decide)
  · split at h
    · cases h
      exact .refused (by decide)
    · split at h
      · cases h
        exact .refused (by decide)
      · rename_i hdigest
        cases h
        split
        · exact .stagedLate (not_not.mp hdigest)
        · exact .staged (not_not.mp hdigest)
  · cases h
    exact .lateRoom
  · split at h <;> cases h
    exact .refused (by decide)
  · cases h
    split
    · exact .stored
    · exact .missing
  · cases h
    exact .put
  · cases h
    exact .putLost
  · cases h
    exact .register
  · cases h
    exact .registerLost
  · cases h

/-- Join the running download of a digest, or lead a new one (`Group.Do`). -/
def joinDownload (s : Registry) (dl : Download) : Registry × Nat :=
  match s.downloads.findIdx? fun x => decide (x.digest = dl.digest) && x.running with
  | some i => (s, i)
  | none => ({ s with downloads := s.downloads ++ [dl] }, s.downloads.length)

structure BlobGet where
  org : String
  name : String
  digest : Digest
deriving DecidableEq

inductive BlobGetPc where
  | getRepository
  | moved
  | linked (repo : Repository)
  | referenced (repo : Repository) (px : ProxyOrg)
  | blobExists (repo : Repository) (px : ProxyOrg)
  | download (repo : Repository) (px : ProxyOrg)
  | wait (repo : Repository) (call : Nat)
  | storageQuota (repo : Repository) (size : Nat)
  | upsertBlob (repo : Repository) (size : Nat)
  | relinked (repo : Repository)
  | serve (repo : Repository)
  | done (status : Nat)
deriving DecidableEq

def ensureProxiedBlob (s : Registry) (rq : BlobGet) :
    BlobGetPc → Reply → Option (Registry × BlobGetPc)
  | .referenced r px, .answer .ok =>
    -- only blobs a cached manifest needs are fetched
    if s.db.isManifestReference r.id rq.digest then some (s, .blobExists r px)
    else some (s, .relinked r)
  | .blobExists r px, .answer .ok =>
    match s.db.blobExists rq.digest with
    -- content another repository already holds: no upstream round trip
    | some size => some (s, .storageQuota r size)
    | none =>
      if !px.enabled then some (s, .relinked r)
      else if !px.allows (px.upstreamPath rq.name) then some (s, .done 403)
      else some (s, .download r px)
  | .download r px, .answer .ok =>
    let (s', i) := joinDownload s
      ⟨rq.digest, px, r.orgId, px.upstreamPath rq.name, .openBlob⟩
    some (s', .wait r i)
  | .wait r i, .answer .ok =>
    match s.downloads[i]?.map Download.pc with
    | some (.finished n) => some (s, .storageQuota r n)
    | some (.failed status) => some (s, .done status)
    | _ => none
  -- the client hung up; the download goes on
  | .wait _ _, .answer .refused => some (s, .done 503)
  | .storageQuota r size, .answer .ok => some (s, .upsertBlob r size)
  | .storageQuota r _, .answer .refused =>
    if s.db.orgHasBlob r.orgId rq.digest then none else some (s, .done 403)
  | .upsertBlob r size, .answer .ok =>
    match s.db.upsertBlob r.id rq.digest size s.storage.now with
    | some db => some (s.withDb db, .relinked r)
    | none => some (s, .done 500)
  | .upsertBlob r size, .answer .lost =>
    (s.db.upsertBlob r.id rq.digest size s.storage.now).map fun db =>
      (s.withDb db, .done 500)
  | _, _ => none

def handleBlobGet (s : Registry) (rq : BlobGet) :
    BlobGetPc → Reply → Option (Registry × BlobGetPc)
  | .done _, _ => none
  | .wait _ _, .answer .failed => none
  | _, .answer .failed => some (s, .done 500)
  | .getRepository, .answer .ok =>
    match s.db.getRepository rq.org rq.name with
    | some r => some (s, .linked r)
    | none => some (s, .moved)
  -- former names resolve to the target
  | .moved, .moved id =>
    match Table.find Repository.id id s.db.repositories with
    | some r => some (s, .linked r)
    | none => none
  | .moved, .answer .ok => some (s, .done 404)
  | .linked r, .answer .ok =>
    match s.db.linkedBlobSize r.id rq.digest with
    | some _ => some (s, .serve r)
    | none =>
      match s.proxyFor rq.org with
      | some px => some (s, .referenced r px)
      | none => some (s, .done 404)
  | .relinked r, .answer .ok =>
    match s.db.linkedBlobSize r.id rq.digest with
    | some _ => some (s, .serve r)
    | none => some (s, .done 404)
  -- the bytes, or a signed URL for them
  | .serve _, .answer .ok =>
    some (s, .done (if s.storage.driver.stat rq.digest then 200 else 404))
  | pc, a => ensureProxiedBlob s rq pc a

/-! ## Manifests -/

/-- What a manifest is asked for by. -/
inductive Reference where
  | digest (d : Digest)
  | tag (name : String)
deriving DecidableEq

structure ManifestGet where
  org : String
  name : String
  ref : Reference
deriving DecidableEq

inductive ManifestGetPc where
  | getRepository
  /-- `ManifestExists`, or the tag's state and its check with the upstream. -/
  | cached (px : ProxyOrg) (repo : Option Repository)
  | getManifest (px : ProxyOrg)
  | manifestQuota (px : ProxyOrg) (m : Parsed)
  | proxyRepository (px : ProxyOrg) (m : Parsed)
  | defaultVisibility (px : ProxyOrg) (m : Parsed)
  | repositoryQuota (px : ProxyOrg) (m : Parsed) (v : Visibility)
  | ensureRepository (m : Parsed) (pc : ResolvePc)
  | upsertManifest (m : Parsed) (repo : Repository)
  | upsertTag
  | serve
  | done (status : Nat)
deriving DecidableEq

/-- What a fetched manifest is answered with when it is not the one asked for. -/
def Reference.names (ref : Reference) (m : Parsed) : Bool :=
  match ref with
  | .digest d => decide (m.digest = d)
  | .tag _ => true

def Reference.isTag : Reference → Bool
  | .digest _ => false
  | .tag _ => true

/-- After the local copy was not enough: the upstream may be asked, or not. -/
def ensureFromUpstream (px : ProxyOrg) (rq : ManifestGet) : ManifestGetPc :=
  if !px.enabled then .serve
  else if !px.allows (px.upstreamPath rq.name) then .done 403
  else .getManifest px

/-- One call of `handleManifestGet` and `ensureProxiedManifest`. -/
def handleManifestGet (s : Registry) (rq : ManifestGet) :
    ManifestGetPc → Reply → Option (Registry × ManifestGetPc)
  | .done _, _ => none
  | .getManifest _, .answer .failed => some (s, .done 502)
  | _, .answer .failed => some (s, .done 500)
  | .getRepository, .answer .ok =>
    match s.proxyFor rq.org with
    | some px => some (s, .cached px (s.db.getRepository rq.org rq.name))
    | none => some (s, .serve)
  | .cached px repo, .answer .ok =>
    match rq.ref with
    | .digest d =>
      if repo.any fun r => s.manifestExists r.id d then some (s, .serve)
      else some (s, ensureFromUpstream px rq)
    | .tag _ => some (s, ensureFromUpstream px rq)
  | .cached _ _, .cached => if rq.ref.isTag then some (s, .serve) else none
  | .getManifest px, .manifest m =>
    if rq.ref.names m then some (s, .manifestQuota px m) else some (s, .done 502)
  | .manifestQuota px m, .answer .ok => some (s, .proxyRepository px m)
  | .manifestQuota _ _, .answer .refused => some (s, .done 403)
  | .proxyRepository px m, .answer .ok =>
    match s.db.getRepository rq.org rq.name with
    | some r => some (s, .upsertManifest m r)
    | none => some (s, .defaultVisibility px m)
  | .defaultVisibility px m, .answer (.visibility v) => some (s, .repositoryQuota px m v)
  | .repositoryQuota _ m v, .answer .ok => some (s, .ensureRepository m (.ensureGet v))
  | .repositoryQuota _ _ _, .answer .refused => some (s, .done 403)
  | .ensureRepository m pc, .answer a =>
    match resolveStep s.db rq.org rq.name m.digest pc a with
    | none => none
    | some (db, .more pc') => some (s.withDb db, .ensureRepository m pc')
    | some (db, .answered status) => some (s.withDb db, .done status)
    | some (db, .repo r) => some (s.withDb db, .upsertManifest m r)
  | .upsertManifest m r, .answer .ok =>
    match s.upsertManifest r.id m with
    | some s' => some (s', if rq.ref.isTag then .upsertTag else .serve)
    | none => some (s, .done 500)
  | .upsertManifest m r, .answer .lost =>
    (s.upsertManifest r.id m).map fun s' => (s', .done 500)
  | .upsertTag, .answer .ok => some (s, .serve)
  -- the manifest, or why it is not served
  | .serve, .answer .ok => some (s, .done 200)
  | .serve, .answer .refused => some (s, .done 404)
  | _, _ => none

/-! ## Requests side by side

Uploads, mounts, manifest pushes and pulls, with blob deletes and garbage
collections, in any order of their calls, and the history they leave: what was
uploaded, delivered and mounted is noted where it happens, whatever the handler makes
of it. -/

def libraryOrg : String := "library"

/-- `splitMountSource` of a well-formed name: top-level names belong to the library
organization, deeper paths are no sources. -/
def splitMountSource (source : String) : Option (String × String) :=
  match source.toList.splitOn '/' with
  | [name] => some (libraryOrg, String.ofList name)
  | [org, name] => some (String.ofList org, String.ofList name)
  | _ => none

/-- A mount whose digest and source name are well formed. -/
structure MountRequest where
  who : Identity
  org : String
  name : String
  digest : Digest
  source : String
deriving DecidableEq

def MountRequest.mayPull (s : Registry) (rq : MountRequest) : Bool :=
  s.authDisabled || rq.who.can "repository" rq.source "pull"

inductive MountPc where
  | getSource
  | linkedBlobSize (source : Repository)
  | resolve (pc : ResolvePc)
  | linkBlob (repo : Repository)
  | done (status : Nat)
deriving DecidableEq

/-- One call of `tryMount`. Where it gives up, the request becomes an upload session,
answered with 202. -/
def tryMount (s : Registry) (rq : MountRequest) :
    MountPc → Answer → Option (Registry × MountPc)
  | .getSource, .ok =>
    match splitMountSource rq.source with
    | none => some (s, .done 202)
    | some (org, name) =>
      if !rq.mayPull s then some (s, .done 202)
      else
        match s.db.getRepository org name with
        | none => some (s, .done 202)
        | some r => some (s, .linkedBlobSize r)
  | .linkedBlobSize r, .ok =>
    match s.db.linkedBlobSize r.id rq.digest with
    | none => some (s, .done 202)
    | some _ => some (s, .resolve .getRepository)
  | .resolve pc, a =>
    match resolveStep s.db rq.org rq.name rq.digest pc a with
    | none => none
    | some (db, .more pc') => some (s.withDb db, .resolve pc')
    | some (db, .answered status) => some (s.withDb db, .done status)
    | some (db, .repo r) => some (s.withDb db, .linkBlob r)
  | .linkBlob r, .ok =>
    match s.db.mountBlob r.id rq.digest s.storage.now with
    | some db => some (s.withDb db, .done 201)
    | none => some (s, .done 202)
  | .linkBlob r, .lost =>
    (s.db.mountBlob r.id rq.digest s.storage.now).map fun db => (s.withDb db, .done 202)
  | .getSource, .failed | .linkedBlobSize _, .failed | .linkBlob _, .failed =>
    some (s, .done 202)
  | _, _ => none

/-- A manifest that parses, under a tag or its digest. -/
structure ManifestPut where
  org : String
  name : String
  manifest : Parsed
  tagged : Bool
deriving DecidableEq

inductive ManifestPutPc where
  | resolve (pc : ResolvePc)
  | checkTagImmutable (repo : Repository)
  | blobs (repo : Repository) (todo : List Digest)
  | children (repo : Repository) (todo : List Digest)
  | upsertManifest (repo : Repository)
  | upsertTagGuarded
  | done (status : Nat)
deriving DecidableEq

/-- One call of `handleManifestPut`: everything the manifest names must be in the
repository. -/
def handleManifestPut (s : Registry) (rq : ManifestPut) :
    ManifestPutPc → Answer → Option (Registry × ManifestPutPc)
  | .resolve pc, a =>
    match resolveStep s.db rq.org rq.name rq.manifest.digest pc a with
    | none => none
    | some (db, .more pc') => some (s.withDb db, .resolve pc')
    | some (db, .answered status) => some (s.withDb db, .done status)
    | some (db, .repo r) =>
      some (s.withDb db,
        if rq.tagged then .checkTagImmutable r else .blobs r rq.manifest.blobs)
  | .checkTagImmutable r, .ok => some (s, .blobs r rq.manifest.blobs)
  | .checkTagImmutable _, .refused => some (s, .done 403)
  | .blobs r (d :: ds), .ok =>
    if (s.db.linkedBlobSize r.id d).isSome then some (s, .blobs r ds)
    else some (s, .done 400)
  | .blobs _ (_ :: _), .failed => some (s, .done 400)
  | .blobs r [], .ok => some (s, .children r rq.manifest.children)
  | .children r (d :: ds), .ok =>
    if s.manifestExists r.id d then some (s, .children r ds) else some (s, .done 400)
  | .children r [], .ok => some (s, .upsertManifest r)
  | .upsertManifest r, .ok =>
    match s.upsertManifest r.id rq.manifest with
    | some s' => some (s', if rq.tagged then .upsertTagGuarded else .done 201)
    | none => some (s, .done 500)
  | .upsertManifest r, .lost =>
    (s.upsertManifest r.id rq.manifest).map fun s' => (s', .done 500)
  | .upsertTagGuarded, .ok => some (s, .done 201)
  | .upsertTagGuarded, .refused => some (s, .done 403)
  | .done _, _ => none
  | _, .failed => some (s, .done 500)
  | _, _ => none

/-! ## What a call does -/

inductive MountCall (s : Registry) (rq : MountRequest) :
    MountPc → Answer → Registry → MountPc → Prop
  | answered {pc : MountPc} {a : Answer} : MountCall s rq pc a s (.done 202)
  | source {org name : String} {r : Repository} (pull : rq.mayPull s = true)
      (row : s.db.getRepository org name = some r) :
      MountCall s rq .getSource .ok s (.linkedBlobSize r)
  | linked {r : Repository} {size : Nat} (row : s.db.linkedBlobSize r.id rq.digest = some size) :
      MountCall s rq (.linkedBlobSize r) .ok s (.resolve .getRepository)
  | more {pc pc' : ResolvePc} {a : Answer} {db : Db}
      (resolve : resolveStep s.db rq.org rq.name rq.digest pc a = some (db, .more pc')) :
      MountCall s rq (.resolve pc) a (s.withDb db) (.resolve pc')
  | resolveAnswered {pc : ResolvePc} {a : Answer} {db : Db} {status : Nat}
      (resolve : resolveStep s.db rq.org rq.name rq.digest pc a = some (db, .answered status)) :
      MountCall s rq (.resolve pc) a (s.withDb db) (.done status)
  | resolved {pc : ResolvePc} {a : Answer} {db : Db} {r : Repository}
      (resolve : resolveStep s.db rq.org rq.name rq.digest pc a = some (db, .repo r)) :
      MountCall s rq (.resolve pc) a (s.withDb db) (.linkBlob r)
  | mount {r : Repository} {db : Db}
      (row : s.db.mountBlob r.id rq.digest s.storage.now = some db) :
      MountCall s rq (.linkBlob r) .ok (s.withDb db) (.done 201)
  | mountLost {r : Repository} {db : Db}
      (row : s.db.mountBlob r.id rq.digest s.storage.now = some db) :
      MountCall s rq (.linkBlob r) .lost (s.withDb db) (.done 202)

inductive ManifestPutCall (s : Registry) (rq : ManifestPut) :
    ManifestPutPc → Answer → Registry → ManifestPutPc → Prop
  | answered {pc : ManifestPutPc} {a : Answer} {status : Nat}
      (unwritten : ∀ r, pc = .upsertManifest r →
        a = .failed ∨ s.upsertManifest r.id rq.manifest = none) :
      ManifestPutCall s rq pc a s (.done status)
  | more {pc pc' : ResolvePc} {a : Answer} {db : Db}
      (resolve : resolveStep s.db rq.org rq.name rq.manifest.digest pc a =
        some (db, .more pc')) : ManifestPutCall s rq (.resolve pc) a (s.withDb db) (.resolve pc')
  | resolveAnswered {pc : ResolvePc} {a : Answer} {db : Db} {status : Nat}
      (resolve : resolveStep s.db rq.org rq.name rq.manifest.digest pc a =
        some (db, .answered status)) :
      ManifestPutCall s rq (.resolve pc) a (s.withDb db) (.done status)
  | resolved {pc : ResolvePc} {a : Answer} {db : Db} {r : Repository}
      (resolve : resolveStep s.db rq.org rq.name rq.manifest.digest pc a = some (db, .repo r)) :
      ManifestPutCall s rq (.resolve pc) a (s.withDb db)
        (if rq.tagged then .checkTagImmutable r else .blobs r rq.manifest.blobs)
  | mutable {r : Repository} :
      ManifestPutCall s rq (.checkTagImmutable r) .ok s (.blobs r rq.manifest.blobs)
  | blob {r : Repository} {d : Digest} {ds : List Digest}
      (row : (s.db.linkedBlobSize r.id d).isSome = true) :
      ManifestPutCall s rq (.blobs r (d :: ds)) .ok s (.blobs r ds)
  | allBlobs {r : Repository} :
      ManifestPutCall s rq (.blobs r []) .ok s (.children r rq.manifest.children)
  | child {r : Repository} {d : Digest} {ds : List Digest} :
      ManifestPutCall s rq (.children r (d :: ds)) .ok s (.children r ds)
  | allChildren {r : Repository} :
      ManifestPutCall s rq (.children r []) .ok s (.upsertManifest r)
  | upsert {r : Repository} {s' : Registry}
      (row : s.upsertManifest r.id rq.manifest = some s') :
      ManifestPutCall s rq (.upsertManifest r) .ok s'
        (if rq.tagged then .upsertTagGuarded else .done 201)
  | upsertLost {r : Repository} {s' : Registry}
      (row : s.upsertManifest r.id rq.manifest = some s') :
      ManifestPutCall s rq (.upsertManifest r) .lost s' (.done 500)

inductive BlobGetCall (s : Registry) (rq : BlobGet) :
    BlobGetPc → Reply → Registry → BlobGetPc → Prop
  | answered {pc : BlobGetPc} {a : Reply} {status : Nat} (refused : status ≠ 200) :
      BlobGetCall s rq pc a s (.done status)
  | found {r : Repository} (row : s.db.getRepository rq.org rq.name = some r) :
      BlobGetCall s rq .getRepository (.answer .ok) s (.linked r)
  | unknown : BlobGetCall s rq .getRepository (.answer .ok) s .moved
  | moved {id : RepoId} {r : Repository}
      (row : Table.find Repository.id id s.db.repositories = some r) :
      BlobGetCall s rq .moved (.moved id) s (.linked r)
  | linked {r : Repository} {n : Nat} (size : s.db.linkedBlobSize r.id rq.digest = some n) :
      BlobGetCall s rq (.linked r) (.answer .ok) s (.serve r)
  | unlinked {r : Repository} {px : ProxyOrg} :
      BlobGetCall s rq (.linked r) (.answer .ok) s (.referenced r px)
  | relinked {r : Repository} {n : Nat} (size : s.db.linkedBlobSize r.id rq.digest = some n) :
      BlobGetCall s rq (.relinked r) (.answer .ok) s (.serve r)
  | served {r : Repository} {status : Nat} :
      BlobGetCall s rq (.serve r) (.answer .ok) s (.done status)
  | needed {r : Repository} {px : ProxyOrg} :
      BlobGetCall s rq (.referenced r px) (.answer .ok) s (.blobExists r px)
  | unneeded {r : Repository} {px : ProxyOrg} :
      BlobGetCall s rq (.referenced r px) (.answer .ok) s (.relinked r)
  | known {r : Repository} {px : ProxyOrg} {n : Nat} (size : s.db.blobExists rq.digest = some n) :
      BlobGetCall s rq (.blobExists r px) (.answer .ok) s (.storageQuota r n)
  | disabled {r : Repository} {px : ProxyOrg} :
      BlobGetCall s rq (.blobExists r px) (.answer .ok) s (.relinked r)
  | fetch {r : Repository} {px : ProxyOrg} :
      BlobGetCall s rq (.blobExists r px) (.answer .ok) s (.download r px)
  | join {r : Repository} {px : ProxyOrg} {s' : Registry} {i : Nat}
      (joined : joinDownload s
        ⟨rq.digest, px, r.orgId, px.upstreamPath rq.name, .openBlob⟩ = (s', i)) :
      BlobGetCall s rq (.download r px) (.answer .ok) s' (.wait r i)
  | finished {r : Repository} {i n : Nat} {dl : Download} (call : s.downloads[i]? = some dl)
      (size : dl.pc = .finished n) :
      BlobGetCall s rq (.wait r i) (.answer .ok) s (.storageQuota r n)
  | failed {r : Repository} {i status : Nat} {dl : Download} (call : s.downloads[i]? = some dl)
      (failure : dl.pc = .failed status) :
      BlobGetCall s rq (.wait r i) (.answer .ok) s (.done status)
  | room {r : Repository} {n : Nat} :
      BlobGetCall s rq (.storageQuota r n) (.answer .ok) s (.upsertBlob r n)
  | upsert {r : Repository} {n : Nat} {db : Db}
      (row : s.db.upsertBlob r.id rq.digest n s.storage.now = some db) :
      BlobGetCall s rq (.upsertBlob r n) (.answer .ok) (s.withDb db) (.relinked r)
  | upsertLost {r : Repository} {n : Nat} {db : Db}
      (row : s.db.upsertBlob r.id rq.digest n s.storage.now = some db) :
      BlobGetCall s rq (.upsertBlob r n) (.answer .lost) (s.withDb db) (.done 500)

inductive ManifestGetCall (s : Registry) (rq : ManifestGet) :
    ManifestGetPc → Reply → Registry → Prop
  | read {pc : ManifestGetPc} {a : Reply} (unwritten : ∀ m r, pc = .upsertManifest m r →
      a = .answer .failed ∨ s.upsertManifest r.id m = none) : ManifestGetCall s rq pc a s
  | resolve {m : Parsed} {pc : ResolvePc} {a : Answer} {db : Db} {out : Resolved}
      (step : resolveStep s.db rq.org rq.name m.digest pc a = some (db, out)) :
      ManifestGetCall s rq (.ensureRepository m pc) (.answer a) (s.withDb db)
  | upsert {m : Parsed} {r : Repository} {a : Answer} {s' : Registry} (took : a ≠ .failed)
      (row : s.upsertManifest r.id m = some s') :
      ManifestGetCall s rq (.upsertManifest m r) (.answer a) s'

section calls

variable {s s' : Registry} {a : Answer}

theorem tryMount_call {rq : MountRequest} {pc pc' : MountPc}
    (h : tryMount s rq pc a = some (s', pc')) : MountCall s rq pc a s' pc' := by
  cases pc with
  | getSource =>
    cases a <;> simp only [tryMount, reduceCtorEq] at h
    case ok =>
      split at h
      · cases h
        exact .answered
      · split at h
        · cases h
          exact .answered
        · rename_i hpull
          split at h <;> cases h
          · exact .answered
          · rename_i hrow
            exact .source (by simpa using hpull) hrow
    case failed =>
      cases h
      exact .answered
  | linkedBlobSize r =>
    cases a <;> simp only [tryMount, reduceCtorEq] at h
    case ok =>
      split at h <;> cases h
      · exact .answered
      · exact .linked ‹_›
    case failed =>
      cases h
      exact .answered
  | resolve pc =>
    simp only [tryMount] at h
    split at h
    · cases h
    all_goals
      rename_i hstep
      cases h
    · exact .more hstep
    · exact .resolveAnswered hstep
    · exact .resolved hstep
  | linkBlob r =>
    cases a <;> simp only [tryMount, reduceCtorEq] at h
    case ok =>
      split at h <;> cases h
      · exact .mount ‹_›
      · exact .answered
    case lost =>
      obtain ⟨db, hdb, h⟩ := map_eq_some_iff.mp h
      cases h
      exact .mountLost hdb
    case failed =>
      cases h
      exact .answered
  | done status => cases a <;> simp only [tryMount, reduceCtorEq] at h

theorem handleManifestPut_call {rq : ManifestPut} {pc pc' : ManifestPutPc}
    (h : handleManifestPut s rq pc a = some (s', pc')) : ManifestPutCall s rq pc a s' pc' := by
  cases pc with
  | resolve pc =>
    simp only [handleManifestPut] at h
    split at h
    · cases h
    all_goals
      rename_i hstep
      cases h
    · exact .more hstep
    · exact .resolveAnswered hstep
    · exact .resolved hstep
  | checkTagImmutable r =>
    cases a <;> simp only [handleManifestPut, reduceCtorEq] at h <;> cases h
    case ok.refl => exact .mutable
    all_goals exact .answered (by simp)
  | blobs r todo =>
    cases todo <;> cases a <;> simp only [handleManifestPut, reduceCtorEq] at h
    case nil.ok =>
      cases h
      exact .allBlobs
    case cons.ok =>
      split at h <;> cases h
      · exact .blob ‹_›
      · exact .answered (by simp)
    all_goals
      cases h
      exact .answered (by simp)
  | children r todo =>
    cases todo <;> cases a <;> simp only [handleManifestPut, reduceCtorEq] at h
    case nil.ok =>
      cases h
      exact .allChildren
    case cons.ok =>
      split at h <;> cases h
      · exact .child
      · exact .answered (by simp)
    all_goals
      cases h
      exact .answered (by simp)
  | upsertManifest r =>
    cases a <;> simp only [handleManifestPut, reduceCtorEq] at h
    case ok =>
      split at h
      · rename_i s₁ hrow
        cases h
        exact .upsert hrow
      · rename_i hnone
        cases h
        exact .answered fun _ he => by
          cases he
          exact .inr hnone
    case lost =>
      obtain ⟨s₁, hrow, h⟩ := map_eq_some_iff.mp h
      cases h
      exact .upsertLost hrow
    case failed =>
      cases h
      exact .answered fun _ _ => .inl rfl
  | upsertTagGuarded =>
    cases a <;> simp only [handleManifestPut, reduceCtorEq] at h <;> cases h
    all_goals exact .answered (by simp)
  | done status => cases a <;> simp [handleManifestPut] at h

variable {rq : BlobGet} {pc pc' : BlobGetPc} {reply : Reply}

theorem ensureProxiedBlob_call
    (h : ensureProxiedBlob s rq pc reply = some (s', pc')) : BlobGetCall s rq pc reply s' pc' := by
  unfold ensureProxiedBlob at h
  split at h
  · split at h <;> cases h
    · exact .needed
    · exact .unneeded
  · split at h
    · cases h
      exact .known ‹_›
    · split at h
      · cases h
        exact .disabled
      · split at h <;> cases h
        · exact .answered (by decide)
        · exact .fetch
  · cases h
    exact .join rfl
  · split at h
    · rename_i hpc
      obtain ⟨dl, hdl, hpc⟩ := map_eq_some_iff.mp hpc
      cases h
      exact .finished hdl hpc
    · rename_i hpc
      obtain ⟨dl, hdl, hpc⟩ := map_eq_some_iff.mp hpc
      cases h
      exact .failed hdl hpc
    · cases h
  · cases h
    exact .answered (by decide)
  · cases h
    exact .room
  · split at h <;> cases h
    exact .answered (by decide)
  · split at h <;> cases h
    · exact .upsert ‹_›
    · exact .answered (by decide)
  · obtain ⟨db, hdb, h⟩ := map_eq_some_iff.mp h
    cases h
    exact .upsertLost hdb
  · cases h

theorem handleBlobGet_call
    (h : handleBlobGet s rq pc reply = some (s', pc')) : BlobGetCall s rq pc reply s' pc' := by
  unfold handleBlobGet at h
  split at h
  · cases h
  · cases h
  · cases h
    exact .answered (by decide)
  · split at h <;> cases h
    · exact .found ‹_›
    · exact .unknown
  · split at h <;> cases h
    exact .moved ‹_›
  · cases h
    exact .answered (by decide)
  · split at h
    · cases h
      exact .linked ‹_›
    · split at h <;> cases h
      · exact .unlinked
      · exact .answered (by decide)
  · split at h <;> cases h
    · exact .relinked ‹_›
    · exact .answered (by decide)
  · cases h
    exact .served
  · exact ensureProxiedBlob_call h

theorem handleManifestGet_call {rq : ManifestGet} {pc pc' : ManifestGetPc}
    (h : handleManifestGet s rq pc reply = some (s', pc')) : ManifestGetCall s rq pc reply s' := by
  cases pc with
  | ensureRepository m pc =>
    rcases reply with a | _ | _ | _
    · by_cases ha : a = .failed
      · subst ha
        cases h
        exact .read nofun
      · simp only [handleManifestGet] at h
        split at h
        · cases h
        all_goals
          rename_i hstep
          cases h
          exact .resolve hstep
    all_goals cases h
  | upsertManifest m r =>
    rcases reply with a | _ | _ | _
    · cases a <;> simp only [handleManifestGet, reduceCtorEq] at h
      case ok =>
        split at h <;> cases h
        · exact .upsert (by simp) ‹_›
        · exact .read fun _ _ hpc => by cases hpc; exact .inr ‹_›
      case lost =>
        obtain ⟨s'', hs, h⟩ := map_eq_some_iff.mp h
        cases h
        exact .upsert (by simp) hs
      case failed =>
        cases h
        exact .read fun _ _ _ => .inl rfl
    all_goals cases h
  | _ =>
    have hs : s' = s := by
      unfold handleManifestGet at h
      grind
    rw [hs]
    exact .read nofun

end calls

inductive Task where
  /-- An upload commit, a blob delete or a garbage collection. -/
  | content (t : BlobTask)
  | mount (rq : MountRequest) (pc : MountPc)
  | manifestPut (rq : ManifestPut) (pc : ManifestPutPc)
  | manifestGet (rq : ManifestGet) (pc : ManifestGetPc)
  | blobGet (rq : BlobGet) (pc : BlobGetPc)
deriving DecidableEq

def Task.fresh : Task → Bool
  | .content t => t.fresh
  | .mount _ .getSource => true
  | .manifestPut _ (.resolve .getRepository) => true
  | .manifestGet _ .getRepository => true
  | .blobGet _ .getRepository => true
  | _ => false

section requests

variable (hash : Bytes → Digest)

def requestCall (s : Registry) (i : Nat) : Task → Reply → Option (Registry × Task)
  | .content t, .answer a =>
    (blobAct hash s.storage i t a).map fun out => ({ s with storage := out.1 }, .content out.2)
  | .mount rq pc, .answer a => (tryMount s rq pc a).map fun out => (out.1, .mount rq out.2)
  | .manifestPut rq pc, .answer a =>
    (handleManifestPut s rq pc a).map fun out => (out.1, .manifestPut rq out.2)
  | .manifestGet rq pc, a =>
    (handleManifestGet s rq pc a).map fun out => (out.1, .manifestGet rq out.2)
  | .blobGet rq pc, a => (handleBlobGet s rq pc a).map fun out => (out.1, .blobGet rq out.2)
  | _, _ => none

def observed (s : Registry) : Task → Reply → List Event
  | .content (.commit rq (.upsertBlob r)), _ => [.uploaded r.orgId rq.session.content]
  | .mount rq (.linkedBlobSize source), _ =>
    if rq.mayPull s && (s.db.linkedBlobSize source.id rq.digest).isSome then
      [.pullable rq.who rq.digest]
    else []
  | .mount rq (.linkBlob r), _ => [.mounted rq.who r.orgId rq.digest]
  | .blobGet rq (.serve r), .answer .ok =>
    if s.storage.driver.stat rq.digest then [.served r.orgId rq.digest] else []
  | _, _ => []

def observedDownload (dl : Download) : DownloadReply → List Event
  | .body content _ => [.delivered dl.px.orgId content]
  | _ => []

def generated : Reply → List RepoId
  | .answer (.fresh id _) => [id]
  | _ => []

/-- One atomic action of a request. Generated identifiers never repeat. -/
def requestAct (s : Registry) (i : Nat) (t : Task) (a : Reply) : Option (Registry × Task) :=
  if (generated a).any s.issued.contains then none
  else
    (requestCall hash s i t a).map fun out =>
      ({ out.1 with history := s.history ++ observed s t a
                    issued := s.issued ++ generated a }, out.2)

inductive RegistryEnv where
  | tick (t : Nat)
  | deleteRepository (repo : RepoId)
  | deleteManifest (repo : RepoId) (d : Digest)
  /-- The web app's proxy configuration is loaded. -/
  | proxies (configuration : List ProxyOrg)
  /-- A call of the download at a place of the group. -/
  | download (call : Nat) (reply : DownloadReply)

def deleteManifest (s : Registry) (keep : RepoId → Digest → Bool) : Registry :=
  { s.withDb { s.db with
      manifestRefs := s.db.manifestRefs.filter fun m => keep m.repositoryId m.manifestDigest } with
    manifests := s.manifests.filter fun m => keep m.repositoryId m.digest }

def downloadCall (s : Registry) (i : Nat) (a : DownloadReply) : Option Registry :=
  match s.downloads[i]? with
  | none => none
  | some dl =>
    (downloadStep hash s dl dl.pc a).map fun out =>
      { out.1 with history := s.history ++ observedDownload dl a
                   downloads := s.downloads.set i { dl with pc := out.2 } }

def registryEnv (s : Registry) : RegistryEnv → Option Registry
  | .tick t => some { s with storage := { s.storage with now := s.storage.now + t } }
  | .deleteRepository repo =>
    (blobEnv s.storage (.deleteRepository repo)).map fun storage =>
      deleteManifest { s with storage := storage } fun r _ => decide (r ≠ repo)
  | .deleteManifest repo d =>
    some (deleteManifest s fun r e => decide (¬(r = repo ∧ e = d)))
  | .proxies configuration => some { s with proxies := configuration }
  | .download i a => downloadCall hash s i a

/-- Repositories without content; their identifiers are those generated so far. -/
def emptyContent (s : Registry) : Prop :=
  s.storage.db.repositoryBlobs = [] ∧ s.downloads = [] ∧ s.history = [] ∧
    s.issued = s.storage.db.repositories.map (·.id) ∧
      Table.Keyed Repository.id s.storage.db.repositories

def registryProgram : Transition.Program Registry Task Reply RegistryEnv where
  init := emptyContent
  fresh := Task.fresh
  act := requestAct hash
  env := registryEnv hash

end requests

end Chicoree.Registryd
