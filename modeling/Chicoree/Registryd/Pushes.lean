import Chicoree.Lib.Trimming
import Chicoree.Registryd.ManifestParse
import Chicoree.Registryd.TagRules

/-! # The tables a push writes

Repositories and the redirects to them, blobs and links, manifests with their columns and
references, and tags: the seven tables, with the transactions of `EnsureRepository`,
`UpsertManifest` and `UpsertTagGuarded`. -/

namespace Chicoree.Registryd

open Bool List

/-! ## Rows -/

/-- A row of `repository_redirects`: a former name of a repository. -/
structure RepositoryRedirect where
  organizationSlug : String
  repositoryName : String
  repositoryId : RepoId
deriving DecidableEq

/-- A row of `organization_redirects`: a former slug of an organization. -/
structure OrganizationRedirect where
  oldSlug : String
  organizationId : OrgId
deriving DecidableEq

/-- A row of `manifests` with the columns a push writes. -/
structure Manifest where
  repositoryId : RepoId
  digest : Digest
  mediaType : String
  artifactType : Option String
  size : Nat
  payload : Bytes
  configDigest : Option Digest
  subjectDigest : Option Digest
  pushedBy : Option String

structure Tag where
  repositoryId : RepoId
  name : String
  manifestDigest : Digest
  updatedAt : Time

structure PushTables where
  storage : Storage
  repositoryRedirects : List RepositoryRedirect := []
  organizationRedirects : List OrganizationRedirect := []
  manifests : List Manifest := []
  tags : List Tag := []
  tagRules : List TagRuleRow := []

/-! ## Statements -/

/-- `NULLIF(x, '')` -/
def nullIf (s : String) : Option String := if s = "" then none else some s

def Manifest.overwrite (row m : Manifest) : Manifest :=
  { m with mediaType := row.mediaType, artifactType := row.artifactType
           subjectDigest := row.subjectDigest, pushedBy := row.pushedBy }

namespace PushTables

@[reducible] def db (t : PushTables) : Db := t.storage.db

def withDb (t : PushTables) (db : Db) : PushTables :=
  { t with storage := { t.storage with db := db } }

/-- A new repository takes over its name: redirects of the name under the slug of its
organization, or a former one, go. -/
def dropRedirects (t : PushTables) (orgSlug name : String) (orgId : OrgId) : PushTables :=
  let slugs := orgSlug ::
    (t.organizationRedirects.filter fun r => decide (r.organizationId = orgId)).map (·.oldSlug)
  let redirects := t.repositoryRedirects.filter fun r =>
    !(decide (r.repositoryName = name) && slugs.contains r.organizationSlug)
  { t with repositoryRedirects := redirects }

def manifestExists (t : PushTables) (repo : RepoId) (d : Digest) : Bool :=
  t.manifests.any fun m => decide (m.repositoryId = repo ∧ m.digest = d)

def resolveTag (t : PushTables) (repo : RepoId) (tag : String) : Option Digest :=
  (Table.find (fun x : Tag => (x.repositoryId, x.name)) (repo, tag) t.tags).map
    (·.manifestDigest)

def upsertRow (row : Manifest) (rows : List Manifest) : List Manifest :=
  if rows.any fun m => decide (m.repositoryId = row.repositoryId ∧ m.digest = row.digest) then
    rows.map fun m =>
      if m.repositoryId = row.repositoryId ∧ m.digest = row.digest then
        Manifest.overwrite row m
      else m
  else rows ++ [row]

def rewriteRefs (repo : RepoId) (d : Digest) (refs : List Digest) (rows : List ManifestRef) :
    List ManifestRef :=
  (rows.filter fun m => decide (¬(m.repositoryId = repo ∧ m.manifestDigest = d))) ++
    refs.eraseDups.map fun r => ⟨repo, d, r⟩

/-- `UpsertManifest`: the row and its references in one transaction, which fails when the
repository is gone. -/
def upsertManifest (t : PushTables) (row : Manifest) (refs : List Digest) : Option PushTables :=
  if t.db.repositoryExists row.repositoryId then
    let references := rewriteRefs row.repositoryId row.digest refs t.db.manifestRefs
    some { t.withDb { t.db with manifestRefs := references } with
      manifests := upsertRow row t.manifests }
  else none

/-- How `UpsertTagGuarded` ends. -/
inductive TagUpsert where
  | violation (e : PolicyError)
  /-- The tag's foreign key names no manifest. -/
  | noManifest
  | written (t : PushTables)

/-- `CheckTagImmutable`, over the rules of the repository and its organization. -/
def checkTagImmutable (t : PushTables) (repo : Repository) (tag : String) (d : Digest) :
    Except PolicyError Unit :=
  checkImmutable (tagRulesFor t.tagRules repo.orgId repo.id) tag (t.resolveTag repo.id tag) d

def writeTag (t : PushTables) (repo : RepoId) (tag : String) (d : Digest) : PushTables :=
  let tags := Table.upsert (fun x : Tag => (x.repositoryId, x.name))
    ⟨repo, tag, d, t.storage.now⟩ t.tags
  { t with tags := tags }

/-- `UpsertTagGuarded`: check again, and point the tag at the manifest. -/
def upsertTagGuarded (t : PushTables) (repo : Repository) (tag : String) (d : Digest) : TagUpsert :=
  match t.checkTagImmutable repo tag d with
  | .error e => .violation e
  | .ok () =>
    if t.manifestExists repo.id d then .written (t.writeTag repo.id tag d) else .noManifest

end PushTables

/-! ## Pushes one call at a time

`commitUpload` and `handleManifestPut` over all the tables they write, with the checks of
a manifest push before its first call: the reference, the digest and the payload. `json` is
the JSON syntax of a payload, `none` where it is no JSON. -/

def isAlphaNum (c : Char) : Bool :=
  ('a' ≤ c && c ≤ 'z') || ('A' ≤ c && c ≤ 'Z') || ('0' ≤ c && c ≤ '9')

def isLowerNum (c : Char) : Bool := ('a' ≤ c && c ≤ 'z') || ('0' ≤ c && c ≤ '9')

/-- `tagRe` -/
def isTagName (ref : String) : Bool :=
  match ref.toList with
  | [] => false
  | c :: cs =>
    (isAlphaNum c || c = '_') && decide (cs.length ≤ 127) &&
      cs.all fun c => isAlphaNum c || c = '.' || c = '_' || c = '-'

/-- `digestRe`: parts of an algorithm name, a colon, and at least 32 hexadecimal
digits. -/
def isDigest (ref : String) : Bool :=
  match ref.toList.splitOn ':' with
  | [algorithm, hex] =>
    ((algorithm.splitOnP fun c => c = '.' || c = '+' || c = '_' || c = '-').all
        fun part => !part.isEmpty && part.all isLowerNum) &&
      decide (32 ≤ hex.length) &&
        hex.all fun c => ('a' ≤ c && c ≤ 'f') || ('0' ≤ c && c ≤ '9')
  | _ => false

theorem isDigest_chars {d : Digest} (h : isDigest d = true) : 33 ≤ d.toList.length ∧ ∀ c ∈ d.toList,
      c = '.' ∨ c = '+' ∨ c = '_' ∨ c = '-' ∨ c = ':' ∨ isLowerNum c = true := by
  unfold isDigest at h
  have hjoin : [':'].intercalate (d.toList.splitOn ':') = d.toList := intercalate_splitOn ':'
  split at h
  · rename_i algorithm hex hparts
    rw [hparts] at hjoin
    have htext : d.toList = algorithm ++ ':' :: hex := by
      rw [← hjoin]
      simp [List.intercalate]
    simp only [and_eq_true, all_eq_true, decide_eq_true_eq] at h
    obtain ⟨⟨halg, hlen⟩, hhex⟩ := h
    rw [htext]
    refine ⟨by simp; omega, fun c hmem => ?_⟩
    rcases mem_append.mp hmem with hmem | hmem
    · rcases Trimming.mem_splitOnP (p := fun c => c = '.' || c = '+' || c = '_' || c = '-')
        hmem with hsep | ⟨part, hpart, hc⟩
      · simp only [or_eq_true, decide_eq_true_eq] at hsep
        tauto
      · simp [(halg part hpart).2 _ hc]
    · rcases mem_cons.mp hmem with rfl | hmem
      · simp
      · have := hhex _ hmem
        simp only [isLowerNum, or_eq_true, and_eq_true, decide_eq_true_eq] at this ⊢
        rcases this with ⟨ha, hf⟩ | hdigit
        · have hz : c ≤ 'z' := Char.le_trans hf (by decide)
          tauto
        · tauto
  · contradiction

structure ManifestPush where
  org : String
  name : String
  /-- A tag or a digest. -/
  ref : String
  contentType : String
  payload : Bytes
  /-- Who pushes. -/
  subject : String
deriving DecidableEq

def ManifestPush.isTag (rq : ManifestPush) : Bool := !isDigest rq.ref

inductive PushPc where
  /-- The payload is read. -/
  | start
  | resolve (p : Manifest.Parsed) (pc : ResolvePc)
  | checkTagImmutable (p : Manifest.Parsed) (repo : Repository)
  | blobs (p : Manifest.Parsed) (repo : Repository) (todo : List Digest)
  | children (p : Manifest.Parsed) (repo : Repository) (todo : List Digest)
  | upsertManifest (p : Manifest.Parsed) (repo : Repository)
  | upsertTagGuarded (p : Manifest.Parsed) (repo : Repository)
deriving DecidableEq

inductive PushTask where
  | commit (rq : CommitRequest) (pc : CommitPc)
  | manifest (rq : ManifestPush) (pc : PushPc)
  | done (status : Nat)
deriving DecidableEq

def PushTask.ofBlobTask : BlobTask → Option PushTask
  | .commit rq pc => some (.commit rq pc)
  | .done status => some (.done status)
  | _ => none

/-! ## Handlers -/

/-- One call of `resolveRepoForWrite`. The transaction that creates a repository drops the
redirects of its name. -/
def pushResolve (t : PushTables) (org name : String) (d : Digest) (pc : ResolvePc)
    (a : Answer) : Option (PushTables × Resolved) :=
  match resolveStep t.db org name d pc a with
  | none => none
  | some (db, out) =>
    match pc, a with
    | .ensureInsert orgId _, .fresh _ _ =>
      some ((t.withDb db).dropRedirects org name orgId, out)
    | _, _ => some (t.withDb db, out)

section handlers

variable (hash : Bytes → Digest) (json : Bytes → Option JsonDoc)

def pushCommit (t : PushTables) (rq : CommitRequest) :
    CommitPc → Answer → Option (PushTables × PushTask)
  | .resolve found pc, a =>
    match pushResolve t rq.org rq.name rq.expected pc a with
    | none => none
    | some (t', .more pc') => some (t', .commit rq (.resolve found pc'))
    | some (t', .answered status) => some (t', .done status)
    | some (t', .repo r) =>
      some (t', .commit rq (if found then .upsertBlob r else .put r))
  | pc, a =>
    match commitUpload hash t.storage rq pc a with
    | none => none
    | some (storage, task) =>
      (PushTask.ofBlobTask task).map fun task => ({ t with storage := storage }, task)

def readPush (rq : ManifestPush) : Except Nat Manifest.Parsed :=
  if rq.isTag && !isTagName rq.ref then .error 400
  else if !rq.isTag && decide (rq.ref ≠ hash rq.payload) then .error 400
  else
    match Manifest.parse rq.contentType (json rq.payload) with
    | .error _ => .error 400
    | .ok p => .ok p

def ManifestPush.row (rq : ManifestPush) (p : Manifest.Parsed) (repo : RepoId) : Manifest where
  repositoryId := repo
  digest := hash rq.payload
  mediaType := p.mediaType
  artifactType := nullIf p.artifactType
  size := rq.payload.length
  payload := rq.payload
  configDigest := p.config.bind fun c => nullIf c.digest
  subjectDigest := p.subject.bind fun s => nullIf s.digest
  pushedBy := nullIf rq.subject

def pushManifest (t : PushTables) (rq : ManifestPush) :
    PushPc → Answer → Option (PushTables × PushTask)
  | .start, .ok =>
    match readPush hash json rq with
    | .error status => some (t, .done status)
    | .ok p => some (t, .manifest rq (.resolve p .getRepository))
  -- the body is too large or breaks off
  | .start, .failed => some (t, .done 400)
  | .resolve p pc, a =>
    match pushResolve t rq.org rq.name (hash rq.payload) pc a with
    | none => none
    | some (t', .more pc') => some (t', .manifest rq (.resolve p pc'))
    | some (t', .answered status) => some (t', .done status)
    | some (t', .repo r) =>
      some (t', .manifest rq
        (if rq.isTag then .checkTagImmutable p r else .blobs p r p.blobs))
  | .checkTagImmutable p r, .ok =>
    match t.checkTagImmutable r rq.ref (hash rq.payload) with
    | .error _ => some (t, .done 403)
    | .ok () => some (t, .manifest rq (.blobs p r p.blobs))
  | .checkTagImmutable _ _, .failed => some (t, .done 500)
  | .blobs p r (d :: ds), .ok =>
    if (t.db.linkedBlobSize r.id d).isSome then some (t, .manifest rq (.blobs p r ds))
    else some (t, .done 400)
  -- an error of the lookup counts as an unknown blob
  | .blobs _ _ (_ :: _), .failed => some (t, .done 400)
  | .blobs p r [], .ok =>
    some (t, .manifest rq (.children p r (p.children.map (·.digest))))
  | .children p r (d :: ds), .ok =>
    if t.manifestExists r.id d then some (t, .manifest rq (.children p r ds))
    else some (t, .done 400)
  | .children _ _ (_ :: _), .failed => some (t, .done 500)
  | .children p r [], .ok => some (t, .manifest rq (.upsertManifest p r))
  | .upsertManifest p r, .ok =>
    match t.upsertManifest (rq.row hash p r.id) p.references with
    | some t' =>
      some (t', if rq.isTag then .manifest rq (.upsertTagGuarded p r) else .done 201)
    | none => some (t, .done 500)
  | .upsertManifest p r, .lost =>
    (t.upsertManifest (rq.row hash p r.id) p.references).map fun t' => (t', .done 500)
  | .upsertManifest _ _, .failed => some (t, .done 500)
  | .upsertTagGuarded _ r, .ok =>
    match t.upsertTagGuarded r rq.ref (hash rq.payload) with
    | .violation _ => some (t, .done 403)
    | .noManifest => some (t, .done 500)
    | .written t' => some (t', .done 201)
  | .upsertTagGuarded _ r, .lost =>
    match t.upsertTagGuarded r rq.ref (hash rq.payload) with
    | .written t' => some (t', .done 500)
    | _ => none
  | .upsertTagGuarded _ _, .failed => some (t, .done 500)
  | _, _ => none

def pushCall (t : PushTables) : PushTask → Answer → Option (PushTables × PushTask)
  | .commit rq pc, a => pushCommit hash t rq pc a
  | .manifest rq pc, a => pushManifest hash json t rq pc a
  | .done _, _ => none

abbrev pushAlone : PushTables → PushTask → List Answer → Option (PushTables × PushTask) :=
  Transition.alone (pushCall hash json)

end handlers

end Chicoree.Registryd
