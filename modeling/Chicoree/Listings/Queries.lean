import Mathlib.Algebra.Order.Ring.Int
import Chicoree.PullBlocks.Refresh
import Chicoree.Registryd.OneMeaning

/-! # Stored payloads in queries

The casts `payload::jsonb` of the queries over `manifests`, and `index-variant.ts`: which
member of an index its size, its platform and its kind are read off. `none` is an error of
the query, so that one row is enough to fail it. -/

namespace Chicoree.Listings

open List Option
open Registryd (RepoId OrgId Digest Time Bytes PushTables Repository Visibility)

/-! ## Queries -/

section query

variable {ρ α β : Type}

/-- One answer for each row; an error in one is an error of the query. -/
def select (f : ρ → Option α) : List ρ → Option (List α)
  | [] => some []
  | r :: rs =>
    match f r, select f rs with
    | some x, some xs => some (x :: xs)
    | _, _ => none

variable {f : ρ → Option α} {rows : List ρ}

theorem select_isSome : (select f rows).isSome = true ↔ ∀ r ∈ rows, (f r).isSome = true := by
  induction rows with
  | nil => simp [select]
  | cons r rows ih =>
    rw [forall_mem_cons, ← ih]
    simp only [select]
    cases f r <;> cases select f rows <;> simp

theorem select_map {g : α → β} {key : ρ → β}
    {xs : List α} (hkey : ∀ r x, f r = some x → g x = key r) (h : select f rows = some xs) :
    xs.map g = rows.map key := by
  induction rows generalizing xs with
  | nil =>
    cases h
    rfl
  | cons r rows ih =>
    unfold select at h
    cases hr : f r with
    | none => simp [hr] at h
    | some x =>
      cases hrows : select f rows with
      | none => simp [hr, hrows] at h
      | some ys =>
        simp only [hr, hrows, Option.some.injEq] at h
        subst h
        rw [map_cons, map_cons, hkey r x hr, ih hrows]

end query

/-- What the database does to a JSON text: the range of its numbers, and the text `->>`
answers for a value that is no string. -/
structure Postgres where
  inRange : Numeral → Bool
  render : Json → String

section payloads

variable (text : Bytes → Option JsonText) (pg : Postgres)

/-- `x->>'k'` -/
def Postgres.textAt (x : Option Json) (k : String) : Option String :=
  match Json.field? x k with
  | none | some .null => none
  | some (.str s) => some s
  | some v => some (pg.render v)

/-- `payload::jsonb` -/
def castPayload (m : Registryd.Manifest) : Option Json :=
  (text m.payload).bind (JsonText.castJsonb pg.inRange)

/-- `members`: none for a plain manifest or an unreadable index. -/
def members (m : Registryd.Manifest) : Option (List Json) :=
  if Web.isIndexRow m.mediaType then
    (castPayload text pg m).map fun p => (Json.arr? (p.get? "manifests")).getD []
  else some []

def notAttestation (e : Json) : Bool :=
  decide ((pg.textAt (Json.field? (some e) "annotations") "vnd.docker.reference.type").getD "" ≠
    "attestation-manifest")

def hasPlatform (e : Json) : Bool :=
  let os := (pg.textAt (Json.field? (some e) "platform") "os").getD ""
  decide (os ≠ "" ∧ os ≠ "unknown")

def held (t : PushTables) (m : Registryd.Manifest) (e : Json) : Bool :=
  match pg.textAt (some e) "digest" with
  | some d => t.manifestExists m.repositoryId d
  | none => false

/-- The first platform variant the registry holds, else the first member that is no
attestation; nothing for a plain manifest. -/
def sizedMember (t : PushTables) (m : Registryd.Manifest) : Option (Option Json) :=
  (members text pg m).map fun es =>
    (es.find? fun e => notAttestation pg e && hasPlatform pg e && held pg t m e).or
      (es.find? fun e => notAttestation pg e && held pg t m e)

def sizedManifestDigest (t : PushTables) (m : Registryd.Manifest) : Option Digest :=
  (sizedMember text pg t m).map fun e => (pg.textAt e "digest").getD m.digest

def sizedPlatform (t : PushTables) (m : Registryd.Manifest) : Option (Option String) :=
  (sizedMember text pg t m).map fun e =>
    let p := Json.field? e "platform"
    (pg.textAt p "os").map fun os =>
      let variant := (pg.textAt p "variant").filter fun v => decide (v ≠ "")
      String.intercalate "/" (os :: (pg.textAt p "architecture").toList ++ variant.toList)

/-- `payload::jsonb->'config'->>'mediaType'` -/
def ownConfigMediaType (m : Registryd.Manifest) : Option (Option String) :=
  (castPayload text pg m).map fun p => pg.textAt (p.get? "config") "mediaType"

def configMediaType (t : PushTables) (m : Registryd.Manifest) : Option (Option String) :=
  match sizedMember text pg t m with
  | none => none
  | some e =>
    match (pg.textAt e "digest").bind fun d => t.findManifest m.repositoryId d with
    | none => ownConfigMediaType text pg m
    | some c =>
      match ownConfigMediaType text pg c with
      | some none => ownConfigMediaType text pg m
      | other => other

/-! ## Where every payload casts -/

variable {text pg}

/-- The payload of every row of `manifests` casts. -/
def AllCast (text : Bytes → Option JsonText) (pg : Postgres) (t : PushTables) : Prop :=
  ∀ m ∈ t.manifests, (castPayload text pg m).isSome = true

theorem castPayload_isSome (m : Registryd.Manifest) : (castPayload text pg m).isSome =
      (text m.payload).any fun x => x.clean pg.inRange := by
  unfold castPayload
  cases text m.payload with
  | none => rfl
  | some x => exact JsonText.castJsonb_isSome x

variable {t : PushTables} {m : Registryd.Manifest}

section

variable (h : (castPayload text pg m).isSome = true)
include h

theorem sizedMember_isSome : (sizedMember text pg t m).isSome = true := by
  unfold sizedMember members
  rw [isSome_map]
  split
  · rw [isSome_map]
    exact h
  · rfl

theorem sizedManifestDigest_isSome : (sizedManifestDigest text pg t m).isSome = true := by
  unfold sizedManifestDigest
  rw [isSome_map]
  exact sizedMember_isSome h

theorem sizedPlatform_isSome : (sizedPlatform text pg t m).isSome = true := by
  unfold sizedPlatform
  rw [isSome_map]
  exact sizedMember_isSome h

theorem ownConfigMediaType_isSome : (ownConfigMediaType text pg m).isSome = true := by
  unfold ownConfigMediaType
  rw [isSome_map]
  exact h

end

theorem configMediaType_isSome (hall : AllCast text pg t) (hm : m ∈ t.manifests) :
    (configMediaType text pg t m).isSome = true := by
  have hown := ownConfigMediaType_isSome (hall m hm)
  obtain ⟨e, he⟩ := isSome_iff_exists.mp (sizedMember_isSome (t := t) (hall m hm))
  unfold configMediaType
  simp only [he]
  split
  · exact hown
  · rename_i c hc
    obtain ⟨d, -, hfind⟩ := bind_eq_some_iff.mp hc
    have hc := ownConfigMediaType_isSome (hall c (Table.find_some hfind).1)
    split
    · exact hown
    · exact hc

end payloads

/-! ## The listings

The queries that read stored payloads: `ListReferrers` of registryd, and the web app's tags
of a repository (`listRepoTags`), its repositories (`repoListSelect`) and its untagged
manifests (`listUntaggedManifests`). The rows of `manifests` stand in the order of their
`created_at`. -/

open Registryd (RepoId OrgId Digest Time Bytes PushTables Repository Visibility Tag)

section listings

variable (text : Bytes → Option JsonText) (pg : Postgres)

structure Referrer where
  digest : Digest
  mediaType : String
  artifactType : String
  size : Nat
  annotations : Option (List (String × String))

/-- A value of a map of strings; `null` leaves it empty. -/
def annotationValue : Json → Option String
  | .str s => some s
  | .null => some ""
  | _ => none

/-- `ParseAnnotations`: anything but an object of strings yields no map. -/
def parseAnnotations : Option Json → Option (List (String × String))
  | some (.obj (e :: entries)) =>
    select (fun m : String × Json => (annotationValue m.2).map fun v => (m.1, v)) (e :: entries)
  | _ => none

/-- The rows `ListReferrers` selects; the empty artifact type selects all. -/
def selectsReferrer (repo : RepoId) (subject : Digest) (artifactType : String)
    (m : Registryd.Manifest) : Bool :=
  decide (m.repositoryId = repo ∧ m.subjectDigest = some subject ∧
    (artifactType = "" ∨ m.artifactType = some artifactType))

def referrer (m : Registryd.Manifest) : Option Referrer :=
  (castPayload text pg m).map fun p =>
    ⟨m.digest, m.mediaType, m.artifactType.getD "", m.size, parseAnnotations (p.get? "annotations")⟩

def listReferrers (t : PushTables) (repo : RepoId) (subject : Digest) (artifactType : String) :
    Option (List Referrer) :=
  select (referrer text pg) (t.manifests.filter (selectsReferrer repo subject artifactType))

def refsOf (t : PushTables) (repo : RepoId) (d : Digest) : List Digest :=
  (t.db.manifestRefs.filter fun r => decide (r.repositoryId = repo ∧ r.manifestDigest = d)).map
    (·.refDigest)

/-- The sum of the sizes of the blobs it names; `NULL` where it names none. -/
def contentBytes (t : PushTables) (repo : RepoId) (d : Digest) : Option Nat :=
  let sizes := (refsOf t repo d).filterMap fun ref =>
    (Table.find Registryd.Blob.digest ref t.db.blobs).map (·.size)
  if sizes = [] then none else some sizes.sum

structure TagListRow where
  name : String
  manifestDigest : Digest
  updatedAt : Time
  mediaType : String
  manifestSize : Nat
  configMediaType : Option String
  contentBytes : Option Nat
  refCount : Nat
  variantPlatform : Option String

def taggedManifests (t : PushTables) (repo : RepoId) : List (Tag × Registryd.Manifest) :=
  ((t.tags.filter fun x => decide (x.repositoryId = repo)).mergeSort
      fun x y => decide (y.updatedAt ≤ x.updatedAt)).filterMap fun x =>
    (t.findManifest repo x.manifestDigest).map fun m => (x, m)

def tagListRow (t : PushTables) (x : Tag × Registryd.Manifest) : Option TagListRow :=
  match ownConfigMediaType text pg x.2, sizedManifestDigest text pg t x.2,
      sizedPlatform text pg t x.2 with
  | some config, some sized, some platform =>
    some { name := x.1.name
           manifestDigest := x.1.manifestDigest
           updatedAt := x.1.updatedAt
           mediaType := x.2.mediaType
           manifestSize := x.2.size
           configMediaType := config
           contentBytes := contentBytes t x.1.repositoryId sized
           refCount := (refsOf t x.1.repositoryId sized).length
           variantPlatform := platform }
  | _, _, _ => none

def listRepoTags (t : PushTables) (repo : RepoId) (hideArtifacts : Bool)
    (limit offset : Nat) : Option (List TagListRow) :=
  let rows := (taggedManifests t repo).filter
    fun x => !(hideArtifacts && PullBlocks.isCosignTag x.1.name)
  select (tagListRow text pg t) ((rows.drop offset).take limit)

structure RepoListRow where
  id : RepoId
  name : String
  visibility : Visibility
  orgId : OrgId
  tagCount : Nat
  sizeBytes : Nat
  latestConfigMediaType : Option String

def latestConfigMediaType (t : PushTables) (repo : RepoId) : Option (Option String) :=
  match (taggedManifests t repo).head? with
  | none => some none
  | some x => configMediaType text pg t x.2

def repoListRow (t : PushTables) (r : Repository) : Option RepoListRow :=
  (latestConfigMediaType text pg t r.id).map fun latest =>
    let links := t.db.repositoryBlobs.filter fun l => decide (l.repositoryId = r.id)
    let sizes := links.filterMap fun l =>
      (Table.find Registryd.Blob.digest l.blobDigest t.db.blobs).map (·.size)
    { id := r.id
      name := r.name
      visibility := r.visibility
      orgId := r.orgId
      tagCount := t.tags.countP fun x => decide (x.repositoryId = r.id)
      sizeBytes := sizes.sum
      latestConfigMediaType := latest }

/-- `repoListSelect` over the repositories a page shows. -/
def repoListSelect (t : PushTables) (shown : Repository → Bool) : Option (List RepoListRow) :=
  select (repoListRow text pg t) (t.db.repositories.filter shown)

structure UntaggedManifest where
  digest : Digest
  mediaType : String
  artifactType : Option String
  isIndex : Bool
  size : Nat
  contentBytes : Option Nat
  pushedBy : Option String
  isChild : Bool
  parentTags : List String
  isReferrer : Bool
  subjectDigest : Option Digest
  referrerCount : Nat

def parentsOf (t : PushTables) (m : Registryd.Manifest) : List Digest :=
  (t.db.manifestRefs.filter fun r =>
    decide (r.repositoryId = m.repositoryId ∧ r.refDigest = m.digest)).map (·.manifestDigest)

def parentTags (t : PushTables) (m : Registryd.Manifest) : List String :=
  ((t.tags.filter fun x => decide (x.repositoryId = m.repositoryId) &&
    (parentsOf t m).contains x.manifestDigest).map (·.name)).eraseDups.mergeSort
      fun a b => !decide (b < a)

def untaggedManifest (t : PushTables) (m : Registryd.Manifest) : Option UntaggedManifest :=
  (sizedManifestDigest text pg t m).map fun sized =>
    { digest := m.digest
      mediaType := m.mediaType
      artifactType := m.artifactType
      isIndex := Web.isIndexRow m.mediaType
      size := m.size
      contentBytes := contentBytes t m.repositoryId sized
      pushedBy := m.pushedBy
      isChild := !(parentsOf t m).isEmpty
      parentTags := parentTags t m
      isReferrer := m.subjectDigest.any (t.manifestExists m.repositoryId)
      subjectDigest := m.subjectDigest
      referrerCount := t.manifests.countP fun r =>
        decide (r.repositoryId = m.repositoryId ∧ r.subjectDigest = some m.digest) }

def isUntagged (t : PushTables) (repo : RepoId) (m : Registryd.Manifest) : Bool :=
  decide (m.repositoryId = repo) &&
    !t.tags.any fun x => decide (x.repositoryId = repo ∧ x.manifestDigest = m.digest)

/-- `listUntaggedManifests`, newest first. -/
def listUntaggedManifests (t : PushTables) (repo : RepoId) : Option (List UntaggedManifest) :=
  select (untaggedManifest text pg t) (t.manifests.filter (isUntagged t repo)).reverse

/-! ## When they answer -/

variable {text pg} {t : PushTables}

variable {repo : RepoId} {subject : Digest} {artifactType : String}

/-- `ListReferrers` answers exactly when the payload of every selected row casts. -/
theorem listReferrers_isSome : (listReferrers text pg t repo subject artifactType).isSome = true ↔
      ∀ m ∈ t.manifests, selectsReferrer repo subject artifactType m = true →
        (castPayload text pg m).isSome = true := by
  unfold listReferrers
  rw [select_isSome]
  constructor
  · intro h m hm hsel
    have hrow := h m (mem_filter.mpr ⟨hm, hsel⟩)
    rwa [referrer, isSome_map] at hrow
  · intro h m hm
    obtain ⟨hm, hsel⟩ := mem_filter.mp hm
    rw [referrer, isSome_map]
    exact h m hm hsel

theorem listReferrers_digests
    {rs : List Referrer} (h : listReferrers text pg t repo subject artifactType = some rs) :
    rs.map (·.digest) =
      (t.manifests.filter (selectsReferrer repo subject artifactType)).map (·.digest) := by
  refine select_map ?_ h
  intro m r hr
  obtain ⟨p, -, rfl⟩ := map_eq_some_iff.mp hr
  rfl

theorem mem_taggedManifests {x : Tag × Registryd.Manifest}
    (h : x ∈ taggedManifests t repo) : x.2 ∈ t.manifests := by
  obtain ⟨tag, -, htag⟩ := mem_filterMap.mp h
  obtain ⟨m, hm, rfl⟩ := map_eq_some_iff.mp htag
  exact (Table.find_some hm).1

section all

variable (hall : AllCast text pg t)

include hall

theorem listRepoTags_isSome (repo : RepoId) (hideArtifacts : Bool) (limit offset : Nat) :
    (listRepoTags text pg t repo hideArtifacts limit offset).isSome = true := by
  unfold listRepoTags
  rw [select_isSome]
  intro x hx
  have hx := mem_of_mem_drop (mem_of_mem_take hx)
  have hcast := hall x.2 (mem_taggedManifests (mem_filter.mp hx).1)
  obtain ⟨config, hconfig⟩ := isSome_iff_exists.mp (ownConfigMediaType_isSome hcast)
  obtain ⟨sized, hsized⟩ := isSome_iff_exists.mp
    (sizedManifestDigest_isSome (t := t) hcast)
  obtain ⟨platform, hplatform⟩ := isSome_iff_exists.mp
    (sizedPlatform_isSome (t := t) hcast)
  simp only [tagListRow, hconfig, hsized, hplatform, isSome_some]

theorem repoListSelect_isSome (shown : Repository → Bool) :
    (repoListSelect text pg t shown).isSome = true := by
  unfold repoListSelect
  rw [select_isSome]
  intro r _
  unfold repoListRow latestConfigMediaType
  rw [isSome_map]
  split
  · rfl
  · rename_i x hx
    exact configMediaType_isSome hall (mem_taggedManifests (mem_of_head? hx))

theorem listUntaggedManifests_isSome (repo : RepoId) :
    (listUntaggedManifests text pg t repo).isSome = true := by
  unfold listUntaggedManifests
  rw [select_isSome]
  intro m hm
  have hm := (mem_filter.mp (mem_reverse.mp hm)).1
  rw [untaggedManifest, isSome_map]
  exact sizedManifestDigest_isSome (hall m hm)

end all

end listings

end Chicoree.Listings
