import Chicoree.Lib.Inherit
import Chicoree.PullBlocks.Policy
import Chicoree.Registryd.Pushes
import Chicoree.Signatures.Keys
import Chicoree.Web.ManifestReaders

/-! # Recomputing the blocks of a repository

`refreshRepositoryBlocks`: from what it reads to the rows of `manifest_blocks` it writes. A
`Map` is its entries in insertion order. The refresh throws, before it writes anything, where
reading a payload does. -/

namespace Chicoree.PullBlocks

open Registryd (Digest)
open Web (isIndexRow blockChildren coveredChildren layerMediaTypes configMediaType)

/-! ## Rows -/

/-- A row of `manifests`, with its payload as `JSON.parse` reads it. -/
structure ManifestRow where
  digest : Digest
  mediaType : String
  payload : Option JsonDoc
  subjectDigest : Option Digest

structure TagRow where
  name : String
  digest : Digest

inductive SignatureKind where
  | signature
  | attestation
deriving DecidableEq

inductive SignatureStatus where
  | verified
  | untrusted
  | invalid
  | keyless
deriving DecidableEq

structure SignatureRow where
  manifestDigest : Digest
  signatureDigest : Digest
  kind : SignatureKind
  status : SignatureStatus

/-- A row of `manifest_blocks` of the repository. -/
structure Block where
  digest : Digest
  reason : String
  /-- Who may push may still read the manifest. -/
  pushersExempt : Bool
deriving DecidableEq

/-- What a refresh reads before it computes: the repository, the settings of its
organization, and the rows of the repository in the order the database returns them. -/
structure Reading where
  now : Int
  repo : RepoRow
  org : Option OrgSettings
  rows : List ManifestRow
  scans : List ScanRow
  rules : List ExceptionRule
  tags : List TagRow
  signatures : List SignatureRow

abbrev Reasons := List (Digest × String)

def Reasons.get (m : Reasons) (d : Digest) : Option String := (Table.find Prod.fst d m).map (·.2)

def Reasons.set (m : Reasons) (d : Digest) (why : String) : Reasons :=
  Table.upsert Prod.fst (d, why) m

theorem Reasons.get_set_self (m : Reasons) (d : Digest) (why : String) :
    (m.set d why).get d = some why := by
  have hfind : Table.find Prod.fst (d, why).1 (Table.upsert Prod.fst (d, why) m) =
      some (d, why) := Table.find_upsert_self _ _
  unfold Reasons.get Reasons.set
  rw [hfind]
  rfl

theorem Reasons.get_set_ne {d d' : Digest} (h : d' ≠ d) (m : Reasons) (why : String) :
    (m.set d why).get d' = m.get d' := by
  have hkey : d' ≠ (d, why).1 := h
  unfold Reasons.get Reasons.set
  rw [Table.find_upsert_ne hkey]

/-! ## Vulnerabilities -/

/-- A string as maps, sets and `===` compare it. -/
def textOf : JsonDoc → Option String
  | .str s => if CodePoints.ofString s.toText = s then some s.toText else none
  | _ => none

def ManifestRow.children (r : ManifestRow) : List Digest :=
  if isIndexRow r.mediaType then (blockChildren r.payload).filterMap textOf else []

/-- Why a manifest violates the policy by its own scan; only definitive results block. -/
def ownViolation (lower : String → String) (rd : Reading) (d : Digest) : Option String :=
  match Table.find (·.digest) d rd.scans with
  | none => none
  | some scan =>
    if scan.status = .scanned then
      violation (effectiveScanSummary lower scan rd.rules (some rd.repo.id) rd.now)
        (effectivePolicy rd.org rd.repo)
    else none

/-- `hit.slice(7, 19)` -/
def shortDigest (d : Digest) : String := String.ofList ((d.toList.drop 7).take 12)

def variantReason (hit : Digest) (why : String) : String :=
  "variant " ++ shortDigest hit ++ ": " ++ why

def blockScanned (lower : String → String) (rd : Reading) (blocked : Reasons)
    (r : ManifestRow) : Reasons :=
  match ownViolation lower rd r.digest with
  | none => blocked
  | some why => blocked.set r.digest why

def blockOwn (lower : String → String) (rd : Reading) : Reasons :=
  rd.rows.foldl (blockScanned lower rd) []

/-- The second loop, for one row: an index takes over the block of its first blocked
child. -/
def blockIndex (blocked : Reasons) (r : ManifestRow) : Reasons :=
  match r.children.find? fun d => (blocked.get d).isSome with
  | none => blocked
  | some hit => blocked.set r.digest (variantReason hit ((blocked.get hit).getD ""))

def blockedByScan (lower : String → String) (rd : Reading) : Reasons :=
  if (effectivePolicy rd.org rd.repo).level.isSome ∧ rd.rows ≠ [] then
    rd.rows.foldl blockIndex (blockOwn lower rd)
  else []

/-! ## Signatures -/

def cosignSimpleSigning : String := "application/vnd.dev.cosign.simplesigning.v1+json"
def dsseEnvelope : String := "application/vnd.dsse.envelope.v1+json"
def inTotoJson : String := "application/vnd.in-toto+json"
def sigstoreBundlePrefix : String := "application/vnd.dev.sigstore.bundle"
def ociEmptyConfig : String := "application/vnd.oci.empty.v1+json"
def notationJws : String := "application/jose+json"
def notationCose : String := "application/cose"

def sbomMediaTypes : List String :=
  ["application/spdx+json", "application/vnd.cyclonedx+json", "text/spdx+json", "text/spdx",
    "application/vnd.syft+json", "application/vnd.cyclonedx+xml", "text/spdx+xml"]

/-- `mediaType.split(";")[0].trim()` -/
def bareType (mediaType : String) : String :=
  String.ofList (Signatures.trim (mediaType.toList.takeWhile (· ≠ ';')))

def isSbomMediaType (mediaType : String) : Bool :=
  decide (mediaType ≠ "") && sbomMediaTypes.contains (bareType mediaType)

def isArtifactMediaType (mediaType : String) : Bool :=
  decide (mediaType ≠ "") &&
    let mt := bareType mediaType
    [cosignSimpleSigning, dsseEnvelope, inTotoJson, notationJws, notationCose].contains mt ||
      sigstoreBundlePrefix.toList.isPrefixOf mt.toList || isSbomMediaType mt

/-- The check on what stands for a media type; splitting what is no text throws. -/
def isArtifactLayer (mediaType : JsonDoc) : Option Bool :=
  match mediaType with
  | .str s => some (isArtifactMediaType s.toText)
  | v => if Web.truthy (some v) then none else some false

def everyArtifact : List JsonDoc → Option Bool
  | [] => some true
  | l :: ls =>
    match isArtifactLayer l with
    | some true => everyArtifact ls
    | other => other

def isLowerHex (c : Char) : Bool := ('a' ≤ c && c ≤ 'f') || ('0' ≤ c && c ≤ '9')

/-- `COSIGN_TAG_RE` -/
def isCosignTag (tag : String) : Bool :=
  let rest := tag.toList.drop 7
  decide (tag.toList.take 7 = "sha256-".toList) && (rest.take 64).all isLowerHex &&
    decide ((rest.take 64).length = 64) &&
      [".sig", ".att", ".sbom"].contains (String.ofList (rest.drop 64))

/-- `looksLikeArtifact` of a row under its tags, `none` where reading the payload throws. -/
def looksLikeArtifact (r : ManifestRow) (tags : List String) : Option Bool :=
  match layerMediaTypes r.payload with
  | none => none
  | some layers =>
    if truthyText r.subjectDigest then some true
    else if tags.any isCosignTag then some true
    else if (configMediaType r.payload).bind textOf = some ociEmptyConfig then some true
    else if layers = [] then some false
    else everyArtifact layers

def verifiedDigests (signatures : List SignatureRow) : List Digest :=
  (signatures.filter fun s => decide (s.kind = .signature ∧ s.status = .verified)).map
    (·.manifestDigest)

/-- The children of the verified indexes, `none` where one of their payloads throws. -/
def coveredByIndex (rd : Reading) : List ManifestRow → Option (List Digest)
  | [] => some []
  | r :: rs =>
    if isIndexRow r.mediaType ∧ r.digest ∈ verifiedDigests rd.signatures then
      match coveredChildren r.payload, coveredByIndex rd rs with
      | some children, some rest => some (children.filterMap textOf ++ rest)
      | _, _ => none
    else coveredByIndex rd rs

def tagsOf (rd : Reading) (d : Digest) : List String :=
  (rd.tags.filter fun t => decide (t.digest = d)).map (·.name)

def unsignedRows (rd : Reading) (covered : List Digest) : List ManifestRow → Option (List Digest)
  | [] => some []
  | r :: rs =>
    match looksLikeArtifact r (tagsOf rd r.digest), unsignedRows rd covered rs with
    | some artifact, some rest =>
      if artifact ∨ r.digest ∈ verifiedDigests rd.signatures ∨ r.digest ∈ covered then some rest
      else some (r.digest :: rest)
    | _, _ => none

def unsigned (rd : Reading) : Option (List Digest) :=
  if rd.rows ≠ [] ∧ effectiveSignaturePolicy rd.org rd.repo then
    match coveredByIndex rd rd.rows with
    | none => none
    | some covered => unsignedRows rd covered rd.rows
  else some []

def signatureBlockReason : String :=
  "no signature from a trusted key or identity (signature policy)"

def isSignatureBlockReason (reason : String) : Bool :=
  Registryd.Manifest.containsList "(signature policy)".toList reason.toList

def signatureReason : Option String → String
  | some why => why ++ "; " ++ signatureBlockReason
  | none => signatureBlockReason

/-- One entry of the second half of `final`. -/
def addUnsigned (final : Reasons) (d : Digest) : Reasons :=
  final.set d (signatureReason (final.get d))

structure Computed where
  blocked : Reasons
  unsigned : List Digest

def Computed.final (c : Computed) : Reasons := c.unsigned.foldl addUnsigned c.blocked

/-- Only a pure signature block lets pushers read the image. -/
def Computed.pushersExempt (c : Computed) (d : Digest) : Bool :=
  decide (d ∈ c.unsigned) && (c.blocked.get d).isNone

def Computed.rows (c : Computed) : List Block :=
  c.final.map fun e => ⟨e.1, e.2, c.pushersExempt e.1⟩

def compute (lower : String → String) (rd : Reading) : Option Computed :=
  (unsigned rd).map fun unsigned => ⟨blockedByScan lower rd, unsigned⟩

inductive BlockWrite where
  | upsert (b : Block)
  | delete (digest : Digest)

def BlockWrite.apply (blocks : List Block) : BlockWrite → List Block
  | .upsert b => Table.upsert (·.digest) b blocks
  | .delete d => blocks.filter fun b => decide (b.digest ≠ d)

/-- The writes of a refresh, from the rows it found: entries that differ, then the rows that
are no longer in. -/
def Computed.writes (c : Computed) (existing : List Block) : List BlockWrite :=
  ((c.rows.filter fun b => decide (Table.find (·.digest) b.digest existing ≠ some b)).map
    .upsert) ++
  (existing.filter fun e => (c.final.get e.digest).isNone).map fun e => .delete e.digest

/-- A refresh with nothing in between: the rows it leaves and how many, `none` where it
throws. -/
def refreshRepositoryBlocks (lower : String → String) (rd : Reading) (existing : List Block) :
    Option (List Block × Nat) :=
  (compute lower rd).map fun c =>
    ((c.writes existing).foldl BlockWrite.apply existing, c.final.length)

end Chicoree.PullBlocks
