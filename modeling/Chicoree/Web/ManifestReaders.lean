import Chicoree.Registryd.ManifestParse

/-! # Readers of stored manifests

What the web app takes from a stored payload: `image-move.ts` the blobs and children it
copies, `pull-policy.ts` the children it follows and the media types that tell an artifact.
A reader answers `none` where it throws. -/

namespace Chicoree.Web

open Registryd.Manifest

/-! ## Accesses -/

/-- `x.k`, which throws on `null`. -/
def prop (k : String) : JsonDoc → Option (Option JsonDoc)
  | .null => none
  | x => some (x.get? k)

/-- `x?.k` -/
def optProp (k : String) : Option JsonDoc → Option JsonDoc
  | none | some .null => none
  | some x => x.get? k

def truthy : Option JsonDoc → Bool
  | none | some .null => false
  | some (.bool b) => b
  | some (.int n) => decide (n ≠ 0)
  | some (.decimal n) => decide (n ≠ 0)
  | some (.str s) => !s.isEmpty
  | some (.arr _) | some (.obj _) => true

/-- The elements of `x ?? []`, for a spread or a loop. -/
def elements : Option JsonDoc → Option (List JsonDoc)
  | none | some .null => some []
  | some (.arr xs) => some xs
  | some (.str s) => some (s.map fun c => .str [c])
  | _ => none

/-- `/foreign|nondistributable/.test(x)`; what is no text does not match, and no accepted
manifest has such a media type. -/
def matchesForeign : Option JsonDoc → Bool
  | some (.str s) =>
    containsList (CodePoints.ofString "foreign") s ||
      containsList (CodePoints.ofString "nondistributable") s
  | _ => false

/-! ## image-move.ts -/

/-- `parseManifest`: what is no JSON is an empty object. -/
def parseManifest (payload : Option JsonDoc) : JsonDoc := payload.getD (.obj [])

/-- `blobsOf`: config and layers with a digest, but no foreign layers. -/
def blobsOf (payload : Option JsonDoc) : Option (List JsonDoc) :=
  match prop "config" (parseManifest payload), prop "layers" (parseManifest payload) with
  | some config, some layers =>
    (elements layers).map fun layers =>
      (((config :: layers.map some).filter fun d => truthy (optProp "digest" d)).filter
        fun d => !(truthy (optProp "mediaType" d) && matchesForeign (optProp "mediaType" d))
        ).filterMap fun d => optProp "digest" d
  | _, _ => none

/-- A member of every element, where none is `null`. -/
def propOfAll (k : String) : List JsonDoc → Option (List (Option JsonDoc))
  | [] => some []
  | x :: xs =>
    match prop k x, propOfAll k xs with
    | some v, some vs => some (v :: vs)
    | _, _ => none

def truthyOnes (ds : List (Option JsonDoc)) : List JsonDoc :=
  ds.filterMap fun d => if truthy d then d else none

def childrenOf (payload : Option JsonDoc) : Option (List JsonDoc) :=
  match prop "manifests" (parseManifest payload) with
  | some (some (.arr xs)) => (propOfAll "digest" xs).map truthyOnes
  | some _ => some []
  | none => none

/-! ## pull-policy.ts -/

/-- `/index|list/` on the stored media type. -/
def isIndexRow (mediaType : String) : Bool :=
  containsList "index".toList mediaType.toList ||
    containsList "list".toList mediaType.toList

/-- The children whose blocks an index inherits; whatever throws leaves none. -/
def blockChildren (payload : Option JsonDoc) : List JsonDoc :=
  match payload with
  | none => []
  | some doc =>
    match prop "manifests" doc with
    | some (some (.arr xs)) => ((propOfAll "digest" xs).map truthyOnes).getD []
    | _ => []

/-- `parsed ?? {}` of a payload that may be no JSON. -/
def parsedRow (payload : Option JsonDoc) : JsonDoc :=
  match payload with
  | none | some .null => .obj []
  | some doc => doc

def coveredChildren (payload : Option JsonDoc) : Option (List JsonDoc) :=
  match elements ((parsedRow payload).get? "manifests") with
  | none => none
  | some xs => (propOfAll "digest" xs).map truthyOnes

/-- `x ?? ""` -/
def orEmpty : Option JsonDoc → JsonDoc
  | none | some .null => .str []
  | some v => v

/-- `layerMediaTypes`: a missing media type is empty. -/
def layerMediaTypes (payload : Option JsonDoc) : Option (List JsonDoc) :=
  match (parsedRow payload).get? "layers" with
  | none | some .null => some []
  | some (.arr xs) => (propOfAll "mediaType" xs).map fun vs => vs.map orEmpty
  | _ => none

def configMediaType (payload : Option JsonDoc) : Option JsonDoc :=
  match optProp "mediaType" ((parsedRow payload).get? "config") with
  | some .null => none
  | v => v

end Chicoree.Web
