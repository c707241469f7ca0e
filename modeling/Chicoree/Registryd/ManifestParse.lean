import Chicoree.Lib.Json
import Chicoree.Registryd.Registry

/-! # Reading a manifest

The package `manifest`: decode a payload into the fields registryd knows, settle its media
type from header and payload, and check the descriptors of the fields that media type
has. -/

namespace Chicoree.Registryd.Manifest

open GoJson

/-! ## Descriptors -/

structure Platform where
  architecture : String := ""
  os : String := ""
  variant : String := ""
deriving DecidableEq

structure Descriptor where
  mediaType : String := ""
  digest : Digest := ""
  size : Int := 0
  artifactType : String := ""
  platform : Option Platform := none
  annotations : Option (List (String × String)) := none
deriving DecidableEq

def stringField {σ : Type} (name : String) (get : σ → String) (set : σ → String → σ) :
    StructField σ :=
  ⟨name, stringTyped, fun s v => set s (stringValue (get s) v)⟩

def platformFields : List (StructField Platform) :=
  [stringField "architecture" (·.architecture) fun p v => { p with architecture := v },
   stringField "os" (·.os) fun p v => { p with os := v },
   stringField "variant" (·.variant) fun p v => { p with variant := v }]

def descriptorFields : List (StructField Descriptor) :=
  [stringField "mediaType" (·.mediaType) fun d v => { d with mediaType := v },
   stringField "digest" (·.digest) fun d v => { d with digest := v },
   ⟨"size", int64Typed, fun d v => { d with size := int64Value d.size v }⟩,
   stringField "artifactType" (·.artifactType) fun d v => { d with artifactType := v },
   ⟨"platform", structTyped platformFields,
    fun d v => { d with platform := pointerValue platformFields {} d.platform v }⟩,
   ⟨"annotations", mapTyped, fun d v => { d with annotations := mapValue d.annotations v }⟩]

def descriptorValue (old : Descriptor) (v : JsonDoc) : Descriptor :=
  structValue descriptorFields old v

def descriptorTyped (v : JsonDoc) : Bool := structTyped descriptorFields v

structure RawManifest where
  schemaVersion : Int := 0
  mediaType : String := ""
  artifactType : String := ""
  config : Option Descriptor := none
  layers : Slice Descriptor := {}
  manifests : Slice Descriptor := {}
  subject : Option Descriptor := none
  annotations : Option (List (String × String)) := none

def rawFields : List (StructField RawManifest) :=
  [⟨"schemaVersion", int64Typed,
    fun m v => { m with schemaVersion := int64Value m.schemaVersion v }⟩,
   stringField "mediaType" (·.mediaType) fun m v => { m with mediaType := v },
   stringField "artifactType" (·.artifactType) fun m v => { m with artifactType := v },
   ⟨"config", descriptorTyped,
    fun m v => { m with config := pointerValue descriptorFields {} m.config v }⟩,
   ⟨"layers", sliceTyped descriptorTyped,
    fun m v => { m with layers := sliceValue descriptorValue {} m.layers v }⟩,
   ⟨"manifests", sliceTyped descriptorTyped,
    fun m v => { m with manifests := sliceValue descriptorValue {} m.manifests v }⟩,
   ⟨"subject", descriptorTyped,
    fun m v => { m with subject := pointerValue descriptorFields {} m.subject v }⟩,
   ⟨"annotations", mapTyped, fun m v => { m with annotations := mapValue m.annotations v }⟩]

/-- `json.Unmarshal` into a `rawManifest`: a document of another shape is an error, and
`null` leaves everything at zero. -/
def unmarshal (doc : JsonDoc) : Option RawManifest :=
  if structTyped rawFields doc then some (structValue rawFields {} doc) else none

/-! ## Media types -/

def mediaTypeOCIManifest : String := "application/vnd.oci.image.manifest.v1+json"
def mediaTypeOCIIndex : String := "application/vnd.oci.image.index.v1+json"
def mediaTypeDockerManifest : String :=
  "application/vnd.docker.distribution.manifest.v2+json"
def mediaTypeDockerList : String :=
  "application/vnd.docker.distribution.manifest.list.v2+json"

def isIndexType (mt : String) : Bool :=
  decide (mt = mediaTypeOCIIndex ∨ mt = mediaTypeDockerList)

def isImageType (mt : String) : Bool :=
  decide (mt = mediaTypeOCIManifest ∨ mt = mediaTypeDockerManifest)

def containsList {α : Type} [DecidableEq α] (part : List α) : List α → Bool
  | [] => part.isEmpty
  | x :: xs => part.isPrefixOf (x :: xs) || containsList part xs

/-- `IsForeignLayer`: stored elsewhere, and so exempt from the existence checks. -/
def isForeignLayer (mediaType : String) : Bool :=
  containsList "foreign".toList mediaType.toList ||
    containsList "nondistributable".toList mediaType.toList

/-- White space in the sense of `unicode.IsSpace`. -/
def isSpace (c : Char) : Bool :=
  (9 ≤ c.toNat && c.toNat ≤ 13) || (0x2000 ≤ c.toNat && c.toNat ≤ 0x200A) ||
    [0x20, 0x85, 0xA0, 0x1680, 0x2028, 0x2029, 0x202F, 0x205F, 0x3000].contains c.toNat

def trimSpace (s : List Char) : List Char :=
  ((s.dropWhile isSpace).reverse.dropWhile isSpace).reverse

def headerType (contentType : String) : String :=
  if contentType.toList.contains ';' then
    String.ofList (trimSpace (contentType.toList.takeWhile (· ≠ ';')))
  else contentType

/-- The media type a payload is read under: the header's, unless the header says
nothing. -/
def mediaTypeOf (contentType : String) (raw : RawManifest) : String :=
  let mt := headerType contentType
  if mt = "" ∨ mt = "application/json" ∨ mt = "application/octet-stream" then raw.mediaType
  else mt

/-! ## Parse -/

/-- Why a payload is no manifest, answered with 400 and its message. -/
inductive ParseError where
  | notJson
  | mismatch (mediaType declared : String)
  | noConfig
  | invalidDigest (digest : String)
  | noMediaType (digest : String)
  | unsupported (mediaType : String)

def ParseError.message : ParseError → String
  | .notJson => "manifest is not valid JSON"
  | .mismatch mt declared =>
    "content type \"" ++ mt ++ "\" does not match manifest mediaType \"" ++ declared ++ "\""
  | .noConfig => "manifest has no config descriptor"
  | .invalidDigest d => "descriptor has invalid digest \"" ++ d ++ "\""
  | .noMediaType d => "descriptor " ++ d ++ " has no mediaType"
  | .unsupported mt => "unsupported manifest media type \"" ++ mt ++ "\""

def validateDescriptor (d : Descriptor) : Except ParseError Unit :=
  if d.digest = "" ∨ d.digest.toList.contains ':' = false then .error (.invalidDigest d.digest)
  else if d.mediaType = "" then .error (.noMediaType d.digest)
  else .ok ()

def validateAll : List Descriptor → Except ParseError Unit
  | [] => .ok ()
  | d :: ds =>
    match validateDescriptor d with
    | .error e => .error e
    | .ok () => validateAll ds

structure Parsed where
  mediaType : String
  artifactType : String
  isIndex : Bool := false
  config : Option Descriptor := none
  layers : List Descriptor := []
  children : List Descriptor := []
  subject : Option Descriptor := none
  annotations : Option (List (String × String)) := none
deriving DecidableEq

def ociImageConfig : String := "application/vnd.oci.image.config.v1+json"
def dockerImageConfig : String := "application/vnd.docker.container.image.v1+json"

def artifactTypeOf (raw : RawManifest) (config : Descriptor) : String :=
  if raw.artifactType = "" ∧ config.mediaType ≠ ociImageConfig ∧
      config.mediaType ≠ dockerImageConfig then config.mediaType
  else raw.artifactType

def readFields (mt : String) (raw : RawManifest) : Except ParseError Parsed :=
  if isIndexType mt then
    match validateAll raw.manifests.elems with
    | .error e => .error e
    | .ok () =>
      .ok { mediaType := mt, artifactType := raw.artifactType, isIndex := true
            children := raw.manifests.elems, subject := raw.subject
            annotations := raw.annotations }
  else if isImageType mt then
    match raw.config with
    | none => .error .noConfig
    | some config =>
      match validateAll (config :: raw.layers.elems) with
      | .error e => .error e
      | .ok () =>
        .ok { mediaType := mt, artifactType := artifactTypeOf raw config
              config := some config, layers := raw.layers.elems, subject := raw.subject
              annotations := raw.annotations }
  else .error (.unsupported mt)

/-- `Parse` of a payload; `none` is a payload that is no JSON. -/
def parse (contentType : String) (payload : Option JsonDoc) : Except ParseError Parsed :=
  match payload.bind unmarshal with
  | none => .error .notJson
  | some raw =>
    let mt := mediaTypeOf contentType raw
    if raw.mediaType ≠ "" ∧ mt ≠ raw.mediaType then .error (.mismatch mt raw.mediaType)
    else
      match readFields mt raw with
      | .error e => .error e
      | .ok p =>
        match validateAll p.subject.toList with
        | .error e => .error e
        | .ok () => .ok p

def Parsed.blobs (p : Parsed) : List Digest :=
  p.config.toList.map (·.digest) ++
    (p.layers.filter fun l => !isForeignLayer l.mediaType).map (·.digest)

/-- `References`: config, layers and children, without foreign layers and the subject. -/
def Parsed.references (p : Parsed) : List Digest :=
  p.blobs ++ p.children.map (·.digest)

end Chicoree.Registryd.Manifest
