import Chicoree.Lib.Json

/-! # Payloads of signatures

The parsers of `signatures-shared.ts`: what a simple-signing document, an in-toto
statement and a Notation envelope say about the image they are for. Texts of an
envelope are decoded through the `Decoders`, whatever these are. -/

namespace Chicoree.Signatures

open Json

abbrev Bytes := List UInt8

/-! ## Simple signing -/

structure SimpleSigningPayload where
  manifestDigest : Option String
  dockerReference : Option String
  type : Option String

def parseSimpleSigning (obj : Json) : Option SimpleSigningPayload :=
  let critical := obj.get? "critical"
  if isObject (some obj) && isObject critical then
    let image := field? critical "image"
    let identity := field? critical "identity"
    some {
      manifestDigest := str? (field? image "docker-manifest-digest")
      dockerReference := str? (field? identity "docker-reference")
      type := str? (field? critical "type") }
  else none

/-! ## In-toto statements -/

structure Subject where
  name : Option String
  /-- The digests that are texts, by algorithm. -/
  digests : List (String × String)

structure InTotoStatement where
  type : Option String
  predicateType : Option String
  subjects : List Subject

def Subject.sha256 (s : Subject) : Option String :=
  (s.digests.find? fun e => decide (e.1 = "sha256")).map (·.2)

def present : Option String → Bool
  | none => false
  | some s => decide (s ≠ "")

def parseSubject (s : Json) : Subject where
  name := str? (s.get? "name")
  digests := (entries (s.get? "digest")).filterMap fun e =>
    (str? (some e.2)).map fun v => (e.1, v)

def parseInTotoStatement (obj : Json) : Option InTotoStatement :=
  let type := str? (obj.get? "_type")
  let predicateType := str? (obj.get? "predicateType")
  if !present type && !present predicateType then none
  else
    let subjects := (arr? (obj.get? "subject")).getD []
    some ⟨type, predicateType, (subjects.filter fun s => isObject (some s)).map parseSubject⟩

def digestHex (digest : String) : List Char :=
  if ':' ∈ digest.toList then (digest.toList.dropWhile (· ≠ ':')).drop 1
  else digest.toList

def statementCoversDigest (statement : InTotoStatement) (digest : String) : Bool :=
  let hex := (digestHex digest).map Char.toLower
  statement.subjects.any fun s =>
    decide ((s.sha256.getD "").toList.map Char.toLower = hex)

def firstSubjectDigest (statement : InTotoStatement) : Option String :=
  (statement.subjects.filterMap fun s =>
    if present s.sha256 then s.sha256.map ("sha256:" ++ ·) else none).head?

def isSpace (c : Char) : Bool :=
  c.isWhitespace || [0xb, 0xc, 0xa0, 0x1680, 0x2028, 0x2029, 0x202f, 0x205f, 0x3000,
    0xfeff].contains c.toNat || (0x2000 ≤ c.toNat && c.toNat ≤ 0x200a)

def trim (s : List Char) : List Char :=
  ((s.dropWhile isSpace).reverse.dropWhile isSpace).reverse

def pathParts (s : List Char) : List (List Char) :=
  (s.splitOn '/').filter fun p => !p.isEmpty

/-- Drop a tag: everything from the last colon on, if no slash follows it. -/
def dropTag (ref : List Char) : List Char :=
  let tail := ref.reverse.takeWhile fun c => c ≠ ':' && c ≠ '/'
  match ref.reverse.drop tail.length with
  | ':' :: before => before.reverse
  | _ => ref

/-- Whether a docker-reference names this repository: the host, tags and digests
are ignored. -/
def referenceMatchesRepository (reference : Option String) (candidates : List String) : Bool :=
  match reference with
  | none => false
  | some r =>
    if r = "" then false
    else
      let ref := dropTag ((trim r.toList).takeWhile (· ≠ '@'))
      let parts := match pathParts ref with
        | host :: p :: ps =>
          if '.' ∈ host ∨ ':' ∈ host ∨ host = "localhost".toList then p :: ps
          else host :: p :: ps
        | ps => ps
      let path := (List.intercalate ['/'] parts).map Char.toLower
      candidates.any fun c => decide (c.toList.map Char.toLower = path)

/-! ## Notation -/

structure NotationHeader where
  alg : Option String
  cty : Option String
  signingTime : Option String
  authenticSigningTime : Option String
  expiry : Option String

structure NotationJws where
  protectedB64 : String
  payloadB64 : String
  signatureB64 : String
  header : NotationHeader
  /-- `targetArtifact` of the payload, when it is an object. -/
  target : Option Json
  /-- Certificate chain, leaf first. -/
  x5c : List String

/-- Decoding of texts, where the text can be decoded. -/
structure Decoders where
  /-- `JSON.parse` -/
  parseText : String → Option Json
  /-- `JSON.parse` of the bytes' text -/
  parseBytes : Bytes → Option Json
  b64urlToUtf8 : String → Option String

/-- A parse failure reads as `null`. -/
def Decoders.parseJson (D : Decoders) (bytes : Bytes) : Json :=
  (D.parseBytes bytes).getD .null

/-- Read a Notation JWS; `some none` when it is not one, `none` when the reading
throws (a protected header or a payload that is `null`). -/
def parseNotationJws (D : Decoders) (value : Json) : Option (Option NotationJws) :=
  match str? (value.get? "protected"), str? (value.get? "payload"),
      str? (value.get? "signature") with
  | some prot, some payload, some signature =>
    match (D.b64urlToUtf8 prot).bind D.parseText, (D.b64urlToUtf8 payload).bind D.parseText with
    | some .null, some _ => none
    | some _, some .null => none
    | some protJson, some payloadJson =>
      let header := orElse (value.get? "header") (some (.obj []))
      let target := payloadJson.get? "targetArtifact"
      some (some {
        protectedB64 := prot
        payloadB64 := payload
        signatureB64 := signature
        header := {
          alg := str? (protJson.get? "alg")
          cty := str? (protJson.get? "cty")
          signingTime := str? (protJson.get? "io.cncf.notary.signingTime")
          authenticSigningTime :=
            str? (protJson.get? "io.cncf.notary.authenticSigningTime")
          expiry := str? (protJson.get? "io.cncf.notary.expiry") }
        target := if isObject target then target else none
        x5c := ((arr? (field? header "x5c")).getD []).filterMap
          fun c => str? (some c) })
    | _, _ => some none
  | _, _, _ => some none

/-! ## Keys, certificates and the outcome of a check

What the verifiers share: the trusted keys, the record a check fills in, and the
primitives it calls. Cryptography, certificate parsing and decoding are given by
`Primitives`, and nothing is assumed of them here. -/

inductive KeyScope where
  | trusted
  | user
deriving DecidableEq

/-- A key of the trust store, or a member's personal key. -/
structure VerificationKey where
  id : String
  name : String
  fingerprint : String
  publicKeyPem : String
  scope : KeyScope
  signer : Option String := none

inductive SignatureStatus where
  | verified
  | keyless
  | untrusted
  | invalid
deriving DecidableEq

inductive ArtifactFormat where
  | notation_
  | cosignLegacy
  | sigstoreBundle
  | dsse
  | inToto
  | raw
  | unknown
deriving DecidableEq

structure SignatureCheck where
  payloadDigest : String
  format : ArtifactFormat
  status : SignatureStatus := .untrusted
  keyId : Option String := none
  userKeyId : Option String := none
  signer : Option String := none
  keyName : Option String := none
  keyFingerprint : Option String := none
  hint : Option String := none
  identity : Option String := none
  issuer : Option String := none
  chainVerified : Option Bool := none
  identityId : Option String := none
  identityName : Option String := none
  signedAt : Option String := none
  signedDigest : Option String := none
  signedReference : Option String := none
  predicateType : Option String := none
  reason : Option String := none

def SignatureCheck.invalid (check : SignatureCheck) (reason : String) : SignatureCheck :=
  { check with status := .invalid, reason := some reason }

def SignatureCheck.verifiedBy (check : SignatureCheck) (row : VerificationKey) : SignatureCheck :=
  { check with
    status := .verified
    keyId := if row.scope = .trusted then some row.id else none
    userKeyId := if row.scope = .user then some row.id else none
    signer := if row.scope = .user then row.signer else none
    keyName := some row.name
    keyFingerprint := some row.fingerprint
    reason := none }

@[simp] theorem SignatureCheck.invalid_status (check : SignatureCheck) (reason : String) :
    (check.invalid reason).status = .invalid := rfl

@[simp] theorem SignatureCheck.verifiedBy_status (check : SignatureCheck)
    (row : VerificationKey) : (check.verifiedBy row).status = .verified := rfl

structure Certificate (Key : Type) where
  publicKey : Key
  subject : String
  issuer : String

/-- The signature algorithms a JWS may name. -/
inductive Alg where
  | PS256
  | PS384
  | PS512
  | ES256
  | ES384
  | ES512
  /-- No algorithm: what the name of a property every object inherits finds in the
  table of algorithms; the verification then goes by the key alone. -/
  | inherited

def Alg.ofName : String → Option Alg
  | "PS256" => some .PS256
  | "PS384" => some .PS384
  | "PS512" => some .PS512
  | "ES256" => some .ES256
  | "ES384" => some .ES384
  | "ES512" => some .ES512
  | name =>
    if ["constructor", "toString", "toLocaleString", "valueOf", "hasOwnProperty",
        "isPrototypeOf", "propertyIsEnumerable", "__proto__", "__defineGetter__",
        "__defineSetter__", "__lookupGetter__", "__lookupSetter__"].contains name then
      some .inherited
    else none

structure CertificateIdentity where
  identity : Option String
  issuer : Option String
  subject : Option String

structure KeylessVerification where
  ok : Bool
  identity : Option String
  issuer : Option String
  signedAt : Option String
  error : Option String

structure Primitives (Key : Type) extends Decoders where
  /-- `Buffer.from(value, "base64")`, which throws on a value that holds no bytes. -/
  bufferFrom : Json → Option Bytes
  /-- `Buffer.from(value, "hex")` -/
  bufferFromHex : Json → Option Bytes
  base64 : Bytes → String
  hex : Bytes → String
  /-- A value as a text, `String(value)`. -/
  toText : Json → String
  utf8 : String → Bytes
  ascii : String → Bytes
  sha256 : Bytes → Bytes
  /-- `Date.parse` -/
  parseDate : String → Option Int
  createPublicKey : String → Option Key
  /-- The hex sha256 of the key's SPKI. -/
  spkiFingerprint : Key → String
  /-- Whether the key signed the bytes. -/
  verifyWithKey : Key → Bytes → Bytes → Bool
  /-- Whether the key signed the bytes under a JWS algorithm. -/
  verifyJws : Alg → Key → Bytes → Bytes → Bool
  x509 : Bytes → Except String (Certificate Key)
  certificateIdentity : Bytes → Option CertificateIdentity
  /-- Whether the bundle's material proves which certificate identity signed the
  bytes. -/
  keyless : Json → Bytes → KeylessVerification

variable {Key : Type} (P : Primitives Key)

/-- A stored key and its parsed form. -/
structure PreparedKey (Key : Type) where
  row : VerificationKey
  key : Key

/-- The first key that verifies the signature, recorded in the check; the check
unchanged where none does. -/
def matchKeys (check : SignatureCheck) (data signature : Bytes)
    (keys : List (PreparedKey Key)) : SignatureCheck :=
  match keys.find? fun k => P.verifyWithKey k.key data signature with
  | some k => check.verifiedBy k.row
  | none => check

variable {P}

theorem matchKeys_verified {check : SignatureCheck} {data signature : Bytes}
    {keys : List (PreparedKey Key)} (hc : check.status ≠ .verified)
    (h : (matchKeys P check data signature keys).status = .verified) :
    ∃ k ∈ keys, P.verifyWithKey k.key data signature = true := by
  unfold matchKeys at h
  split at h
  · rename_i k hk
    have hv := List.find?_some hk
    exact ⟨k, List.mem_of_find?_eq_some hk, hv⟩
  · exact absurd h hc

end Chicoree.Signatures
