import Chicoree.Signatures.Keyless
import Chicoree.Signatures.Notation

/-! # Checking an artifact's signatures

`checkArtifactSignatures`: one check for each signature an artifact carries, by the
format of the artifact. Each of the formats first tries the trusted keys and then,
where none verified, a certificate. A result of `none` is a check that throws. -/

namespace Chicoree.Signatures

open Json

variable {Key : Type} (P : Primitives Key)

/-- A layer of an artifact manifest. -/
structure LayerDescriptor where
  mediaType : Option String := none
  digest : Option String := none
  annotations : List (String × String) := []

def LayerDescriptor.annotation (l : LayerDescriptor) (key : String) : Option String :=
  (l.annotations.find? fun a => decide (a.1 = key)).map (·.2)

/-- What a verification of one artifact starts from. -/
structure VerifyInput (Key : Type) where
  now : Int
  /-- Repository paths a docker-reference may use. -/
  candidates : List String
  subjectDigest : String
  /-- The exact bytes of the subject manifest. -/
  subjectPayload : Option String
  format : ArtifactFormat
  layers : List LayerDescriptor
  keys : List (PreparedKey Key)
  identities : List TrustedIdentity
  load : String → Option Bytes

variable (input : VerifyInput Key)

def VerifyInput.blob (layer : LayerDescriptor) : Option Bytes :=
  if present layer.digest then layer.digest.bind input.load else none

def newCheck (layer : LayerDescriptor) (format : ArtifactFormat) : SignatureCheck :=
  { payloadDigest := layer.digest.getD "", format := format }

def legacyMaterial (layer : LayerDescriptor) : Option LegacyMaterial :=
  let certificate := layer.annotation "dev.sigstore.cosign/certificate"
  if present certificate then
    some ⟨certificate.getD "", layer.annotation "dev.sigstore.cosign/chain",
      layer.annotation "dev.sigstore.cosign/bundle"⟩
  else none

def failedVerification (error : String) : KeylessVerification :=
  ⟨false, none, none, none, some error⟩

/-! ## Envelopes -/

/-- The payload of an envelope and its statement: `some none` without a payload,
`none` where it holds no bytes. -/
def decodeStatement (envelope : Option Json) : Option (Option (Bytes × Option InTotoStatement)) :=
  let payload := field? envelope "payload"
  if !truthy payload then some none
  else
    match payload.bind P.bufferFrom with
    | none => none
    | some body => some (some (body, parseInTotoStatement (P.parseJson body)))

/-- The decoded signatures of an envelope, those that are texts; `none` where they
are no list, or one of them is nothing. -/
def envelopeSignatures (envelope : Option Json) : Option (List Bytes) :=
  match orElse (field? envelope "signatures") (some (.arr [])) with
  | some (.arr sigs) =>
    (sigs.mapM fun s => field! (some s) "sig").map fun sigs =>
      sigs.filterMap fun sig => (str? sig).bind fun s => P.bufferFrom (.str s)
  | _ => none

def matchSignatures (check : SignatureCheck) (data : Bytes)
    (keys : List (PreparedKey Key)) : List Bytes → SignatureCheck
  | [] => check
  | s :: ss =>
    let checked := matchKeys P check data s keys
    if checked.status = .verified then checked else matchSignatures check data keys ss

def verifyDsse (check : SignatureCheck) (envelope : Option Json) (subjectDigest : String)
    (keys : List (PreparedKey Key)) : Option SignatureCheck :=
  match decodeStatement P envelope with
  | none => none
  | some none => some (check.invalid "no DSSE envelope payload")
  | some (some (_, none)) =>
    some (check.invalid "envelope payload is not an in-toto statement")
  | some (some (body, some statement)) =>
    let check := { check with
      predicateType := statement.predicateType
      signedDigest := firstSubjectDigest statement }
    if !statementCoversDigest statement subjectDigest then
      some (check.invalid "the statement's subject is a different image")
    else
      let payloadType := textOr P (field? envelope "payloadType") ""
      match envelopeSignatures P envelope with
      | none => none
      | some [] => some (check.invalid "envelope carries no signature")
      | some sigs =>
        some (matchSignatures P check (dssePreAuthEncoding P payloadType body) keys sigs)

/-! ## One check for each format -/

def applyLegacy (check : SignatureCheck) (m : LegacyMaterial)
    (built : Option (Except String Json)) (artifact : Option Bytes) :
    Option SignatureCheck :=
  match built with
  | none => none
  | some (.error e) =>
    some (applyKeyless P check (P.utf8 m.certificate) input.identities (failedVerification e))
  | some (.ok bundle) =>
    some (applyKeyless P check (P.utf8 m.certificate) input.identities
      (verifyKeylessBundle P bundle artifact))

def coseReason : String :=
  "COSE envelopes are listed but not verified yet; " ++
    "sign with the JWS envelope (notation's default) to have it checked"

def LayerDescriptor.isCose (l : LayerDescriptor) : Bool :=
  decide (trim ((l.mediaType.getD "").toList.takeWhile (· ≠ ';')) = "application/cose".toList)

def checkNotation (layer : LayerDescriptor) : Option SignatureCheck :=
  let check := newCheck layer .notation_
  if layer.isCose then
    some { check with reason := some coseReason }
  else
    match input.blob layer with
    | none => some (check.invalid "envelope blob unavailable")
    | some blob =>
      verifyNotationJws P input.now blob input.subjectDigest input.keys check

/-- A simple-signing payload that names the subject and the repository and comes
with a signature. -/
def checkSimpleSigning (layer : LayerDescriptor) (payload : Bytes) (signatureB64 : String)
    (check : SignatureCheck) : Option SignatureCheck :=
  let check := matchKeys P check payload
    ((P.bufferFrom (.str signatureB64)).getD []) input.keys
  match legacyMaterial layer with
  | none => some check
  | some m =>
    if check.status = .verified then some check
    else
      applyLegacy P input check m (legacyMessageBundle P m payload signatureB64) (some payload)

def checkCosignLegacy (layer : LayerDescriptor) : Option SignatureCheck :=
  let check := newCheck layer .cosignLegacy
  match input.blob layer with
  | none => some (check.invalid "payload blob unavailable")
  | some payload =>
    match parseSimpleSigning (P.parseJson payload) with
    | none => some (check.invalid "payload is not a cosign simple-signing document")
    | some ss =>
      let check := { check with
        signedDigest := ss.manifestDigest, signedReference := ss.dockerReference }
      let signatureB64 := layer.annotation "dev.cosignproject.cosign/signature"
      if ss.manifestDigest ≠ some input.subjectDigest then
        some (check.invalid ("payload names " ++
          (if present ss.manifestDigest then sliceDigest (ss.manifestDigest.getD "")
            else "no image") ++ ", not this image"))
      else if !referenceMatchesRepository ss.dockerReference input.candidates then
        some (check.invalid ("payload names repository " ++ ss.dockerReference.getD "(none)"))
      else if !present signatureB64 then
        some (check.invalid "no signature annotation on the payload")
      else checkSimpleSigning P input layer payload (signatureB64.getD "") check

def checkBundleKeys (bundle : Json) (check : SignatureCheck) : Option SignatureCheck :=
  let envelope := bundle.get? "dsseEnvelope"
  let message := bundle.get? "messageSignature"
  if truthy envelope then
    verifyDsse P check envelope input.subjectDigest input.keys
  else if truthy message then
    let md := field? (field? message "messageDigest") "digest"
    let signature := field? message "signature"
    match (if truthy md then md.bind P.bufferFrom else some []) with
    | none => none
    | some bytes =>
      let signed := P.hex bytes
      let check := { check with
        signedDigest := if signed = "" then none else some ("sha256:" ++ signed) }
      if signed.toList ≠ digestHex input.subjectDigest then
        some (check.invalid "the bundle signs a different digest")
      else if !present input.subjectPayload then
        some (check.invalid "subject manifest unavailable")
      else if !truthy signature then
        some (check.invalid "bundle carries no signature")
      else
        match signature.bind P.bufferFrom with
        | none => none
        | some sig =>
          some (matchKeys P check (P.utf8 (input.subjectPayload.getD "")) sig input.keys)
  else some (check.invalid "bundle has neither a DSSE envelope nor a message signature")

def checkHint (check : SignatureCheck) : SignatureCheck :=
  if check.status = .untrusted ∧ present check.hint then
    match input.keys.find? fun k => decide (some k.row.fingerprint = check.hint) with
    | some k =>
      let label := if k.row.scope = .user
        then k.row.signer.getD "a member" ++ "'s key \"" ++ k.row.name ++ "\""
        else "trusted key \"" ++ k.row.name ++ "\""
      check.invalid ("does not verify with " ++ label ++ ", the key it names")
    | none => check
  else check

variable {input} in
theorem checkHint_verified {check : SignatureCheck} :
    (checkHint input check).status = .verified ↔ check.status = .verified := by
  unfold checkHint
  split
  · rename_i hu
    split
    · simp [hu.1]
    · rfl
  · rfl

def bundleCertificate (bundle : Json) : Option Json :=
  let material := bundle.get? "verificationMaterial"
  orElse (field? (field? material "certificate") "rawBytes")
    (field? (first? (field? (field? material "x509CertificateChain")
      "certificates")) "rawBytes")

/-- The keyless verification of a bundle: a message signature is over the subject
manifest, an envelope carries its payload. -/
def bundleVerification (bundle : Json) : KeylessVerification :=
  let message := truthy (bundle.get? "messageSignature")
  if message && !present input.subjectPayload then
    failedVerification "subject manifest unavailable"
  else
    verifyKeylessBundle P bundle
      (if message then input.subjectPayload.map P.utf8 else none)

def checkBundleCertificate (bundle : Json) (check : SignatureCheck) : Option SignatureCheck :=
  let certRaw := bundleCertificate bundle
  if truthy certRaw ∧ check.status ≠ .verified then
    match certRaw.bind P.bufferFrom with
    | none => none
    | some cert =>
      some (applyKeyless P check cert input.identities (bundleVerification P input bundle))
  else some check

def checkSigstoreBundle (layer : LayerDescriptor) : Option SignatureCheck :=
  let check := newCheck layer .sigstoreBundle
  match input.blob layer with
  | none => some (check.invalid "bundle blob unavailable")
  | some blob =>
    let bundle := P.parseJson blob
    if !truthy (some bundle) then some (check.invalid "bundle is not JSON")
    else
      let hint := field? (field? (bundle.get? "verificationMaterial") "publicKey")
        "hint"
      let check := if truthy hint then
          { check with hint := (hint.bind P.bufferFrom).map P.hex }
        else check
      (checkBundleKeys P input bundle check).bind fun check =>
        checkBundleCertificate P input bundle (checkHint input check)

def checkEnvelopeCertificate (layer : LayerDescriptor) (envelope : Json)
    (check : SignatureCheck) : Option SignatureCheck :=
  match legacyMaterial layer with
  | none => some check
  | some m =>
    if check.status = .verified then some check
    else applyLegacy P input check m (legacyDsseBundle P m envelope) none

def checkDsse (layer : LayerDescriptor) : Option SignatureCheck :=
  let check := newCheck layer .dsse
  match input.blob layer with
  | none => some (check.invalid "envelope blob unavailable")
  | some blob =>
    let envelope := P.parseJson blob
    if !truthy (some envelope) then some (check.invalid "envelope is not JSON")
    else
      (verifyDsse P check (some envelope) input.subjectDigest input.keys).bind fun check =>
        checkEnvelopeCertificate P input layer envelope check

/-! ## All signatures of an artifact -/

structure SignatureResult where
  status : SignatureStatus
  keyId : Option String
  userKeyId : Option String
  identityId : Option String
  signer : Option String
  identity : Option String
  checks : List SignatureCheck

def summarize (checks : List SignatureCheck) : SignatureResult :=
  let verified := checks.find? fun c => decide (c.status = .verified)
  let keyless := checks.find? fun c => decide (c.status = .keyless)
  { status :=
      if verified.isSome then .verified
      else if keyless.isSome then .keyless
      else if !checks.isEmpty && checks.all (fun c => decide (c.status = .invalid)) then
        .invalid
      else .untrusted
    keyId := verified.bind (·.keyId)
    userKeyId := verified.bind (·.userKeyId)
    identityId := verified.bind (·.identityId)
    signer := verified.bind (·.signer)
    identity := (verified.bind (·.identity)).orElse fun _ => keyless.bind (·.identity)
    checks := checks }

def checkLayer : ArtifactFormat → Option (LayerDescriptor → Option SignatureCheck)
  | .notation_ => some (checkNotation P input)
  | .cosignLegacy => some (checkCosignLegacy P input)
  | .sigstoreBundle => some (checkSigstoreBundle P input)
  | .dsse => some (checkDsse P input)
  | .inToto | .raw | .unknown => none

/-- The layers that carry a signature: every one, but of a bundle the first alone. -/
def VerifyInput.signedLayers : List LayerDescriptor :=
  if input.format = .sigstoreBundle then [input.layers.headD {}] else input.layers

/-- Check every signature an artifact carries against the trusted keys: `some none`
for artifacts that are not signed at all. -/
def checkArtifactSignatures : Option (Option SignatureResult) :=
  match checkLayer P input input.format with
  | none => some none
  | some check => (input.signedLayers.mapM check).map fun checks => some (summarize checks)

end Chicoree.Signatures
