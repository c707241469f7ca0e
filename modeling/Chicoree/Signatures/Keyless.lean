import Chicoree.Lib.Trimming
import Chicoree.Lib.Wildcard
import Chicoree.Signatures.Keys

/-! # Keyless verification

`sigstore.ts`: the material of cosign's older signatures turned into a bundle, and the
verification of a bundle; and from `signatures.ts` what its answer does to a check. -/

namespace Chicoree.Signatures

variable {Key : Type} (P : Primitives Key)

/-! ## Encodings -/

def dssePreAuthEncoding (payloadType : String) (payload : Bytes) : Bytes :=
  P.utf8 ("DSSEv1 " ++ toString (P.utf8 payloadType).length ++ " " ++ payloadType ++ " " ++
    toString payload.length ++ " ") ++ payload

def cutAt (pattern : List Char) : List Char → Option (List Char × List Char)
  | [] => if pattern.isEmpty then some ([], []) else none
  | c :: s =>
    if pattern.isPrefixOf (c :: s) then some ([], (c :: s).drop pattern.length)
    else (cutAt pattern s).map fun r => (c :: r.1, r.2)

def pemBegin : List Char := "-----BEGIN CERTIFICATE-----".toList

def pemEnd : List Char := "-----END CERTIFICATE-----".toList

/-- The blocks of a PEM text, one for each step of the fuel; the text gets shorter
with every block. -/
def pemBlocks : Nat → List Char → List String
  | 0, _ => []
  | fuel + 1, s =>
    match cutAt pemBegin s with
    | none => []
    | some (_, s) =>
      match cutAt pemEnd s with
      | none => []
      | some (body, s) =>
        String.ofList (body.filter fun c => !isSpace c) :: pemBlocks fuel s

/-- The DER of every certificate in a PEM text, base64-encoded. -/
def pemToRawBytes (pem : String) : List String :=
  pemBlocks pem.length pem.toList

/-! ## Older signatures as bundles -/

/-- The annotations of a cosign tag-convention layer. -/
structure LegacyMaterial where
  certificate : String
  chain : Option String
  rekorBundle : Option String

/-- A JavaScript value as a text, `dflt` where there is none. -/
def textOr (x : Option Json) (dflt : String) : String :=
  match Json.orElse x none with
  | some (.str s) => s
  | some v => P.toText v
  | none => dflt

/-- Kind and version of a log entry's body, with the defaults of a body that does
not parse. -/
def kindVersion (body : Json) : Json × Json :=
  match (P.bufferFrom body).bind P.parseBytes with
  | none => (.str "hashedrekord", .str "0.0.1")
  | some .null => (.str "hashedrekord", .str "0.0.1")
  | some v =>
    (if Json.truthy (v.get? "kind") then (v.get? "kind").getD .null else .str "hashedrekord",
      if Json.truthy (v.get? "apiVersion") then (v.get? "apiVersion").getD .null
      else .str "0.0.1")

/-- The log entry of a Rekor annotation: `some none` where the annotation is
malformed, `none` where reading it throws. -/
def tlogEntryFromRekorBundle (raw : String) : Option (Option Json) :=
  match P.parseText raw with
  | none => some none
  | some .null => none
  | some parsed =>
    let p := parsed.get? "Payload"
    let body := Json.field? p "body"
    let logID := Json.field? p "logID"
    let set := parsed.get? "SignedEntryTimestamp"
    if !Json.truthy body || !Json.truthy logID || !Json.truthy set then some none
    else
      match P.bufferFromHex (logID.getD .null) with
      | none => none
      | some keyId =>
        let (kind, version) := kindVersion P (body.getD .null)
        some (some (.obj [
          ("logIndex", .str (textOr P (Json.field? p "logIndex") "0")),
          ("logId", .obj [("keyId", .str (P.base64 keyId))]),
          ("kindVersion", .obj [("kind", kind), ("version", version)]),
          ("integratedTime", .str (textOr P (Json.field? p "integratedTime") "0")),
          ("inclusionPromise", .obj [("signedEntryTimestamp", set.getD .null)]),
          ("canonicalizedBody", body.getD .null)]))

def legacyVerificationMaterial (m : LegacyMaterial) : Option (Except String Json) :=
  if pemToRawBytes m.certificate = [] then
    some (.error "certificate annotation is not a PEM certificate")
  else if !present m.rekorBundle then
    some (.error "no transparency log entry (signed without Rekor)")
  else
    match tlogEntryFromRekorBundle P (m.rekorBundle.getD "") with
    | none => none
    | some none => some (.error "transparency log annotation is malformed")
    | some (some entry) =>
      let pems := pemToRawBytes m.certificate ++
        if present m.chain then pemToRawBytes (m.chain.getD "") else []
      some (.ok (.obj [
        ("x509CertificateChain", .obj [("certificates",
          .arr (pems.map fun raw => .obj [("rawBytes", .str raw)]))]),
        ("tlogEntries", .arr [entry]),
        ("timestampVerificationData", .obj [("rfc3161Timestamps", .arr [])])]))

def bundleMediaType : Json :=
  .str "application/vnd.dev.sigstore.bundle+json;version=0.1"

def legacyMessageBundle (m : LegacyMaterial) (payload : Bytes) (signatureB64 : String) :
    Option (Except String Json) :=
  (legacyVerificationMaterial P m).map fun r => r.map fun material => .obj [
    ("mediaType", bundleMediaType), ("verificationMaterial", material),
    ("messageSignature", .obj [
      ("messageDigest", .obj [("algorithm", .str "SHA2_256"),
        ("digest", .str (P.base64 (P.sha256 payload)))]),
      ("signature", .str signatureB64)])]

def envelopeSignature (s : Json) : Option Json :=
  match Json.field! (some s) "sig", Json.field! (some s) "keyid" with
  | some sig, some keyid =>
    some (.obj [("sig", (Json.orElse sig (some (.str ""))).getD .null),
      ("keyid", (Json.orElse keyid (some (.str ""))).getD .null)])
  | _, _ => none

def legacyDsseBundle (m : LegacyMaterial) (envelope : Json) : Option (Except String Json) :=
  match legacyVerificationMaterial P m with
  | none => none
  | some (.error e) => some (.error e)
  | some (.ok material) =>
    match Json.orElse (envelope.get? "signatures") (some (.arr [])) with
    | some (.arr sigs) =>
      match sigs.mapM envelopeSignature with
      | none => none
      | some sigs =>
        some (.ok (.obj [
          ("mediaType", bundleMediaType), ("verificationMaterial", material),
          ("dsseEnvelope", .obj [
            ("payload", (Json.orElse (envelope.get? "payload") (some (.str ""))).getD .null),
            ("payloadType",
              (Json.orElse (envelope.get? "payloadType") (some (.str ""))).getD .null),
            ("signatures", .arr sigs)])]))
    | _ => none

/-- The bytes a bundle's signature is over: a message signature signs the artifact
handed in, otherwise an envelope signs the encoding of its own payload. A bundle
without content, or with an empty payload, is malformed. -/
def bundleContent (bundle : Json) (artifact : Option Bytes) : Option Bytes :=
  let envelope := bundle.get? "dsseEnvelope"
  if Json.isSet (bundle.get? "messageSignature") then artifact
  else if Json.isSet envelope then
    match (Json.field? envelope "payload").bind P.bufferFrom with
    | none => none
    | some [] => none
    | some body =>
      some (dssePreAuthEncoding P (textOr P (Json.field? envelope "payloadType") "") body)
  else none

def verifyKeylessBundle (bundle : Json) (artifact : Option Bytes) : KeylessVerification :=
  match bundleContent P bundle artifact with
  | none => ⟨false, none, none, none, some "bundle is malformed"⟩
  | some content => P.keyless bundle content

structure TrustedIdentity where
  id : String
  name : String
  issuer : String
  subject : String
deriving DecidableEq

/-- `*` matches anything within a line, everything else is literal. -/
def subjectMatches (pattern subject : String) : Bool :=
  Glob.isMatch (fun c => !([0xa, 0xd, 0x2028, 0x2029].contains c.toNat))
    pattern.toList subject.toList

/-- The non-empty parts between commas and the blanks after them. -/
def splitSubjects (subject : String) : List String :=
  match subject.toList.splitOn ',' with
  | [] => []
  | s :: rest => ((s :: rest.map (·.dropWhile isSpace)).filter fun p => !p.isEmpty).map
      String.ofList

/-- The first trusted identity a chain-verified certificate satisfies. -/
def matchTrustedIdentity (identities : List TrustedIdentity)
    (issuer subject : Option String) : Option TrustedIdentity :=
  if !present issuer || !present subject then none
  else
    identities.find? fun id => decide (some id.issuer = issuer) &&
      (splitSubjects (subject.getD "")).any fun s => subjectMatches id.subject s

/-! ## The outcome in a check -/

/-- A keyless answer on a signature no trusted key verified: the certificate's
identity is shown either way, and one that verified and is trusted makes the
signature verified. -/
def applyKeyless (check : SignatureCheck) (cert : Bytes)
    (identities : List TrustedIdentity) (verification : KeylessVerification) :
    SignatureCheck :=
  if check.status = .verified then check
  else
    match P.certificateIdentity cert with
    | none => check
    | some id =>
      let check := { check with
        status := .keyless
        identity := if id.identity.isSome then id.identity else id.subject
        issuer := id.issuer }
      if !verification.ok then
        { check with chainVerified := some false, reason := verification.error }
      else
        let check := { check with
          chainVerified := some true
          signedAt := verification.signedAt
          identity := if present verification.identity then verification.identity
            else check.identity
          issuer := if present verification.issuer then verification.issuer
            else check.issuer }
        match matchTrustedIdentity identities check.issuer check.identity with
        | some m =>
          { check with
            status := .verified
            identityId := some m.id
            identityName := some m.name
            keyId := none
            userKeyId := none
            reason := none }
        | none => { check with reason := some "identity is not trusted here" }

/-- The certificate identity of an accepted keyless verification is trusted. -/
def KeylessTrusted (identities : List TrustedIdentity) (v : KeylessVerification) : Prop :=
  v.ok = true ∧ (matchTrustedIdentity identities v.issuer v.identity).isSome = true

variable {P}

theorem applyKeyless_status {check : SignatureCheck} {cert : Bytes}
    {identities : List TrustedIdentity} {v : KeylessVerification}
    (hc : check.status ≠ .verified)
    (hv : v.ok = true → present v.identity = true ∧ present v.issuer = true) :
    (applyKeyless P check cert identities v).status = .verified ↔
      (P.certificateIdentity cert).isSome = true ∧ KeylessTrusted identities v := by
  unfold applyKeyless KeylessTrusted
  rw [if_neg hc]
  cases hid : P.certificateIdentity cert with
  | none => simp [hc]
  | some id =>
    by_cases hok : v.ok = true
    · obtain ⟨hi, hs⟩ := hv hok
      simp only [hok, hi, hs, Bool.not_true, Bool.false_eq_true, if_false, if_true,
        Option.isSome_some, true_and]
      cases matchTrustedIdentity identities v.issuer v.identity <;> simp
    · simp [hok]

end Chicoree.Signatures

/-! ## The names of a certificate

The X.509 library prints the subject alternative names of a certificate as one text, each with
its kind before it and separated by commas. `certificateIdentity` takes the kinds off, and
`matchTrustedIdentity` matches what it left, name by name. -/

namespace Chicoree.Signatures

open List

def splitNames (s : List Char) : List (List Char) :=
  match s.splitOn ',' with
  | [] => []
  | s :: rest => s :: rest.map (·.dropWhile isSpace)

def nameKinds : List String := ["email:", "URI:", "DNS:", "IP Address:", "othername:"]

def stripKind (s : List Char) : List Char :=
  match nameKinds.find? fun kind =>
      (kind.toList.map Char.toLower).isPrefixOf (s.map Char.toLower) with
  | some kind => s.drop kind.length
  | none => s

def shownName (printed : List Char) : List Char := trim (stripKind printed)

def joinNames (names : List (List Char)) : List Char := [',', ' '].intercalate names

/-- The identity of `certificateIdentity`: the names as it shows them. -/
def identityOfNames (subjectAltName : String) : Option String :=
  let san := joinNames
    (((splitNames subjectAltName.toList).map shownName).filter fun s => !s.isEmpty)
  if san = [] then none else some (String.ofList san)

structure SubjectAltName where
  kind : String
  value : String

/-- `X509Certificate.subjectAltName`: the printed names, separated by commas. -/
def subjectAltName (print : SubjectAltName → String) (names : List SubjectAltName) : String :=
  String.ofList (joinNames (names.map fun n => (print n).toList))

/-- How the library prints names: a name that has a comma is printed with an escape for it, and
each begins with its kind. -/
structure Prints (print : SubjectAltName → String) (names : List SubjectAltName) : Prop where
  comma : ∀ n ∈ names, ',' ∉ (print n).toList
  kind : ∀ n ∈ names, ∃ c rest, (print n).toList = c :: rest ∧ isSpace c = false

/-- The pattern matches the name, read as literal characters with `*` for any string. -/
def NameMatches (pattern : List Char) (n : SubjectAltName) : Prop :=
  Glob.Matches (fun _ => true) pattern n.value.toList

/-- A certificate with these names satisfies a trusted identity only as a whole. -/
def MatchesWhole (print : SubjectAltName → String) (names : List SubjectAltName) : Prop :=
  ∀ (identities : List TrustedIdentity) (issuer : Option String) (id : TrustedIdentity),
    matchTrustedIdentity identities issuer (identityOfNames (subjectAltName print names)) =
      some id →
    issuer = some id.issuer ∧ ∃ n ∈ names, NameMatches id.subject.toList n

section names

variable {names : List (List Char)} {s : List Char}

theorem joinNames_cons (s : List Char) (names : List (List Char)) :
    joinNames (s :: names) = [','].intercalate (s :: names.map (' ' :: ·)) := by
  unfold joinNames
  induction names generalizing s with
  | nil => simp [List.intercalate]
  | cons t names ih =>
    have hjoin (sep : List Char) (t : List Char) (l : List (List Char)) :
        sep.intercalate (s :: t :: l) = s ++ sep ++ sep.intercalate (t :: l) := by
      simp [List.intercalate]
    have hhead (l : List (List Char)) :
        [','].intercalate ((' ' :: t) :: l) = ' ' :: [','].intercalate (t :: l) := by
      cases l <;> simp [List.intercalate]
    rw [map_cons, hjoin, hjoin, ih, hhead]
    simp

theorem splitNames_joinNames (hcomma : ∀ s ∈ names, ',' ∉ s)
    (hblank : ∀ s ∈ names, s.dropWhile isSpace = s) (hne : names ≠ []) :
    splitNames (joinNames names) = names := by
  cases names with
  | nil => exact absurd rfl hne
  | cons s names =>
    have hparts : (joinNames (s :: names)).splitOn ',' = s :: names.map (' ' :: ·) := by
      rw [joinNames_cons]
      refine splitOn_intercalate ',' (fun t ht => ?_) (by simp)
      rcases mem_cons.mp ht with rfl | ht
      · exact hcomma t mem_cons_self
      · obtain ⟨u, hu, rfl⟩ := mem_map.mp ht
        have hnone := hcomma u (mem_cons_of_mem _ hu)
        simpa using hnone
    have hrest : (names.map (' ' :: ·)).map (·.dropWhile isSpace) = names := by
      rw [map_map]
      refine (map_congr_left fun t ht => ?_).trans (map_id names)
      show (' ' :: t).dropWhile isSpace = t
      rw [dropWhile_cons_of_pos (by decide)]
      exact hblank t (mem_cons_of_mem _ ht)
    unfold splitNames
    rw [hparts]
    exact congrArg (s :: ·) hrest

theorem mem_trim {c : Char} (h : c ∈ trim s) : c ∈ s := Trimming.mem_trim h

theorem dropWhile_trim (s : List Char) : (trim s).dropWhile isSpace = trim s :=
  Trimming.dropWhile_trim s

theorem comma_shownName (h : ',' ∉ s) : ',' ∉ shownName s := by
  intro hmem
  have hstripped := mem_trim hmem
  unfold stripKind at hstripped
  split at hstripped
  · exact h (mem_of_mem_drop hstripped)
  · exact h hstripped

theorem splitSubjects_eq (subject : String) : splitSubjects subject =
    ((splitNames subject.toList).filter fun s => !s.isEmpty).map String.ofList := by
  unfold splitSubjects splitNames
  cases subject.toList.splitOn ',' with
  | nil | cons s rest => rfl

end names

/-! ## What a certificate satisfies -/

section certificate

variable {print : SubjectAltName → String} {names : List SubjectAltName}

def shownNames (print : SubjectAltName → String) (names : List SubjectAltName) : List (List Char) :=
  (names.map fun n => shownName (print n).toList).filter fun s => !s.isEmpty

theorem mem_shownNames {s : List Char} : s ∈ shownNames print names ↔
    s ≠ [] ∧ ∃ n ∈ names, shownName (print n).toList = s := by
  unfold shownNames
  rw [mem_filter, mem_map, Bool.not_eq_true', ← Bool.not_eq_true, List.isEmpty_iff, and_comm]

theorem identityOfNames_printed (h : Prints print names) :
    identityOfNames (subjectAltName print names) =
      if joinNames (shownNames print names) = [] then none
      else some (String.ofList (joinNames (shownNames print names))) := by
  have hshown : ((splitNames (subjectAltName print names).toList).map shownName).filter
      (fun s => !s.isEmpty) = shownNames print names := by
    unfold subjectAltName
    rw [String.toList_ofList]
    cases names with
    | nil => rfl
    | cons n names =>
      rw [splitNames_joinNames (fun s hs => ?_) (fun s hs => ?_) (by simp), map_map]
      · rfl
      · obtain ⟨m, hm, rfl⟩ := mem_map.mp hs
        exact h.comma m hm
      · obtain ⟨m, hm, rfl⟩ := mem_map.mp hs
        obtain ⟨c, rest, hprint, hc⟩ := h.kind m hm
        rw [hprint]
        exact dropWhile_cons_of_neg (by simp [hc])
  unfold identityOfNames
  rw [hshown]

theorem splitSubjects_shown (h : Prints print names) (hne : shownNames print names ≠ []) :
    splitSubjects (String.ofList (joinNames (shownNames print names))) =
      (shownNames print names).map String.ofList := by
  rw [splitSubjects_eq, String.toList_ofList, splitNames_joinNames (fun s hs => ?_)
    (fun s hs => ?_) hne]
  · congr 1
    exact filter_eq_self.mpr fun s hs => (mem_filter.mp hs).2
  · obtain ⟨-, n, hn, rfl⟩ := mem_shownNames.mp hs
    exact comma_shownName (h.comma n hn)
  · obtain ⟨-, n, -, rfl⟩ := mem_shownNames.mp hs
    exact dropWhile_trim _

theorem joinNames_eq_nil {l : List (List Char)} (hfilled : ∀ s ∈ l, s ≠ []) :
    joinNames l = [] ↔ l = [] := by
  cases l with
  | nil => simp [joinNames, List.intercalate]
  | cons s l =>
    obtain ⟨c, t, hs⟩ := exists_cons_of_ne_nil (hfilled s mem_cons_self)
    subst hs
    cases l <;> simp [joinNames, List.intercalate]

/-- A trusted identity is found exactly where its issuer is the certificate's and its pattern
matches a shown name; the first such one is. -/
theorem matchTrustedIdentity_shown (h : Prints print names) (identities : List TrustedIdentity)
    (issuer : Option String) :
    matchTrustedIdentity identities issuer (identityOfNames (subjectAltName print names)) =
      if present issuer = true then
        identities.find? fun id => decide (some id.issuer = issuer) &&
          (shownNames print names).any fun s => subjectMatches id.subject (String.ofList s)
      else none := by
  have hfilled : ∀ s ∈ shownNames print names, s ≠ [] := fun s hs => (mem_shownNames.mp hs).1
  unfold matchTrustedIdentity
  rw [identityOfNames_printed h]
  by_cases hissuer : present issuer = true
  · rw [if_pos hissuer]
    by_cases hnone : shownNames print names = []
    · have hfind : identities.find? (fun id => decide (some id.issuer = issuer) &&
          ([] : List (List Char)).any fun s => subjectMatches id.subject (String.ofList s)) = none := by
        simp
      rw [if_pos ((joinNames_eq_nil hfilled).mpr hnone), hnone, hfind]
      simp [present]
    · have hjoined : joinNames (shownNames print names) ≠ [] :=
        fun hnil => hnone ((joinNames_eq_nil hfilled).mp hnil)
      have hpresent : present (some (String.ofList (joinNames (shownNames print names)))) = true := by
        refine decide_eq_true fun hempty => hjoined ?_
        rw [← String.toList_ofList (l := joinNames (shownNames print names)), hempty]
        rfl
      rw [if_neg hjoined, hissuer, hpresent, Option.getD_some, splitSubjects_shown h hnone]
      simp only [Bool.not_true, Bool.or_self, Bool.false_eq_true, if_false, any_map]
      rfl
  · rw [if_neg hissuer]
    simp [hissuer]

end certificate

/-- A certificate satisfies trusted identities as a whole exactly where each of its names, as it
is shown, is a pattern that one of its names matches: above all where names are shown as they
are. -/
theorem matches_whole_iff (print : SubjectAltName → String) (names : List SubjectAltName)
    (h : Prints print names) :
    MatchesWhole print names ↔ ∀ n ∈ names, shownName (print n).toList ≠ [] →
      ∃ m ∈ names, NameMatches (shownName (print n).toList) m := by
  constructor
  · intro hwhole n hn hne
    -- trust the shown name itself
    have hmem : shownName (print n).toList ∈ shownNames print names :=
      mem_shownNames.mpr ⟨hne, n, hn, rfl⟩
    generalize shownName (print n).toList = s at hmem
    let id : TrustedIdentity := ⟨"", "", "issuer", String.ofList s⟩
    have hself : subjectMatches (String.ofList s) (String.ofList s) = true := by
      unfold subjectMatches
      rw [Glob.isMatch_iff]
      exact Glob.matches_self (by decide) _
    have hfound : matchTrustedIdentity [id] (some "issuer")
        (identityOfNames (subjectAltName print names)) = some id := by
      rw [matchTrustedIdentity_shown h, if_pos (by decide)]
      refine find?_cons_of_pos ?_
      rw [Bool.and_eq_true]
      exact ⟨decide_eq_true rfl, any_eq_true.mpr ⟨s, hmem, hself⟩⟩
    obtain ⟨-, m, hm, hmatches⟩ := hwhole [id] (some "issuer") id hfound
    rw [show id.subject.toList = s from String.toList_ofList] at hmatches
    exact ⟨m, hm, hmatches⟩
  · intro hshown identities issuer id hfound
    rw [matchTrustedIdentity_shown h] at hfound
    split at hfound
    · have hgood := find?_some hfound
      rw [Bool.and_eq_true, decide_eq_true_eq] at hgood
      obtain ⟨hissuer, hsubject⟩ := hgood
      obtain ⟨s, hs, hmatches⟩ := any_eq_true.mp hsubject
      obtain ⟨hne, n, hn, rfl⟩ := mem_shownNames.mp hs
      obtain ⟨m, hm, hname⟩ := hshown n hn hne
      unfold subjectMatches at hmatches
      rw [Glob.isMatch_iff, String.toList_ofList] at hmatches
      exact ⟨hissuer.symm, m, hm, hmatches.trans hname⟩
    · cases hfound

def printPlain (n : SubjectAltName) : String := n.kind ++ ":" ++ n.value

theorem shownName_plain (kind : String) (hkind : kind ∈ nameKinds) {value : List Char}
    (hvalue : trim value = value) : shownName (kind.toList ++ value) = value := by
  have hstrip : stripKind (kind.toList ++ value) = value := by
    simp only [nameKinds, mem_cons, not_mem_nil, or_false] at hkind
    rcases hkind with rfl | rfl | rfl | rfl | rfl <;>
      (simp [stripKind, nameKinds, List.find?, List.isPrefixOf]; rfl)
  unfold shownName
  rw [hstrip, hvalue]

def workflowNames : List SubjectAltName :=
  [⟨"URI", "https://ci.acme.dev/release.yml@refs/tags/v1"⟩, ⟨"email", "ci@acme.dev"⟩]

theorem matches_whole_workflow : MatchesWhole printPlain workflowNames := by
  have hprints : Prints printPlain workflowNames := by
    refine ⟨by decide, fun n hn => ?_⟩
    rcases mem_cons.mp hn with rfl | hn
    · exact ⟨'U', _, rfl, by decide⟩
    · rw [mem_singleton.mp hn]
      exact ⟨'e', _, rfl, by decide⟩
  refine (matches_whole_iff printPlain workflowNames hprints).mpr fun n hn _ => ⟨n, hn, ?_⟩
  have hshown : shownName (printPlain n).toList = n.value.toList := by
    rcases mem_cons.mp hn with rfl | hn
    · exact shownName_plain "URI:" (by decide) (by decide)
    · rw [mem_singleton.mp hn]
      exact shownName_plain "email:" (by decide) (by decide)
  rw [hshown]
  exact Glob.matches_self rfl _

def paddedNames : List SubjectAltName := [⟨"email", " ci@acme.dev"⟩]

/-- The blank is trimmed, and the certificate passes for that of another identity. -/
theorem padded_name_matches :
    ¬ ∀ (print : SubjectAltName → String) (names : List SubjectAltName), Prints print names →
      MatchesWhole print names := by
  intro hall
  have hprints : Prints printPlain paddedNames := by
    refine ⟨by decide, fun n hn => ?_⟩
    rw [mem_singleton.mp hn]
    exact ⟨'e', _, rfl, by decide⟩
  have hfound : matchTrustedIdentity [⟨"i1", "release", "https://accounts.acme.dev", "ci@acme.dev"⟩]
      (some "https://accounts.acme.dev") (identityOfNames (subjectAltName printPlain paddedNames)) =
      some ⟨"i1", "release", "https://accounts.acme.dev", "ci@acme.dev"⟩ := by
    decide
  obtain ⟨-, n, hn, hmatches⟩ := hall printPlain paddedNames hprints _ _ _ hfound
  rw [mem_singleton.mp hn] at hmatches
  unfold NameMatches at hmatches
  rw [← Glob.isMatch_iff] at hmatches
  exact absurd hmatches (by decide)

end Chicoree.Signatures
