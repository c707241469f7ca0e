import Chicoree.Signatures.Verify

/-! # Binding to the image

What a verified check has to mean: a trusted key, or a certificate of a trusted
identity, signed a content of that layer which names the subject. The check by key
tests the name first; the certificate check that follows a failed one does not, so
an attestation for another image passes when its certificate is accepted. -/

namespace Chicoree.Signatures

open Option Json

variable {Key : Type} {P : Primitives Key}

/-! ## Signed contents -/

/-- A trusted key, or a certificate of a trusted identity, signed the bytes. -/
def Signed (P : Primitives Key) (input : VerifyInput Key) (content : Bytes) : Prop :=
  (∃ k ∈ input.keys, ∃ sig, P.verifyWithKey k.key content sig = true) ∨
    ∃ bundle, KeylessTrusted input.identities (P.keyless bundle content)

/-- The envelope carries an in-toto statement whose subjects include the image. -/
def StatementFor (P : Primitives Key) (subjectDigest : String) (envelope : Option Json)
    (body : Bytes) : Prop :=
  truthy (field? envelope "payload") = true ∧
    (field? envelope "payload").bind P.bufferFrom = some body ∧
    ∃ statement, parseInTotoStatement (P.parseJson body) = some statement ∧
      statementCoversDigest statement subjectDigest = true

def envelopeContent (P : Primitives Key) (envelope : Option Json) (body : Bytes) : Bytes :=
  dssePreAuthEncoding P (textOr P (field? envelope "payloadType") "") body

/-- A content of the layer's blob is signed and names exactly the subject. -/
inductive Bound (P : Primitives Key) (signedBy : Certificate Key → Key → Bool)
    (input : VerifyInput Key) (blob : Bytes) : ArtifactFormat → Prop
  /-- An envelope for the subject under a leaf some trusted key vouches for. -/
  | notation_ {leaf k} : SignedFor P blob input.subjectDigest leaf → k ∈ input.keys →
      VouchedBy P signedBy leaf k.row → Bound P signedBy input blob .notation_
  /-- A signed simple-signing payload for the subject. -/
  | simpleSigning {ss} : parseSimpleSigning (P.parseJson blob) = some ss →
      ss.manifestDigest = some input.subjectDigest → Signed P input blob →
      Bound P signedBy input blob .cosignLegacy
  /-- A bundle over the subject manifest's own bytes. -/
  | message {payload} : truthy ((P.parseJson blob).get? "messageSignature") = true →
      input.subjectPayload = some payload → Signed P input (P.utf8 payload) →
      Bound P signedBy input blob .sigstoreBundle
  /-- A bundle with a signed statement for the subject. -/
  | bundleStatement {body} :
      StatementFor P input.subjectDigest ((P.parseJson blob).get? "dsseEnvelope") body →
      Signed P input (envelopeContent P ((P.parseJson blob).get? "dsseEnvelope") body) →
      Bound P signedBy input blob .sigstoreBundle
  /-- A signed statement for the subject. -/
  | statement {body} : StatementFor P input.subjectDigest (some (P.parseJson blob)) body →
      Signed P input (envelopeContent P (some (P.parseJson blob)) body) →
      Bound P signedBy input blob .dsse

/-! ## When the certificate check is safe -/

def EnvelopeAccepted (P : Primitives Key) (input : VerifyInput Key) (cert : Bytes)
    (bundle : Json) : Prop :=
  (P.certificateIdentity cert).isSome = true ∧
    KeylessTrusted input.identities (verifyKeylessBundle P bundle none)

/-- The condition on a layer: an envelope accepted for its certificate covers the
subject, and a Notation envelope that lists a certificate of a trusted key has a leaf
some trusted key vouches for. -/
def LayerBound (P : Primitives Key) (signedBy : Certificate Key → Key → Bool)
    (input : VerifyInput Key) (layer : LayerDescriptor) (blob : Bytes) :
    ArtifactFormat → Prop
  | .notation_ => layer.isCose = true ∨
      ∀ jws leaf rest, ReadsAs P blob jws →
        Presents P input.now input.subjectDigest jws leaf rest →
        (∃ k ∈ input.keys, ∃ c ∈ leaf :: rest, IsKeyOf P k c) →
        ∃ k ∈ input.keys, VouchedBy P signedBy leaf k.row
  | .sigstoreBundle =>
      truthy ((P.parseJson blob).get? "messageSignature") = false →
      ∀ cert, truthy (bundleCertificate (P.parseJson blob)) = true →
        (bundleCertificate (P.parseJson blob)).bind P.bufferFrom = some cert →
        EnvelopeAccepted P input cert (P.parseJson blob) →
        ∃ body, StatementFor P input.subjectDigest
          ((P.parseJson blob).get? "dsseEnvelope") body
  | .dsse =>
      truthy (some (P.parseJson blob)) = true →
      ∀ m bundle, legacyMaterial layer = some m →
        legacyDsseBundle P m (P.parseJson blob) = some (.ok bundle) →
        EnvelopeAccepted P input (P.utf8 m.certificate) bundle →
        ∃ body, StatementFor P input.subjectDigest (some (P.parseJson blob)) body
  | _ => True

variable {check : SignatureCheck}

variable {keys : List (PreparedKey Key)}

theorem matchSignatures_verified {data : Bytes} {sigs : List Bytes} (hc : check.status ≠ .verified)
    (h : (matchSignatures P check data keys sigs).status = .verified) :
    ∃ k ∈ keys, ∃ sig, P.verifyWithKey k.key data sig = true := by
  induction sigs with
  | nil => exact absurd h hc
  | cons s ss ih =>
    simp only [matchSignatures] at h
    split at h
    · obtain ⟨k, hk, hsig⟩ := matchKeys_verified hc h
      exact ⟨k, hk, s, hsig⟩
    · exact ih h

variable {envelope : Option Json}

theorem decodeStatement_eq {body : Bytes} {statement : Option InTotoStatement}
    (h : decodeStatement P envelope = some (some (body, statement))) :
    truthy (field? envelope "payload") = true ∧
      (field? envelope "payload").bind P.bufferFrom = some body ∧
      parseInTotoStatement (P.parseJson body) = statement := by
  unfold decodeStatement at h
  dsimp only at h
  split at h
  · simp at h
  · rename_i ht
    split at h
    · contradiction
    · rename_i body' hb
      cases h
      exact ⟨by simpa using ht, hb, rfl⟩

variable {c : SignatureCheck}

variable {subjectDigest : String}

theorem verifyDsse_verified (hc : check.status ≠ .verified)
    (h : verifyDsse P check envelope subjectDigest keys = some c)
    (hst : c.status = .verified) :
    ∃ body, StatementFor P subjectDigest envelope body ∧
      ∃ k ∈ keys, ∃ sig, P.verifyWithKey k.key (envelopeContent P envelope body) sig = true := by
  unfold verifyDsse at h
  split at h
  · contradiction
  · cases h
    contradiction
  · cases h
    contradiction
  · rename_i body statement hd
    obtain ⟨ht, hb, hs⟩ := decodeStatement_eq hd
    split at h
    · cases h
      contradiction
    · rename_i hcov
      split at h
      · contradiction
      · cases h
        contradiction
      · cases h
        exact ⟨body, ⟨ht, hb, statement, hs, by simpa using hcov⟩,
          matchSignatures_verified (by exact hc) hst⟩

/-- Public certificates name an identity and the issuer who vouched for it. -/
def NamesSigner (P : Primitives Key) : Prop :=
  ∀ bundle content, (P.keyless bundle content).ok = true →
    present (P.keyless bundle content).identity = true ∧
      present (P.keyless bundle content).issuer = true

variable {bundle : Json}

variable {artifact : Option Bytes}

theorem verifyKeylessBundle_names (hP : NamesSigner P)
    (h : (verifyKeylessBundle P bundle artifact).ok = true) :
    present (verifyKeylessBundle P bundle artifact).identity = true ∧
      present (verifyKeylessBundle P bundle artifact).issuer = true := by
  unfold verifyKeylessBundle at h ⊢
  split at h
  · contradiction
  · exact hP _ _ h

theorem KeylessTrusted.content {identities : List TrustedIdentity}
    (h : KeylessTrusted identities (verifyKeylessBundle P bundle artifact)) :
    ∃ content, bundleContent P bundle artifact = some content ∧
      KeylessTrusted identities (P.keyless bundle content) := by
  unfold verifyKeylessBundle at h
  split at h
  · exact absurd h.1 (by simp)
  · rename_i content hcontent
    exact ⟨content, hcontent, h⟩

theorem bundleContent_none {content : Bytes} (h : bundleContent P bundle none = some content) :
    ∃ body, (field? (bundle.get? "dsseEnvelope") "payload").bind P.bufferFrom = some body ∧
      content = envelopeContent P (bundle.get? "dsseEnvelope") body := by
  unfold bundleContent at h
  dsimp only at h
  split at h
  · contradiction
  · split at h
    · split at h
      · contradiction
      · contradiction
      · rename_i body _ hb
        cases h
        exact ⟨body, hb, rfl⟩
    · contradiction

variable {input : VerifyInput Key}

theorem EnvelopeAccepted.signed {cert : Bytes} (h : EnvelopeAccepted P input cert bundle) :
    ∃ body, (field? (bundle.get? "dsseEnvelope") "payload").bind P.bufferFrom = some body ∧
      Signed P input (envelopeContent P (bundle.get? "dsseEnvelope") body) := by
  obtain ⟨content, hcontent, htrusted⟩ := h.2.content
  obtain ⟨body, hb, rfl⟩ := bundleContent_none hcontent
  exact ⟨body, hb, .inr ⟨bundle, htrusted⟩⟩

theorem textOr_converted (P : Primitives Key) (x : Option Json) :
    textOr P (some ((orElse x (some (.str ""))).getD .null)) "" = textOr P x "" := by
  cases h : isSet x with
  | true => rw [orElse_of_isSet h, some_getD_of_isSet h]
  | false =>
    rw [orElse_of_not_isSet h, textOr, textOr, orElse_of_not_isSet h]
    rfl

variable {m : LegacyMaterial}

theorem legacyDsseBundle_content {envelope : Json}
    (h : legacyDsseBundle P m envelope = some (.ok bundle)) :
    field? (bundle.get? "dsseEnvelope") "payload" =
        some ((orElse (envelope.get? "payload") (some (.str ""))).getD .null) ∧
      ∀ body, envelopeContent P (bundle.get? "dsseEnvelope") body =
        envelopeContent P (some envelope) body := by
  unfold legacyDsseBundle at h
  split at h
  · contradiction
  · simp at h
  · split at h
    · split at h
      · contradiction
      · simp only [Option.some.injEq, Except.ok.injEq] at h
        subst h
        refine ⟨rfl, fun body => ?_⟩
        exact congrArg (fun type => dssePreAuthEncoding P type body)
          (textOr_converted P (envelope.get? "payloadType"))
    · contradiction

variable {signatureB64 : String}

theorem legacyMessageBundle_content {payload : Bytes}
    (h : legacyMessageBundle P m payload signatureB64 = some (.ok bundle))
    (artifact : Option Bytes) : bundleContent P bundle artifact = artifact := by
  unfold legacyMessageBundle at h
  rw [map_eq_some_iff] at h
  obtain ⟨r, -, hr⟩ := h
  cases r with
  | error e => contradiction
  | ok material =>
    cases hr
    rfl

theorem applyLegacy_verified {built : Option (Except String Json)}
    (hP : NamesSigner P) (hc : check.status ≠ .verified)
    (h : applyLegacy P input check m built artifact = some c) :
    c.status = .verified ↔ ∃ bundle, built = some (.ok bundle) ∧
      (P.certificateIdentity (P.utf8 m.certificate)).isSome = true ∧
      KeylessTrusted input.identities (verifyKeylessBundle P bundle artifact) := by
  unfold applyLegacy at h
  split at h
  · contradiction
  · cases h
    rw [applyKeyless_status hc (fun hok => by simp [failedVerification] at hok)]
    simp [KeylessTrusted, failedVerification]
  · cases h
    rw [applyKeyless_status hc (verifyKeylessBundle_names hP)]
    simp

/-! ## One layer -/

def Sound (P : Primitives Key) (signedBy : Certificate Key → Key → Bool)
    (input : VerifyInput Key) (layer : LayerDescriptor) (check : SignatureCheck) : Prop :=
  check.status = .verified →
    ∃ blob, input.blob layer = some blob ∧ Bound P signedBy input blob input.format

variable {signedBy : Certificate Key → Key → Bool} {layer : LayerDescriptor}

theorem invalid_sound (h : check.status ≠ .verified) : Sound P signedBy input layer check :=
  fun hst => absurd hst h

variable {blob : Bytes}

theorem verifyNotationJws_bound_iff
    (h : verifyNotationJws P input.now blob input.subjectDigest input.keys check = some c) :
    (c.status = .verified → Bound P signedBy input blob .notation_) ↔
      ∀ jws leaf rest, ReadsAs P blob jws →
        Presents P input.now input.subjectDigest jws leaf rest →
        (∃ k ∈ input.keys, ∃ c ∈ leaf :: rest, IsKeyOf P k c) →
        ∃ k ∈ input.keys, VouchedBy P signedBy leaf k.row := by
  constructor
  · intro hb jws leaf rest hreads hpresents hlisted
    obtain ⟨check', he⟩ : ∃ check', verifyEnvelope P input.now blob input.subjectDigest check =
        some (.ok (⟨leaf, rest⟩, check')) := verifyEnvelope_ok_iff.mpr ⟨jws, hreads, hpresents⟩
    obtain ⟨k, i, hfound⟩ := exists_findTrusted hlisted
    obtain ⟨hst, -⟩ := trustChain_of_findTrusted (e := ⟨leaf, rest⟩) hfound check'
    simp only [verifyNotationJws, he, Option.some.injEq] at h
    subst h
    cases hb hst with
    | notation_ hleaf hk hv =>
      obtain rfl := hleaf.leaf_unique (verifyEnvelope_ok he)
      exact ⟨_, hk, hv⟩
  · intro hcond hst
    unfold verifyNotationJws at h
    split at h
    · contradiction
    · rename_i he
      cases h
      rw [verifyEnvelope_refused he] at hst
      contradiction
    · rename_i e check' he
      cases h
      obtain ⟨k, i, hfound, -⟩ := trustChain_verified hst
      obtain ⟨hk, c, hc, hkc⟩ := findTrusted_mem hfound
      obtain ⟨jws, hreads, hpresents⟩ := verifyEnvelope_ok_iff.mp ⟨check', he⟩
      obtain ⟨k', hk', hv⟩ := hcond jws e.leaf e.rest hreads hpresents
        ⟨k, hk, c, List.mem_of_getElem? hc, hkc⟩
      exact .notation_ (verifyEnvelope_ok he) hk' hv

theorem checkNotation_sound_iff
    (hf : input.format = .notation_) (h : checkNotation P input layer = some c) :
    Sound P signedBy input layer c ↔ ∀ blob, input.blob layer = some blob →
      LayerBound P signedBy input layer blob .notation_ := by
  unfold checkNotation at h
  split at h
  · rename_i hcose
    cases h
    exact ⟨fun _ _ _ => .inl hcose, fun _ => invalid_sound (by simp [newCheck])⟩
  · rename_i hcose
    split at h
    · rename_i hblob
      cases h
      simp [hblob, Sound]
    · rename_i blob hblob
      simp only [Sound, hblob, hf, Option.some.injEq, exists_eq_left', forall_eq']
      rw [verifyNotationJws_bound_iff h, LayerBound, or_iff_right hcose]

theorem checkSimpleSigning_signed {payload : Bytes}
    (hP : NamesSigner P) (hc : check.status ≠ .verified)
    (h : checkSimpleSigning P input layer payload signatureB64 check = some c)
    (hst : c.status = .verified) : Signed P input payload := by
  unfold checkSimpleSigning at h
  dsimp only at h
  have hkey : (matchKeys P check payload ((P.bufferFrom (.str signatureB64)).getD [])
      input.keys).status = .verified → Signed P input payload := by
    intro hv
    obtain ⟨k, hk, hsig⟩ := matchKeys_verified hc hv
    exact .inl ⟨k, hk, _, hsig⟩
  split at h
  · cases h
    exact hkey hst
  · split at h
    · rename_i hv
      exact hkey hv
    · rename_i hv
      obtain ⟨bundle, hb, -, htrusted⟩ := (applyLegacy_verified hP hv h).mp hst
      obtain ⟨content, hcontent, hk⟩ := htrusted.content
      rw [legacyMessageBundle_content hb] at hcontent
      cases hcontent
      exact .inr ⟨bundle, hk⟩

theorem checkCosignLegacy_sound (hP : NamesSigner P) (hf : input.format = .cosignLegacy)
    (h : checkCosignLegacy P input layer = some c) : Sound P signedBy input layer c := by
  unfold checkCosignLegacy at h
  dsimp only at h
  split at h
  · cases h
    exact invalid_sound (by simp)
  · rename_i payload hblob
    split at h
    · cases h
      exact invalid_sound (by simp)
    · rename_i ss hss
      split at h
      · cases h
        exact invalid_sound (by simp)
      · rename_i hdigest
        split at h
        · cases h
          exact invalid_sound (by simp)
        · split at h
          · cases h
            exact invalid_sound (by simp)
          · intro hst
            have hsigned : Signed P input payload := checkSimpleSigning_signed hP (by simp [newCheck]) h hst
            exact ⟨payload, hblob, hf ▸ .simpleSigning hss (not_not.mp hdigest) hsigned⟩

theorem checkBundleKeys_bound (hc : check.status ≠ .verified)
    (h : checkBundleKeys P input (P.parseJson blob) check = some c)
    (hst : c.status = .verified) : Bound P signedBy input blob .sigstoreBundle := by
  unfold checkBundleKeys at h
  dsimp only at h
  split at h
  · obtain ⟨body, hbody, hkey⟩ := verifyDsse_verified hc h hst
    exact .bundleStatement hbody (.inl hkey)
  · split at h
    · rename_i hmessage
      split at h
      · contradiction
      · split at h
        · cases h
          contradiction
        · split at h
          · cases h
            contradiction
          · rename_i hpayload
            split at h
            · cases h
              contradiction
            · split at h
              · contradiction
              · cases h
                obtain ⟨k, hk, hsig⟩ := matchKeys_verified (by exact hc) hst
                obtain ⟨payload, hp⟩ : ∃ payload, input.subjectPayload = some payload := by
                  cases hs : input.subjectPayload with
                  | none => simp [hs, present] at hpayload
                  | some payload => exact ⟨payload, rfl⟩
                rw [hp] at hsig
                exact .message hmessage hp (.inl ⟨k, hk, _, hsig⟩)
    · cases h
      contradiction

theorem bundleVerification_message (hm : truthy (bundle.get? "messageSignature") = true)
    (h : KeylessTrusted input.identities (bundleVerification P input bundle)) :
    ∃ payload, input.subjectPayload = some payload ∧ Signed P input (P.utf8 payload) := by
  unfold bundleVerification at h
  cases hp : input.subjectPayload with
  | none => simp [hm, hp, present, KeylessTrusted, failedVerification] at h
  | some payload =>
    simp only [hm, hp, Bool.true_and, if_true, map_some] at h
    split at h
    · simp [KeylessTrusted, failedVerification] at h
    · obtain ⟨content, hcontent, hk⟩ := h.content
      have hset := isSet_of_truthy hm
      simp only [bundleContent, hset, if_true, Option.some.injEq] at hcontent
      subst hcontent
      exact ⟨payload, rfl, .inr ⟨bundle, hk⟩⟩

theorem bundleVerification_envelope (hm : truthy (bundle.get? "messageSignature") = false) :
    bundleVerification P input bundle = verifyKeylessBundle P bundle none := by
  simp [bundleVerification, hm]

theorem bundleVerification_names (hP : NamesSigner P) (h : (bundleVerification P input bundle).ok = true) :
    present (bundleVerification P input bundle).identity = true ∧
      present (bundleVerification P input bundle).issuer = true := by
  unfold bundleVerification at h ⊢
  dsimp only at h ⊢
  split at h
  · simp [failedVerification] at h
  · rename_i hn
    rw [if_neg hn]
    exact verifyKeylessBundle_names hP h

theorem checkBundleCertificate_verified (hP : NamesSigner P)
    (h : checkBundleCertificate P input bundle check = some c) :
    c.status = .verified ↔ check.status = .verified ∨
      (check.status ≠ .verified ∧ ∃ cert, truthy (bundleCertificate bundle) = true ∧
        (bundleCertificate bundle).bind P.bufferFrom = some cert ∧
        (P.certificateIdentity cert).isSome = true ∧
        KeylessTrusted input.identities (bundleVerification P input bundle)) := by
  unfold checkBundleCertificate at h
  dsimp only at h
  split at h
  · rename_i hcert
    split at h
    · contradiction
    · rename_i cert hb
      cases h
      rw [applyKeyless_status hcert.2 (bundleVerification_names hP)]
      simp [hcert.1, hcert.2, hb]
  · rename_i hcert
    cases h
    by_cases hst : check.status = .verified
    · simp [hst]
    · have hno : ¬ truthy (bundleCertificate bundle) = true := fun ht => hcert ⟨ht, hst⟩
      simp [hst, hno]

theorem bundleCertificate_isNone (h : truthy (some bundle) = false) :
    bundleCertificate bundle = none := by
  cases bundle with
  | obj fields => simp [truthy] at h
  | _ => rfl

variable {keyed : SignatureCheck}

theorem bundleCheck_bound_iff (hP : NamesSigner P) (hc : check.status ≠ .verified)
    (hkeyed : checkBundleKeys P input (P.parseJson blob) check = some keyed)
    (h : checkBundleCertificate P input (P.parseJson blob) (checkHint input keyed) = some c) :
    (c.status = .verified → Bound P signedBy input blob .sigstoreBundle) ↔
      LayerBound P signedBy input layer blob .sigstoreBundle := by
  rw [checkBundleCertificate_verified hP h, checkHint_verified]
  constructor
  · intro hb hm cert ht hcert haccepted
    have hbound : Bound P signedBy input blob .sigstoreBundle := by
      by_cases hst : keyed.status = .verified
      · exact hb (.inl hst)
      · refine hb (.inr ⟨mt checkHint_verified.mp hst, cert, ht, hcert, haccepted.1, ?_⟩)
        rw [bundleVerification_envelope hm]
        exact haccepted.2
    cases hbound with
    | message hmessage => rw [hm] at hmessage; contradiction
    | bundleStatement hbody => exact ⟨_, hbody⟩
  · intro hcond hst
    rcases hst with hst | ⟨-, cert, ht, hcert, hid, htrusted⟩
    · exact checkBundleKeys_bound hc hkeyed hst
    · cases hm : truthy ((P.parseJson blob).get? "messageSignature") with
      | true =>
        obtain ⟨payload, hp, hsigned⟩ := bundleVerification_message hm htrusted
        exact .message hm hp hsigned
      | false =>
        rw [bundleVerification_envelope hm] at htrusted
        have haccepted : EnvelopeAccepted P input cert (P.parseJson blob) := ⟨hid, htrusted⟩
        obtain ⟨body, hbody⟩ := hcond hm cert ht hcert haccepted
        obtain ⟨body', hb', hsigned⟩ := haccepted.signed
        have heq : body = body' := Option.some.inj (hbody.2.1.symm.trans hb')
        exact .bundleStatement hbody (heq ▸ hsigned)

theorem checkSigstoreBundle_sound_iff (hP : NamesSigner P) (hf : input.format = .sigstoreBundle)
    (h : checkSigstoreBundle P input layer = some c) :
    Sound P signedBy input layer c ↔ ∀ blob, input.blob layer = some blob →
      LayerBound P signedBy input layer blob .sigstoreBundle := by
  unfold checkSigstoreBundle at h
  dsimp only at h
  split at h
  · rename_i hblob
    cases h
    simp [hblob, Sound]
  · rename_i blob hblob
    simp only [Sound, hblob, hf, Option.some.injEq, exists_eq_left', forall_eq']
    split at h
    · rename_i hfalsy
      cases h
      have hnone := bundleCertificate_isNone (by simpa using hfalsy)
      simp [LayerBound, hnone, truthy]
    · rw [bind_eq_some_iff] at h
      obtain ⟨keyed, hkeyed, h⟩ := h
      refine bundleCheck_bound_iff hP ?_ hkeyed h
      split <;> simp [newCheck]

theorem StatementFor.converted {envelope : Json} {body : Bytes}
    (hb : legacyDsseBundle P m envelope = some (.ok bundle))
    (h : StatementFor P subjectDigest (some envelope) body) :
    (field? (bundle.get? "dsseEnvelope") "payload").bind P.bufferFrom = some body := by
  have hset : isSet (envelope.get? "payload") = true := isSet_of_truthy h.1
  have hpayload := (legacyDsseBundle_content hb).1
  rw [orElse_of_isSet hset, some_getD_of_isSet hset] at hpayload
  rw [hpayload]
  exact h.2.1

theorem envelopeCheck_bound_iff (hP : NamesSigner P) (hc : check.status ≠ .verified)
    (hkeyed : verifyDsse P check (some (P.parseJson blob)) input.subjectDigest input.keys =
      some keyed)
    (h : checkEnvelopeCertificate P input layer (P.parseJson blob) keyed = some c) :
    (c.status = .verified → Bound P signedBy input blob .dsse) ↔
      ∀ m bundle, legacyMaterial layer = some m →
        legacyDsseBundle P m (P.parseJson blob) = some (.ok bundle) →
        EnvelopeAccepted P input (P.utf8 m.certificate) bundle →
        ∃ body, StatementFor P input.subjectDigest (some (P.parseJson blob)) body := by
  have hkey : keyed.status = .verified → Bound P signedBy input blob .dsse := by
    intro hst
    obtain ⟨body, hbody, hsig⟩ := verifyDsse_verified hc hkeyed hst
    exact .statement hbody (.inl hsig)
  unfold checkEnvelopeCertificate at h
  split at h
  · rename_i hm
    cases h
    simpa [hm] using hkey
  · rename_i m hm
    split at h
    · rename_i hst
      cases h
      refine ⟨fun _ _ _ _ _ _ => ?_, fun _ _ => hkey hst⟩
      cases hkey hst with
      | statement hbody => exact ⟨_, hbody⟩
    · rename_i hst
      rw [applyLegacy_verified hP hst h]
      constructor
      · intro hb m' bundle hm' hbundle haccepted
        rw [hm] at hm'
        cases hm'
        cases hb ⟨bundle, hbundle, haccepted.1, haccepted.2⟩ with
        | statement hbody => exact ⟨_, hbody⟩
      · rintro hcond ⟨bundle, hbundle, hid, htrusted⟩
        have haccepted : EnvelopeAccepted P input (P.utf8 m.certificate) bundle := ⟨hid, htrusted⟩
        obtain ⟨body, hbody⟩ := hcond m bundle hm hbundle haccepted
        obtain ⟨body', hb', hsigned⟩ := haccepted.signed
        have heq : body = body' := Option.some.inj ((hbody.converted hbundle).symm.trans hb')
        rw [(legacyDsseBundle_content hbundle).2] at hsigned
        exact .statement hbody (heq ▸ hsigned)

theorem checkDsse_sound_iff (hP : NamesSigner P) (hf : input.format = .dsse)
    (h : checkDsse P input layer = some c) :
    Sound P signedBy input layer c ↔ ∀ blob, input.blob layer = some blob →
      LayerBound P signedBy input layer blob .dsse := by
  unfold checkDsse at h
  dsimp only at h
  split at h
  · rename_i hblob
    cases h
    simp [hblob, Sound]
  · rename_i blob hblob
    simp only [Sound, hblob, hf, Option.some.injEq, exists_eq_left', forall_eq']
    split at h
    · rename_i hfalsy
      cases h
      have ht : truthy (some (P.parseJson blob)) = false := by simpa using hfalsy
      simp [LayerBound, ht]
    · rename_i htruthy
      rw [Bool.not_eq_true', Bool.not_eq_false] at htruthy
      rw [bind_eq_some_iff] at h
      obtain ⟨keyed, hkeyed, h⟩ := h
      rw [envelopeCheck_bound_iff hP (by simp [newCheck]) hkeyed h]
      simp [LayerBound, htruthy]

theorem checkLayer_sound_iff {check : LayerDescriptor → Option SignatureCheck} (hP : NamesSigner P)
    (hcheck : checkLayer P input input.format = some check) (h : check layer = some c) :
    Sound P signedBy input layer c ↔ ∀ blob, input.blob layer = some blob →
      LayerBound P signedBy input layer blob input.format := by
  cases hf : input.format with
  | notation_ =>
    rw [hf] at hcheck
    cases hcheck
    exact checkNotation_sound_iff hf h
  | cosignLegacy =>
    rw [hf] at hcheck
    cases hcheck
    exact ⟨fun _ _ _ => trivial, fun _ => checkCosignLegacy_sound hP hf h⟩
  | sigstoreBundle =>
    rw [hf] at hcheck
    cases hcheck
    exact checkSigstoreBundle_sound_iff hP hf h
  | dsse =>
    rw [hf] at hcheck
    cases hcheck
    exact checkDsse_sound_iff hP hf h
  | inToto | raw | unknown => simp [hf, checkLayer] at hcheck

theorem forall₂_of_mapM {α β : Type} {f : α → Option β} {xs : List α} {ys : List β}
    (h : xs.mapM f = some ys) : List.Forall₂ (fun x y => f x = some y) xs ys := by
  induction xs generalizing ys with
  | nil =>
    cases h
    exact .nil
  | cons x xs ih =>
    rw [List.mapM_cons] at h
    obtain ⟨y, hy, h⟩ := bind_eq_some_iff.mp h
    obtain ⟨ys', hys, h⟩ := bind_eq_some_iff.mp h
    cases h
    exact .cons hy (ih hys)

theorem forall₂_iff_forall_mem {α β : Type} {R S : α → β → Prop} {C : α → Prop}
    {xs : List α} {ys : List β} (h : List.Forall₂ S xs ys)
    (hRC : ∀ x y, S x y → (R x y ↔ C x)) : List.Forall₂ R xs ys ↔ ∀ x ∈ xs, C x := by
  induction h with
  | nil => simp
  | cons hS _ ih => rw [List.forall₂_cons, List.forall_mem_cons, hRC _ _ hS, ih]

/-- **Binding of signatures.** Every verified check that is returned stands for a
signed content of its layer that names the subject, exactly when the condition holds
of every layer. -/
theorem signatures_bound_iff (P : Primitives Key) (signedBy : Certificate Key → Key → Bool)
    (input : VerifyInput Key) (hP : NamesSigner P) (result : SignatureResult)
    (h : checkArtifactSignatures P input = some (some result)) :
    List.Forall₂ (Sound P signedBy input) input.signedLayers result.checks ↔
      ∀ layer ∈ input.signedLayers, ∀ blob, input.blob layer = some blob →
        LayerBound P signedBy input layer blob input.format := by
  unfold checkArtifactSignatures at h
  split at h
  · simp at h
  · rename_i check hcheck
    obtain ⟨checks, hchecks, hresult⟩ := map_eq_some_iff.mp h
    cases hresult
    exact forall₂_iff_forall_mem (forall₂_of_mapM hchecks)
      fun layer c hc => checkLayer_sound_iff hP hcheck hc

inductive NamesSubject (P : Primitives Key) (input : VerifyInput Key) : Bytes → Prop
  | simpleSigning {content ss} : parseSimpleSigning (P.parseJson content) = some ss →
      ss.manifestDigest = some input.subjectDigest → NamesSubject P input content
  | statement {type body statement} :
      parseInTotoStatement (P.parseJson body) = some statement →
      statementCoversDigest statement input.subjectDigest = true →
      NamesSubject P input (dssePreAuthEncoding P type body)
  | subject {payload} : input.subjectPayload = some payload →
      NamesSubject P input (P.utf8 payload)

/-! ## An attestation for another image -/

def otherDigest : String :=
  "sha256:ca978112ca1bbdcafac231b39a23dc4da786eff8147c4e72b9807785afee48bb"

/-- A provenance statement for `imageDigest`, as text and as value. -/
def provenanceText : String :=
  "\x7b\"_type\":\"https://in-toto.io/Statement/v1\"," ++
    "\"predicateType\":\"https://slsa.dev/provenance/v1\"," ++
    "\"subject\":[\x7b\"digest\":\x7b\"sha256\":\"" ++
    "e3b0c44298fc1c149afbf4c8996fb92427ae41e4649b934ca495991b7852b855\"\x7d\x7d]\x7d"

def provenance : Json := .obj [
  ("_type", .str "https://in-toto.io/Statement/v1"),
  ("predicateType", .str "https://slsa.dev/provenance/v1"),
  ("subject", .arr [.obj [("digest", .obj [("sha256",
    .str "e3b0c44298fc1c149afbf4c8996fb92427ae41e4649b934ca495991b7852b855")])]])]

def provenanceB64 : String :=
  "eyJfdHlwZSI6Imh0dHBzOi8vaW4tdG90by5pby9TdGF0ZW1lbnQvdjEiLCJwcmVkaWNhdGVUeXBlIjoi" ++
    "aHR0cHM6Ly9zbHNhLmRldi9wcm92ZW5hbmNlL3YxIiwic3ViamVjdCI6W3siZGlnZXN0Ijp7InNoYTI1" ++
    "NiI6ImUzYjBjNDQyOThmYzFjMTQ5YWZiZjRjODk5NmZiOTI0MjdhZTQxZTQ2NDliOTM0Y2E0OTU5OTFi" ++
    "Nzg1MmI4NTUifX1dfQ=="

def inTotoType : String := "application/vnd.in-toto+json"

def provenanceBundle : Json := .obj [
  ("verificationMaterial", .obj [("certificate", .obj [("rawBytes", .str "AQ==")])]),
  ("dsseEnvelope", .obj [("payload", .str provenanceB64), ("payloadType", .str inTotoType),
    ("signatures", .arr [.obj [("sig", .str "Bwc=")]])])]

def textBytes (s : String) : Bytes := s.toUTF8.data.toList

def provenanceBlob : Bytes := textBytes
  ("\x7b\"verificationMaterial\":\x7b\"certificate\":\x7b\"rawBytes\":\"AQ==\"\x7d\x7d," ++
    "\"dsseEnvelope\":\x7b\"payload\":\"" ++ provenanceB64 ++ "\",\"payloadType\":\"" ++
    inTotoType ++ "\",\"signatures\":[\x7b\"sig\":\"Bwc=\"\x7d]\x7d\x7d")

def provenanceContent : Bytes :=
  textBytes ("DSSEv1 " ++ toString (textBytes inTotoType).length ++ " " ++ inTotoType ++ " " ++
    toString (textBytes provenanceText).length ++ " ") ++ textBytes provenanceText

/-- No key signs anything; the build's certificate has signed the provenance alone. -/
def attested : Primitives String where
  parseText _ := none
  parseBytes bytes :=
    if bytes = provenanceBlob then some provenanceBundle
    else if bytes = textBytes provenanceText then some provenance
    else none
  b64urlToUtf8 _ := none
  bufferFrom
    | .str s =>
      if s = "AQ==" then some [1] else if s = "Bwc=" then some [7, 7]
      else if s = provenanceB64 then some (textBytes provenanceText) else some []
    | _ => none
  bufferFromHex _ := none
  base64 _ := ""
  hex _ := ""
  toText _ := ""
  utf8 := textBytes
  ascii := textBytes
  sha256 _ := []
  parseDate _ := none
  createPublicKey _ := none
  spkiFingerprint key := key
  verifyWithKey _ _ _ := false
  verifyJws _ _ _ _ := false
  x509 _ := .error "not a certificate"
  certificateIdentity bytes :=
    if bytes = [1] then some ⟨some "ci@acme", some "https://accounts.acme", none⟩ else none
  keyless _ content :=
    if content = provenanceContent then
      ⟨true, some "ci@acme", some "https://accounts.acme", none, none⟩
    else ⟨false, none, none, none, some "signature does not verify"⟩

/-- The attestation pushed with a subject, where builds of `ci@acme` are trusted. -/
def attestedInput (subjectDigest : String) : VerifyInput String where
  now := 0
  candidates := ["acme/app"]
  subjectDigest := subjectDigest
  subjectPayload := some "\x7b\"schemaVersion\":2\x7d"
  format := .sigstoreBundle
  layers := [{ digest := some "sha256:01" }]
  keys := []
  identities := [⟨"i1", "builds", "https://accounts.acme", "ci@acme"⟩]
  load _ := some provenanceBlob

theorem attested_namesSigner : NamesSigner attested := by
  intro bundle content h
  simp only [attested] at h ⊢
  split at h
  · rename_i hc
    rw [if_pos hc]
    exact ⟨rfl, rfl⟩
  · contradiction

theorem attested_signed {content : Bytes}
    (h : Signed attested (attestedInput subjectDigest) content) :
    content = provenanceContent := by
  rcases h with ⟨k, hk, -⟩ | ⟨bundle, hok, -⟩
  · simp [attestedInput] at hk
  · simp only [attested] at hok
    split at hok
    · assumption
    · contradiction

set_option maxRecDepth 20000 in
theorem attested_statement {body : Bytes} {statement : InTotoStatement}
    (h : parseInTotoStatement (attested.parseJson body) = some statement) :
    statementCoversDigest statement otherDigest = false := by
  simp only [Decoders.parseJson, attested] at h
  split at h
  · contradiction
  · split at h
    · cases h
      rfl
    · contradiction

set_option maxRecDepth 20000 in
/-- The provenance of one image, pushed with another as its subject, verifies it,
though nothing that is signed names that image. -/
theorem foreign_attestation_verified :
    ∃ result check, checkArtifactSignatures attested (attestedInput otherDigest) =
        some (some result) ∧ result.checks = [check] ∧ check.status = .verified ∧
      check.identityId = some "i1" ∧
      ¬ ∃ content, Signed attested (attestedInput otherDigest) content ∧
        NamesSubject attested (attestedInput otherDigest) content := by
  refine ⟨_, _, rfl, rfl, rfl, rfl, ?_⟩
  rintro ⟨content, hsigned, hnames⟩
  obtain rfl := attested_signed hsigned
  generalize hc : provenanceContent = content at hnames
  cases hnames with
  | simpleSigning hss hd =>
    subst hc
    contradiction
  | statement hs hcov =>
    have hno := attested_statement hs
    rw [show (attestedInput otherDigest).subjectDigest = otherDigest from rfl, hno] at hcov
    contradiction
  | subject hp =>
    cases hp
    exact absurd hc (by decide)

set_option maxRecDepth 20000 in
theorem signatures_bound_iff_provenance :
    ∃ result, checkArtifactSignatures attested (attestedInput imageDigest) =
        some (some result) ∧ result.status = .verified ∧
      List.Forall₂ (Sound attested selfSigned (attestedInput imageDigest))
        (attestedInput imageDigest).signedLayers result.checks := by
  refine ⟨_, rfl, rfl, ?_⟩
  rw [signatures_bound_iff attested selfSigned (attestedInput imageDigest)
    attested_namesSigner _ rfl]
  intro layer _ blob hblob
  have heq : blob = provenanceBlob := by
    simp only [VerifyInput.blob, attestedInput] at hblob
    split at hblob
    · cases hd : layer.digest <;> simp_all
    · contradiction
  subst heq
  intro _ cert _ _ _
  exact ⟨textBytes provenanceText, rfl, rfl, _, rfl, rfl⟩

end Chicoree.Signatures
