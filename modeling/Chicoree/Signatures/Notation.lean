import Mathlib.Logic.Relation
import Chicoree.Signatures.Keys

/-! # Notation envelopes

`verifyNotationJws` checks the envelope's payload against the subject and its
signature against the leaf certificate, and trusts it when the key of any
certificate in the envelope is in the trust store. Nothing ties that certificate to
the leaf.

An accepted envelope always names the subject and carries a signature of its leaf
certificate. Whether the trust-store key vouches for that leaf is settled by the
certificates the envelope lists and the order of the store: it does unless the first
store key among them is a stranger's, whom no chain of issuers connects with the
leaf. -/

namespace Chicoree.Signatures

variable {Key : Type} (P : Primitives Key)

/-! ## The verifier -/

/-- The common name of a distinguished name, one attribute a line. -/
def cn (dn : String) : String :=
  let lines := dn.toList.splitOn '\n'
  match lines.find? fun l => "CN=".toList.isPrefixOf l && decide (l.length > 3) with
  | some l => String.ofList (l.drop 3)
  | none => String.ofList (lines.headD [])

/-- The start of a digest that a message shows. -/
def sliceDigest (d : String) : String :=
  String.ofList (d.toList.take 19)

/-- The bytes of a base64url text; `none` where the decoding throws. -/
def b64url (s : String) : Option Bytes :=
  P.bufferFrom (.str (String.ofList (s.toList.map fun c =>
    if c = '-' then '+' else if c = '_' then '/' else c)))

/-- The certificates of `x5c` in order, or the error of the first that does not parse. -/
def parseChain : List String → Except String (List (Certificate Key))
  | [] => .ok []
  | c :: cs => do
    let cert ← P.x509 ((P.bufferFrom (.str c)).getD [])
    let rest ← parseChain cs
    return cert :: rest

/-- Why the payload is not for the subject; `none` where the reading throws. -/
def targetRefusal (jws : NotationJws) (subjectDigest : String) : Option (Option String) :=
  let digest := Json.field? jws.target "digest"
  if present jws.header.cty &&
      decide (jws.header.cty ≠ some "application/vnd.cncf.notary.payload.v1+json") then
    some (some ("unexpected payload type " ++ jws.header.cty.getD ""))
  else if !Json.truthy digest then
    some (some "payload names no target artifact")
  else
    match digest with
    | some (.str d) =>
      if d = subjectDigest then some none
      else some (some ("payload names " ++ sliceDigest d ++ ", not this image"))
    -- a list is cut and shown, another value has no `slice` and throws
    | some (.arr xs) =>
      some (some ("payload names " ++ P.toText (.arr (xs.take 19)) ++ ", not this image"))
    | _ => none

/-- What the signature of an envelope is over. -/
def signingInput (jws : NotationJws) : Bytes :=
  P.ascii (jws.protectedB64 ++ "." ++ jws.payloadB64)

/-- Why the signature does not count: its algorithm, the signature itself under the
leaf's key, or its expiry. -/
def signatureRefusal (now : Int) (jws : NotationJws) (leaf : Certificate Key) : Option String :=
  match Alg.ofName (jws.header.alg.getD "") with
  | none => some ("unsupported algorithm " ++ jws.header.alg.getD "(none)")
  | some alg =>
    if P.verifyJws alg leaf.publicKey (signingInput P jws)
        ((b64url P jws.signatureB64).getD []) then
      let expiry := if present jws.header.expiry then
        jws.header.expiry.bind P.parseDate else none
      if expiry.any fun t => decide (t < now) then
        some ("signature expired " ++ jws.header.expiry.getD "")
      else none
    else some "signature does not verify with the signing certificate"

/-- The certificates of an envelope, leaf first. -/
structure Chain (Key : Type) where
  leaf : Certificate Key
  rest : List (Certificate Key)

/-- All certificates of the envelope, as `x5c` lists them. -/
def Chain.certificates (c : Chain Key) : List (Certificate Key) :=
  c.leaf :: c.rest

/-- The part of `verifyNotationJws` between parsing and the trust decision: the
check of a refused envelope, or the chain of one whose payload names the subject
and whose signature verifies under the leaf. `none` where it throws. -/
def verifyJwsEnvelope (now : Int) (jws : NotationJws) (subjectDigest : String)
    (check : SignatureCheck) :
    Option (Except SignatureCheck (Chain Key × SignatureCheck)) :=
  let check := { check with
    signedAt := jws.header.authenticSigningTime.orElse fun _ => jws.header.signingTime
    signedDigest := Json.str? (Json.field? jws.target "digest") }
  match targetRefusal P jws subjectDigest with
  | none => none
  | some (some reason) => some (.error (check.invalid reason))
  | some none =>
    match parseChain P jws.x5c with
    | .error e => some (.error (check.invalid ("certificate chain does not parse: " ++ e)))
    | .ok [] => some (.error (check.invalid "envelope carries no certificate chain (x5c)"))
    | .ok (leaf :: rest) =>
      let check := { check with identity := some (cn leaf.subject)
                                issuer := some (cn leaf.issuer) }
      match signatureRefusal P now jws leaf with
      | some reason => some (.error (check.invalid reason))
      | none => some (.ok (⟨leaf, rest⟩, check))

/-- The part of `verifyNotationJws` before the trust decision, from the blob on. -/
def verifyEnvelope (now : Int) (blob : Bytes) (subjectDigest : String)
    (check : SignatureCheck) :
    Option (Except SignatureCheck (Chain Key × SignatureCheck)) :=
  match P.parseBytes blob with
  | none => some (.error (check.invalid "envelope is not JSON"))
  | some json =>
    match parseNotationJws P.toDecoders json with
    | none => none
    | some none => some (.error (check.invalid "envelope is not a Notation JWS"))
    | some (some jws) => verifyJwsEnvelope P now jws subjectDigest check

/-- The first key of the store that a certificate has, and where `indexOf` finds it. -/
def findTrusted (chain : List (Certificate Key)) :
    List (PreparedKey Key) → Option (PreparedKey Key × Nat)
  | [] => none
  | k :: keys =>
    match chain.findIdx? fun c => decide (P.spkiFingerprint c.publicKey = k.row.fingerprint) with
    | some at_ => some (k, at_)
    | none => findTrusted chain keys

/-- The trust decision: any certificate of the chain whose public key is in the
store. -/
def trustChain (e : Chain Key) (keys : List (PreparedKey Key))
    (check : SignatureCheck) : SignatureCheck :=
  match findTrusted P e.certificates keys with
  | some (k, at_) =>
    { check.verifiedBy k.row with
      reason := if at_ = 0 then none
        else some ("issued by trusted certificate \"" ++ k.row.name ++ "\"") }
  | none =>
    { check with
      status := .untrusted
      keyFingerprint := some (P.spkiFingerprint e.leaf.publicKey)
      reason := some ("signing certificate " ++ check.identity.getD "" ++
        " is not trusted here — add it (or its issuer) under Settings → Policies") }

/-- Verify a JWS envelope: the signature with the leaf certificate, the payload
against the subject, trust against the store. -/
def verifyNotationJws (now : Int) (blob : Bytes) (subjectDigest : String)
    (keys : List (PreparedKey Key)) (check : SignatureCheck) : Option SignatureCheck :=
  match verifyEnvelope P now blob subjectDigest check with
  | none => none
  | some (.error refused) => some refused
  | some (.ok (e, check)) => some (trustChain P e keys check)

/-! ## What a trusted envelope proves -/

open List

variable {P}

/-- The envelope `blob` names the digest, and the leaf's key signed it. -/
def SignedFor (P : Primitives Key) (blob : Bytes) (digest : String)
    (leaf : Certificate Key) : Prop :=
  ∃ json jws rest alg, P.parseBytes blob = some json ∧
    parseNotationJws P.toDecoders json = some (some jws) ∧
    Json.str? (Json.field? jws.target "digest") = some digest ∧
    parseChain P jws.x5c = .ok (leaf :: rest) ∧
    P.verifyJws alg leaf.publicKey (signingInput P jws) ((b64url P jws.signatureB64).getD []) = true

/-- `a` is signed by the key of `b`, which is what issuing means. `signedBy` says
which key signed which certificate. -/
def IssuedBy (signedBy : Certificate Key → Key → Bool) (a b : Certificate Key) : Prop :=
  signedBy a b.publicKey = true

/-- From the certificate a chain of issuers, possibly none, leads to one whose
public key is the stored key (keys are told by the fingerprint of their SPKI). -/
def VouchedBy (P : Primitives Key) (signedBy : Certificate Key → Key → Bool)
    (leaf : Certificate Key) (k : VerificationKey) : Prop :=
  ∃ c, Relation.ReflTransGen (IssuedBy signedBy) leaf c ∧
    P.spkiFingerprint c.publicKey = k.fingerprint

/-- The envelope a blob holds. -/
def ReadsAs (P : Primitives Key) (blob : Bytes) (jws : NotationJws) : Prop :=
  ∃ json, P.parseBytes blob = some json ∧
    parseNotationJws P.toDecoders json = some (some jws)

/-- An envelope with nothing against it but the question of trust: its payload is of
the right type and names the digest, its certificates parse, and the leaf's key signed
it, under an algorithm of the table and not for a time that has passed. -/
structure Presents (P : Primitives Key) (now : Int) (digest : String) (jws : NotationJws)
    (leaf : Certificate Key) (rest : List (Certificate Key)) : Prop where
  typed : present jws.header.cty = true →
    jws.header.cty = some "application/vnd.cncf.notary.payload.v1+json"
  named : Json.field? jws.target "digest" = some (.str digest)
  nonempty : digest ≠ ""
  listed : parseChain P jws.x5c = .ok (leaf :: rest)
  signed : ∃ alg, Alg.ofName (jws.header.alg.getD "") = some alg ∧
    P.verifyJws alg leaf.publicKey (signingInput P jws) ((b64url P jws.signatureB64).getD []) = true
  /-- An expiry that is no date does not count. -/
  timely : ∀ expiry t, jws.header.expiry = some expiry → expiry ≠ "" →
    P.parseDate expiry = some t → now ≤ t

/-! ## The verifier's answers -/

variable {now : Int} {blob : Bytes} {digest : String} {jws : NotationJws}
  {leaf : Certificate Key} {e : Chain Key} {keys : List (PreparedKey Key)}
  {k : PreparedKey Key} {i : Nat} {check check' refused : SignatureCheck}
  {chain : List (Certificate Key)}

theorem verifyJwsEnvelope_refused
    (h : verifyJwsEnvelope P now jws digest check = some (.error refused)) :
    refused.status = .invalid := by
  unfold verifyJwsEnvelope at h
  split at h
  · contradiction
  · cases h
    rfl
  · split at h
    · cases h
      rfl
    · cases h
      rfl
    · split at h <;> cases h
      rfl

theorem verifyEnvelope_refused
    (h : verifyEnvelope P now blob digest check = some (.error refused)) :
    refused.status = .invalid := by
  unfold verifyEnvelope at h
  split at h
  · cases h
    rfl
  · split at h
    · contradiction
    · cases h
      rfl
    · exact verifyJwsEnvelope_refused h

theorem targetRefusal_none_iff : targetRefusal P jws digest = some none ↔
    (present jws.header.cty = true →
      jws.header.cty = some "application/vnd.cncf.notary.payload.v1+json") ∧
    Json.field? jws.target "digest" = some (.str digest) ∧ digest ≠ "" := by
  unfold targetRefusal
  dsimp only
  split
  · rename_i htype
    simp only [Bool.and_eq_true, decide_eq_true_eq] at htype
    simp [htype]
  · rename_i htype
    simp only [Bool.and_eq_true, decide_eq_true_eq, not_and, not_not] at htype
    split
    · rename_i htruthy
      constructor
      · simp
      · rintro ⟨-, hd, hne⟩
        simp [hd, Json.truthy, hne] at htruthy
    · rename_i htruthy
      split
      · rename_i d hd
        by_cases heq : d = digest
        · subst heq
          have hne : d ≠ "" := by
            rintro rfl
            simp [hd, Json.truthy] at htruthy
          simpa [hd, hne] using htype
        · simp [hd, heq]
      · rename_i xs hd
        simp [hd]
      · rename_i hstr harr
        constructor
        · simp
        · rintro ⟨-, hd, -⟩
          exact absurd hd (hstr digest)

theorem signatureRefusal_none_iff : signatureRefusal P now jws leaf = none ↔
    (∃ alg, Alg.ofName (jws.header.alg.getD "") = some alg ∧
      P.verifyJws alg leaf.publicKey (signingInput P jws)
        ((b64url P jws.signatureB64).getD []) = true) ∧
    ∀ expiry t, jws.header.expiry = some expiry → expiry ≠ "" →
      P.parseDate expiry = some t → now ≤ t := by
  unfold signatureRefusal
  cases halg : Alg.ofName (jws.header.alg.getD "") with
  | none => simp
  | some alg =>
    by_cases hsig : P.verifyJws alg leaf.publicKey (signingInput P jws)
        ((b64url P jws.signatureB64).getD []) = true
    · cases hexp : jws.header.expiry with
      | none => simp [hsig, present]
      | some expiry =>
        by_cases hne : expiry = ""
        · subst hne
          simp +contextual [hsig, present]
        · cases htime : P.parseDate expiry <;>
            simp +contextual [hsig, present, hne, htime, eq_comm (a := expiry)]
    · simp [hsig]

theorem verifyEnvelope_ok_iff {rest : List (Certificate Key)} :
    (∃ check', verifyEnvelope P now blob digest check = some (.ok (⟨leaf, rest⟩, check'))) ↔
      ∃ jws, ReadsAs P blob jws ∧ Presents P now digest jws leaf rest := by
  constructor
  · rintro ⟨check', h⟩
    unfold verifyEnvelope at h
    split at h
    · simp at h
    · rename_i json hjson
      split at h
      · contradiction
      · simp at h
      · rename_i jws hjws
        refine ⟨jws, ⟨json, hjson, hjws⟩, ?_⟩
        unfold verifyJwsEnvelope at h
        split at h
        · contradiction
        · simp at h
        · rename_i htarget
          obtain ⟨htype, hnamed, hne⟩ := targetRefusal_none_iff.mp htarget
          split at h
          · simp at h
          · simp at h
          · rename_i hchain
            split at h
            · simp at h
            · rename_i hsig
              cases h
              obtain ⟨hsigned, htime⟩ := signatureRefusal_none_iff.mp hsig
              exact ⟨htype, hnamed, hne, hchain, hsigned, htime⟩
  · rintro ⟨jws, ⟨json, hjson, hjws⟩, h⟩
    have htarget := (targetRefusal_none_iff (P := P)).mpr ⟨h.typed, h.named, h.nonempty⟩
    have hsig := signatureRefusal_none_iff.mpr ⟨h.signed, h.timely⟩
    simp [verifyEnvelope, hjson, hjws, verifyJwsEnvelope, htarget, h.listed, hsig]

theorem verifyEnvelope_ok (h : verifyEnvelope P now blob digest check = some (.ok (e, check'))) :
    SignedFor P blob digest e.leaf := by
  obtain ⟨jws, ⟨json, hjson, hjws⟩, hp⟩ := verifyEnvelope_ok_iff.mp ⟨check', h⟩
  obtain ⟨alg, -, hsig⟩ := hp.signed
  have hnamed : Json.str? (Json.field? jws.target "digest") = some digest := by
    rw [hp.named]
    rfl
  exact ⟨json, jws, e.rest, alg, hjson, hjws, hnamed, hp.listed, hsig⟩

theorem findTrusted_mem (h : findTrusted P chain keys = some (k, i)) :
    k ∈ keys ∧ ∃ c, chain[i]? = some c ∧ P.spkiFingerprint c.publicKey = k.row.fingerprint := by
  induction keys with
  | nil => simp [findTrusted] at h
  | cons k' keys ih =>
    simp only [findTrusted] at h
    split at h
    · rename_i j hj
      cases h
      obtain ⟨hlt, hk, -⟩ := findIdx?_eq_some_iff_getElem.mp hj
      exact ⟨mem_cons_self, chain[i], getElem?_eq_getElem hlt, by simpa using hk⟩
    · exact ⟨mem_cons_of_mem _ (ih h).1, (ih h).2⟩

theorem trustChain_verified (h : (trustChain P e keys check).status = .verified) :
    ∃ k i, findTrusted P e.certificates keys = some (k, i) ∧
      (trustChain P e keys check).keyFingerprint = some k.row.fingerprint := by
  unfold trustChain at h ⊢
  split
  · rename_i k i hf
    exact ⟨k, i, hf, rfl⟩
  · rename_i hf
    simp [hf] at h

theorem trustChain_of_findTrusted (hf : findTrusted P e.certificates keys = some (k, i))
    (check : SignatureCheck) :
    (trustChain P e keys check).status = .verified ∧
      (trustChain P e keys check).keyFingerprint = some k.row.fingerprint := by
  simp [trustChain, hf, SignatureCheck.verifiedBy]

/-- What a check that a trust-store key verified has to mean. -/
def SoundlyVerified (P : Primitives Key) (signedBy : Certificate Key → Key → Bool)
    (blob : Bytes) (digest : String) (keys : List (PreparedKey Key))
    (check : SignatureCheck) : Prop :=
  ∃ leaf, SignedFor P blob digest leaf ∧ ∃ k ∈ keys,
    check.keyFingerprint = some k.row.fingerprint ∧ VouchedBy P signedBy leaf k.row

/-- A stored key is that of a certificate. -/
def IsKeyOf (P : Primitives Key) (k : PreparedKey Key) (c : Certificate Key) : Prop :=
  P.spkiFingerprint c.publicKey = k.row.fingerprint

/-- The first stored key that is the key of a listed certificate is a stranger's: no
chain of issuers leads from the leaf to a certificate with that key. -/
structure ListsStranger (P : Primitives Key) (signedBy : Certificate Key → Key → Bool)
    (leaf : Certificate Key) (rest : List (Certificate Key)) (before : List (PreparedKey Key))
    (k : PreparedKey Key) : Prop where
  others : ∀ j ∈ before, ∀ c ∈ leaf :: rest, ¬ IsKeyOf P j c
  listed : ∃ c ∈ rest, IsKeyOf P k c
  stranger : ¬ VouchedBy P signedBy leaf k.row

theorem SignedFor.leaf_unique {digest' : String}
    {a b : Certificate Key} (ha : SignedFor P blob digest a)
    (hb : SignedFor P blob digest' b) : a = b := by
  obtain ⟨json, jws, rest, -, hjson, hjws, -, hchain, -⟩ := ha
  obtain ⟨json', jws', rest', -, hjson', hjws', -, hchain', -⟩ := hb
  rw [hjson] at hjson'
  cases hjson'
  rw [hjws] at hjws'
  cases hjws'
  rw [hchain] at hchain'
  cases hchain'
  rfl

/-- Which key the trust decision finds: the first of the store that is the key of a
listed certificate. -/
theorem findTrusted_iff : (∃ i, findTrusted P chain keys = some (k, i)) ↔
      ∃ before after, keys = before ++ k :: after ∧
        (∀ j ∈ before, ∀ c ∈ chain, ¬ IsKeyOf P j c) ∧ ∃ c ∈ chain, IsKeyOf P k c := by
  induction keys with
  | nil => simp [findTrusted]
  | cons k' keys ih =>
    simp only [findTrusted]
    cases hfind : chain.findIdx? fun c =>
        decide (P.spkiFingerprint c.publicKey = k'.row.fingerprint) with
    | some at_ =>
      have hk' : ∃ c ∈ chain, IsKeyOf P k' c := by
        obtain ⟨hlt, hk, -⟩ := findIdx?_eq_some_iff_getElem.mp hfind
        exact ⟨chain[at_], getElem_mem hlt, by simpa [IsKeyOf] using hk⟩
      constructor
      · rintro ⟨i, hi⟩
        cases hi
        exact ⟨[], keys, rfl, by simp, hk'⟩
      · rintro ⟨before, after, heq, hbefore, -⟩
        cases before with
        | nil =>
          cases heq
          exact ⟨at_, rfl⟩
        | cons j before =>
          cases heq
          obtain ⟨c, hc, hkc⟩ := hk'
          exact absurd hkc (hbefore k' mem_cons_self c hc)
    | none =>
      have hk' : ∀ c ∈ chain, ¬ IsKeyOf P k' c := by
        simpa [IsKeyOf] using findIdx?_eq_none_iff.mp hfind
      refine ih.trans ⟨?_, ?_⟩
      · rintro ⟨before, after, rfl, hbefore, hk⟩
        refine ⟨k' :: before, after, rfl, ?_, hk⟩
        intro j hj
        rcases mem_cons.mp hj with rfl | hj
        · exact hk'
        · exact hbefore j hj
      · rintro ⟨before, after, heq, hbefore, hk⟩
        cases before with
        | nil =>
          cases heq
          obtain ⟨c, hc, hkc⟩ := hk
          exact absurd hkc (hk' c hc)
        | cons j before =>
          cases heq
          exact ⟨before, after, rfl, fun j hj => hbefore j (mem_cons_of_mem _ hj), hk⟩

theorem exists_findTrusted (h : ∃ k ∈ keys, ∃ c ∈ chain, IsKeyOf P k c) :
    ∃ k i, findTrusted P chain keys = some (k, i) := by
  obtain ⟨k, hk, hlisted⟩ := h
  induction keys with
  | nil => simp at hk
  | cons k' keys ih =>
    simp only [findTrusted]
    split
    · exact ⟨_, _, rfl⟩
    · rename_i hnone
      rcases mem_cons.mp hk with rfl | hk
      · obtain ⟨c, hc, hkc⟩ := hlisted
        have hno := findIdx?_eq_none_iff.mp hnone c hc
        exact absurd hkc (by simpa [IsKeyOf] using hno)
      · exact ih hk

/-- **Notation trust.** A verified check stands for an envelope that is signed for the
subject under a leaf the recorded key vouches for, exactly when no envelope that is
fine otherwise lists a stranger's certificate where the store looks first. -/
theorem notation_trust_sound_iff (P : Primitives Key)
    (signedBy : Certificate Key → Key → Bool) (now : Int) (blob : Bytes)
    (digest : String) (keys : List (PreparedKey Key)) (check : SignatureCheck) :
    (∀ out, verifyNotationJws P now blob digest keys check = some out →
      out.status = .verified → SoundlyVerified P signedBy blob digest keys out) ↔
    ∀ jws leaf rest, ReadsAs P blob jws → Presents P now digest jws leaf rest →
      ∀ before k after, keys = before ++ k :: after →
        ¬ ListsStranger P signedBy leaf rest before k := by
  constructor
  · intro h jws leaf rest hreads hpresents before k after hkeys hstranger
    obtain ⟨check', he⟩ : ∃ check', verifyEnvelope P now blob digest check =
        some (.ok (⟨leaf, rest⟩, check')) := verifyEnvelope_ok_iff.mpr ⟨jws, hreads, hpresents⟩
    obtain ⟨c, hc, hkc⟩ := hstranger.listed
    obtain ⟨i, hfound⟩ := findTrusted_iff.mpr
      ⟨before, after, hkeys, hstranger.others, c, mem_cons_of_mem _ hc, hkc⟩
    obtain ⟨hst, hfp⟩ := trustChain_of_findTrusted (e := ⟨leaf, rest⟩) hfound check'
    have hout : verifyNotationJws P now blob digest keys check =
        some (trustChain P ⟨leaf, rest⟩ keys check') := by
      simp [verifyNotationJws, he]
    obtain ⟨leaf', hsigned, k', -, hk', c', hc', hfp'⟩ := h _ hout hst
    have hleaf : leaf' = leaf := hsigned.leaf_unique (verifyEnvelope_ok he)
    have hkk : k'.row.fingerprint = k.row.fingerprint := by
      rw [hfp] at hk'
      exact (Option.some.inj hk').symm
    exact hstranger.stranger ⟨c', hleaf ▸ hc', hfp'.trans hkk⟩
  · intro h out hout hst
    unfold verifyNotationJws at hout
    split at hout
    · contradiction
    · rename_i refused he
      cases hout
      rw [verifyEnvelope_refused he] at hst
      contradiction
    · rename_i e check' he
      cases hout
      obtain ⟨k, i, hfound, hfp⟩ := trustChain_verified hst
      obtain ⟨jws, hreads, hpresents⟩ := verifyEnvelope_ok_iff.mp ⟨check', he⟩
      obtain ⟨before, after, hkeys, hbefore, c, hc, hkc⟩ := findTrusted_iff.mp ⟨i, hfound⟩
      refine ⟨e.leaf, verifyEnvelope_ok he, k, by simp [hkeys], hfp, ?_⟩
      by_contra hstranger
      rcases mem_cons.mp hc with rfl | hc
      · exact hstranger ⟨_, .refl, hkc⟩
      · exact h jws e.leaf e.rest hreads hpresents before k after hkeys
          ⟨hbefore, ⟨c, hc, hkc⟩, hstranger⟩

variable {signedBy : Certificate Key → Key → Bool}

/-- In a chain where each certificate is signed by the key of the next, every
certificate is above the first. -/
theorem issuer_chain_reach {rest : List (Certificate Key)} {c : Certificate Key}
    (h : List.IsChain (IssuedBy signedBy) (leaf :: rest)) (hc : c ∈ leaf :: rest) :
    Relation.ReflTransGen (IssuedBy signedBy) leaf c := by
  induction rest generalizing leaf with
  | nil =>
    simp only [mem_singleton] at hc
    exact hc ▸ .refl
  | cons d rest ih =>
    rw [isChain_cons_cons] at h
    rcases mem_cons.mp hc with rfl | hc
    · exact .refl
    · exact .head h.1 (ih h.2 hc)

/-- **Genuine chains are trusted rightly.** -/
theorem verified_of_chain {out : SignatureCheck}
    (h : ∀ e check', verifyEnvelope P now blob digest check = some (.ok (e, check')) →
      List.IsChain (IssuedBy signedBy) e.certificates)
    (hout : verifyNotationJws P now blob digest keys check = some out)
    (hst : out.status = .verified) : SoundlyVerified P signedBy blob digest keys out := by
  unfold verifyNotationJws at hout
  split at hout
  · contradiction
  · rename_i he
    cases hout
    rw [verifyEnvelope_refused he] at hst
    contradiction
  · rename_i e check' he
    cases hout
    obtain ⟨k, i, hf, hk⟩ := trustChain_verified hst
    obtain ⟨hkeys, c, hc, hfp⟩ := findTrusted_mem hf
    exact ⟨e.leaf, verifyEnvelope_ok he, k, hkeys, hk, c,
      issuer_chain_reach (h e check' he) (mem_of_getElem? hc), hfp⟩

/-! ## A forged chain -/

def imageDigest : String :=
  "sha256:e3b0c44298fc1c149afbf4c8996fb92427ae41e4649b934ca495991b7852b855"

/-- The protected header and the payload of the forged envelope, as texts. -/
def forgedHeader : String := "\x7b\"alg\":\"ES256\"\x7d"

def forgedPayload : String :=
  "\x7b\"targetArtifact\":\x7b\"digest\":\"" ++ imageDigest ++ "\"\x7d\x7d"

def forgedHeaderB64 : String := "eyJhbGciOiJFUzI1NiJ9"

def forgedPayloadB64 : String :=
  "eyJ0YXJnZXRBcnRpZmFjdCI6eyJkaWdlc3QiOiJzaGEyNTY6ZTNiMGM0NDI5OGZjMWMxNDlhZmJmNGM4OTk2" ++
  "ZmI5MjQyN2FlNDFlNDY0OWI5MzRjYTQ5NTk5MWI3ODUyYjg1NSJ9fQ"

def forgedEnvelope : Json := .obj [
  ("protected", .str forgedHeaderB64), ("payload", .str forgedPayloadB64),
  ("signature", .str "Bwc="), ("header", .obj [("x5c", .arr [.str "AQ==", .str "Ag=="])])]

/-- The stored blob: the text of `forgedEnvelope`. -/
def forgedBlob : Bytes :=
  ("\x7b\"protected\":\"" ++ forgedHeaderB64 ++ "\",\"payload\":\"" ++ forgedPayloadB64 ++
    "\",\"signature\":\"Bwc=\",\"header\":\x7b\"x5c\":[\"AQ==\",\"Ag==\"]\x7d\x7d").toUTF8.data.toList

/-- Two keys, named by their holders, and their certificates: `mallory`'s is her
own, `acme`'s is public. What a text decodes to is tabled for the texts of the
envelope; a signature verifies under the key of the one who made it. -/
def forgery : Primitives String where
  parseText t :=
    if t = forgedHeader then some (.obj [("alg", .str "ES256")])
    else if t = forgedPayload then
      some (.obj [("targetArtifact", .obj [("digest", .str imageDigest)])])
    else none
  parseBytes bytes := if bytes = forgedBlob then some forgedEnvelope else none
  b64urlToUtf8 s :=
    if s = forgedHeaderB64 then some forgedHeader
    else if s = forgedPayloadB64 then some forgedPayload
    else none
  bufferFrom
    | .str s => if s = "AQ==" then some [1] else if s = "Ag==" then some [2] else some [7, 7]
    | _ => none
  bufferFromHex _ := none
  base64 _ := ""
  hex _ := ""
  toText _ := ""
  utf8 s := s.toUTF8.data.toList
  ascii s := s.toUTF8.data.toList
  sha256 _ := []
  parseDate _ := none
  createPublicKey pem := some pem
  spkiFingerprint key := key
  verifyWithKey _ _ _ := false
  verifyJws _ key _ signature := decide (key = "mallory" ∧ signature = [7, 7])
  x509 bytes :=
    if bytes = [1] then .ok ⟨"mallory", "CN=acme release", "CN=acme release"⟩
    else if bytes = [2] then .ok ⟨"acme", "CN=acme", "CN=acme"⟩
    else .error "not a certificate"
  certificateIdentity _ := none
  keyless _ _ := ⟨false, none, none, none, none⟩

def acmeKey : PreparedKey String := ⟨⟨"k1", "acme", "acme", "acme", .trusted, none⟩, "acme"⟩

def selfSigned (c : Certificate String) (key : String) : Bool :=
  decide (c.publicKey = key)

theorem above_mallory {leaf c : Certificate String}
    (hc : Relation.ReflTransGen (IssuedBy selfSigned) leaf c)
    (hleaf : leaf.publicKey = "mallory") : c.publicKey = "mallory" := by
  induction hc with
  | refl => exact hleaf
  | tail _ hi ih =>
    rw [IssuedBy, selfSigned, decide_eq_true_eq] at hi
    exact hi ▸ ih

set_option maxRecDepth 10000 in
/-- Mallory signs an image with her own key and appends acme's public certificate
to the chain: the envelope is verified by acme's key. -/
theorem forged_chain_verified : ∃ out, verifyNotationJws forgery 0 forgedBlob imageDigest [acmeKey]
    { payloadDigest := imageDigest, format := .notation_ } = some out ∧
      out.status = .verified ∧ out.keyId = some "k1" ∧
      ¬ SoundlyVerified forgery selfSigned forgedBlob imageDigest [acmeKey] out := by
  refine ⟨_, rfl, rfl, rfl, ?_⟩
  rintro ⟨leaf, hsigned, k, hk, -, c, hc, hfp⟩
  have hleaf : SignedFor forgery forgedBlob imageDigest
      ⟨"mallory", "CN=acme release", "CN=acme release"⟩ :=
    ⟨_, _, _, .ES256, rfl, rfl, rfl, rfl, rfl⟩
  obtain rfl := hsigned.leaf_unique hleaf
  simp only [mem_singleton] at hk
  subst hk
  rw [above_mallory hc rfl] at hfp
  exact absurd hfp (by decide)

/-- Acme issued an intermediate certificate, which the envelope does not list, and the
intermediate issued mallory's. -/
def throughIntermediate (c : Certificate String) (key : String) : Bool :=
  decide (c.publicKey = "mallory" ∧ key = "intermediate" ∨
    c.publicKey = "intermediate" ∧ key = "acme")

set_option maxRecDepth 10000 in
theorem notation_trust_sound_intermediate :
    ∃ out, verifyNotationJws forgery 0 forgedBlob imageDigest [acmeKey]
        { payloadDigest := imageDigest, format := .notation_ } = some out ∧
      out.status = .verified ∧
      SoundlyVerified forgery throughIntermediate forgedBlob imageDigest [acmeKey] out := by
  refine ⟨_, rfl, rfl, (notation_trust_sound_iff forgery throughIntermediate 0 forgedBlob
    imageDigest [acmeKey] _).mpr ?_ _ rfl rfl⟩
  intro jws leaf rest hreads hpresents before k after hkeys hstranger
  obtain ⟨rfl, rfl, rfl⟩ : before = [] ∧ k = acmeKey ∧ after = [] := by
    cases before with
    | nil =>
      cases hkeys
      exact ⟨rfl, rfl, rfl⟩
    | cons j before => simp at hkeys
  obtain ⟨json, hjson, hjws⟩ := hreads
  cases hjson
  cases hjws
  cases hpresents.listed
  have hfirst : IssuedBy throughIntermediate ⟨"mallory", "CN=acme release", "CN=acme release"⟩
      ⟨"intermediate", "CN=acme ci", "CN=acme"⟩ := rfl
  have hsecond : IssuedBy throughIntermediate ⟨"intermediate", "CN=acme ci", "CN=acme"⟩
      ⟨"acme", "CN=acme", "CN=acme"⟩ := rfl
  exact hstranger.stranger ⟨_, .tail (.single hfirst) hsecond, rfl⟩

set_option maxRecDepth 10000 in
/-- Had acme issued mallory's certificate, its key would vouch for her. -/
theorem verified_issued : ∃ out, verifyNotationJws forgery 0 forgedBlob imageDigest [acmeKey]
      { payloadDigest := imageDigest, format := .notation_ } = some out ∧
    SoundlyVerified forgery (fun c key => decide (c.publicKey = "mallory" ∧ key = "acme"))
      forgedBlob imageDigest [acmeKey] out := by
  obtain ⟨out, hout, hst⟩ : ∃ out, verifyNotationJws forgery 0 forgedBlob imageDigest [acmeKey]
      { payloadDigest := imageDigest, format := .notation_ } = some out ∧
      out.status = .verified := ⟨_, rfl, rfl⟩
  refine ⟨out, hout, verified_of_chain (fun e check' he => ?_) hout hst⟩
  cases he
  exact List.IsChain.cons_cons rfl (.singleton _)

end Chicoree.Signatures
