import Mathlib.Algebra.Order.Ring.Int
import Chicoree.Registryd.Registry

/-! # Signing keys and the tokens signed with them

`lib/signing-keys.ts` and `lib/registry-jwt.ts` in the web app, and the verifier of
`auth/token.go` with the keys of its last reload. Times are in milliseconds, the claims of a
token in seconds. -/

namespace Chicoree.Tokens

open Transition Registryd

universe u

def defaultDropWindow : Int := 10 * 60 * 1000

def minRefreshInterval : Int := 5 * 1000

def tokenTtlSeconds : Int := 300

/-- What both programs are set up with. `K` are the key pairs; the fingerprint of the public
half names one of them. -/
structure Deployment (K : Type u) where
  fileKey : K
  fingerprint : K → String
  collisionFree : Function.Injective fingerprint
  fingerprint_ne : ∀ key, fingerprint key ≠ ""
  tokenIssuer : String
  tokenService : String
  /-- `TOKEN_KEY_DROP_WINDOW`, refused below five minutes. -/
  keyDropWindow : Int := defaultDropWindow
  keyDropWindow_ge : 5 * 60 * 1000 ≤ keyDropWindow := by decide
  /-- `TOKEN_KEY_RELOAD_INTERVAL`, refused below five seconds. -/
  keyReloadInterval : Int := 60 * 1000
  keyReloadInterval_ge : 5 * 1000 ≤ keyReloadInterval := by decide

/-- `UseKeySource`: a window that is not positive keeps the default. -/
def Deployment.dropWindow {K : Type u} (d : Deployment K) : Int :=
  if 0 < d.keyDropWindow then d.keyDropWindow else defaultDropWindow

/-! ## The key table -/

structure SigningKey (K : Type u) where
  kid : String
  key : K
  createdAt : Int
  activatedAt : Int
  retiredAt : Option Int := none
deriving DecidableEq

/-- A bearer token: its header, its claims, and the key pair it is signed with. -/
structure Token (K : Type u) where
  alg : String := "ES256"
  kid : String
  issuer : String
  audience : String
  subject : String
  access : List AccessGrant
  issuedAt : Int
  notBefore : Int
  expiresAt : Int
  signer : K
deriving DecidableEq

section Web

variable {K : Type u} (d : Deployment K) (rows : List (SigningKey K)) (now : Int)

/-- `orderBy: [desc(activatedAt), desc(createdAt)]` -/
def SigningKey.newer (a b : SigningKey K) : Bool :=
  decide (b.activatedAt < a.activatedAt) ||
    (decide (a.activatedAt = b.activatedAt) && decide (b.createdAt < a.createdAt))

/-- Which rows the query may put first; `tie` picks among keys of the same times. -/
def newestActiveKey (tie : Nat) : Option (SigningKey K) :=
  let active := rows.filter fun k => k.retiredAt.isNone
  let newest := active.filter fun k => active.all fun other => !other.newer k
  newest[tie % newest.length]?

structure ActiveSigner (K : Type u) where
  kid : String
  key : K

/-- `failed`: the lookup or the decryption threw. -/
def activeSigner (tie : Nat) (failed : Bool) : ActiveSigner K :=
  let file : ActiveSigner K := ⟨d.fingerprint d.fileKey, d.fileKey⟩
  if failed then file
  else
    match newestActiveKey rows tie with
    | some row => ⟨row.kid, row.key⟩
    | none => file

def generateSigningKey (key : K) : List (SigningKey K) :=
  Table.insertNew SigningKey.kid
    { kid := d.fingerprint key, key := key, createdAt := now, activatedAt := now } rows

def retireSigningKey (kid : String) (tie : Nat) :
    Except String (SigningKey K) × List (SigningKey K) :=
  match Table.find SigningKey.kid kid rows with
  | none => (.error "Unknown key.", rows)
  | some row =>
    if row.retiredAt.isSome then (.error "This key is already retired.", rows)
    else if (newestActiveKey rows tie).any fun active => active.kid = kid then
      (.error ("This key signs tokens right now. Generate a new key first, wait longer than " ++
        "five minutes, then retire this one."), rows)
    else
      (.ok { row with retiredAt := some now },
        Table.update SigningKey.kid kid (fun k => { k with retiredAt := some now }) rows)

/-- `now` is the time the claims are computed from, read before the signer is looked up. -/
def signRegistryToken (subject : String) (access : List AccessGrant) (ttlSeconds : Int)
    (tie : Nat) (failed : Bool) : Token K where
  kid := (activeSigner d rows tie failed).kid
  issuer := d.tokenIssuer
  audience := d.tokenService
  subject := subject
  access := access
  issuedAt := now / 1000
  notBefore := now / 1000 - 10
  expiresAt := now / 1000 + ttlSeconds
  signer := (activeSigner d rows tie failed).key

end Web

/-- What the web app signs tokens for. -/
inductive TokenUse where
  | tokenEndpoint
  | manifestDelete
  | tagAdmin
  | systemPull
  | scanTask
  | imageCopy
  | mirror

def TokenUse.ttlSeconds : TokenUse → Int
  | .tokenEndpoint => tokenTtlSeconds
  | .manifestDelete => 300
  | .tagAdmin => 300
  | .systemPull => 3600
  | .scanTask => 2 * 3600
  | .imageCopy => 3600
  | .mirror => 4 * 3600

/-! ## The verifier -/

inductive VerifyError where
  | unexpectedMethod
  | unknownKid
  | retired
  | signatureInvalid
  | claimsInvalid
deriving DecidableEq

/-- `errors.Is(err, errUnknownKid)`; the error of a retired key wraps it. -/
def VerifyError.isUnknownKid : VerifyError → Bool
  | .unknownKid => true
  | .retired => true
  | _ => false

/-- `dbKeys` under their kids, and when they were read. -/
structure Verifier (K : Type u) where
  dbKeys : List (SigningKey K)
  lastRefresh : Int
deriving DecidableEq

section Registryd

variable {K : Type u} [DecidableEq K] (d : Deployment K) (v : Verifier K)
  (rows : List (SigningKey K)) (now : Int)

/-- The query of `SigningKeys`, without its order. -/
def signingKeys (retiredAfter : Int) : List (SigningKey K) :=
  rows.filter fun k => k.retiredAt.all fun at' => decide (retiredAfter < at')

def refreshKeys : Verifier K where
  dbKeys := signingKeys rows (now - d.dropWindow)
  lastRefresh := now

/-- At most one reload in `minRefreshInterval`. -/
def refreshOnMiss : Option (Verifier K) :=
  if now - v.lastRefresh < minRefreshInterval then none
  else some (refreshKeys d rows now)

def keyFor (kid : String) : Except VerifyError K :=
  if kid = "" ∨ kid = d.fingerprint d.fileKey then .ok d.fileKey
  else
    match Table.find SigningKey.kid kid v.dbKeys with
    | none => .error .unknownKid
    | some k =>
      if k.retiredAt.any fun at' => decide (d.dropWindow < now - at') then .error .retired
      else .ok k.key

/-- The options of `jwt.ParseWithClaims`, as the package documents them: an expiry, issuer and
audience are required, with thirty seconds of leeway on both ends. -/
def claimsValid (t : Token K) : Bool :=
  decide (now < t.expiresAt * 1000 + 30000) && decide (t.notBefore * 1000 - 30000 ≤ now) &&
    decide (t.issuer = d.tokenIssuer) && decide (t.audience = d.tokenService)

def verify (t : Token K) : Except VerifyError Identity :=
  if t.alg ≠ "ES256" then .error .unexpectedMethod
  else
    match keyFor d v now t.kid with
    | .error e => .error e
    | .ok key =>
      if key ≠ t.signer then .error .signatureInvalid
      else if !claimsValid d now t then .error .claimsInvalid
      else .ok ⟨t.subject, t.access⟩

def identify (t : Token K) : Except VerifyError Identity × Verifier K :=
  match verify d v now t with
  | .ok who => (.ok who, v)
  | .error e =>
    if e.isUnknownKid then
      match refreshOnMiss d v rows now with
      -- a key generated moments ago: the reload just fetched it
      | some v' => (verify d v' now t, v')
      | none => (.error e, v)
    else (.error e, v)

end Registryd

/-! ## Histories -/

/-- One clock, the key table, the verifier of registryd, and the tokens signed so far. -/
structure State (K : Type u) where
  now : Int
  rows : List (SigningKey K)
  verifier : Verifier K
  tokens : List (Token K)
deriving DecidableEq

inductive Event (K : Type u) where
  | tick (ms : Nat)
  | generate (key : K)
  | retire (kid : String) (tie : Nat)
  /-- `waited`: how long the lookup of the signer took. -/
  | sign (use : TokenUse) (subject : String) (access : List AccessGrant) (waited : Nat)
      (tie : Nat) (failed : Bool)
  | reload
  | present (t : Token K)

variable {K : Type u} [DecidableEq K]

def step (d : Deployment K) (s : State K) : Event K → Option (State K)
  | .tick ms => some { s with now := s.now + ms }
  | .generate key =>
    -- a new key pair is none that is there already
    if key = d.fileKey then none
    else some { s with rows := generateSigningKey d s.rows s.now key }
  | .retire kid tie => some { s with rows := (retireSigningKey s.rows s.now kid tie).2 }
  | .sign use subject access waited tie failed =>
    let t := signRegistryToken d s.rows (s.now - waited) subject access use.ttlSeconds tie failed
    some { s with tokens := s.tokens ++ [t] }
  | .reload => some { s with verifier := refreshKeys d s.rows s.now }
  | .present t => some { s with verifier := (identify d s.verifier s.rows s.now t).2 }

def keyMachine (d : Deployment K) : Machine (State K) (Event K) where
  init s := ∃ start, s = ⟨start, [], ⟨[], start⟩, []⟩
  step := step d

/-- The keys are reloaded at most the poll interval apart. -/
def Polled (d : Deployment K) (s : State K) : Event K → Prop
  | .tick ms => s.now + ms ≤ s.verifier.lastRefresh + d.keyReloadInterval
  | _ => True

instance (d : Deployment K) (s : State K) : ∀ e : Event K, Decidable (Polled d s e)
  | .tick ms => inferInstanceAs (Decidable (s.now + ms ≤ _))
  | .generate _ => inferInstanceAs (Decidable True)
  | .retire _ _ => inferInstanceAs (Decidable True)
  | .sign _ _ _ _ _ _ => inferInstanceAs (Decidable True)
  | .reload => inferInstanceAs (Decidable True)
  | .present _ => inferInstanceAs (Decidable True)

/-- registryd takes the token for what it says when it is presented now. -/
def Accepted (d : Deployment K) (s : State K) (t : Token K) : Prop :=
  (identify d s.verifier s.rows s.now t).1 = .ok ⟨t.subject, t.access⟩

end Chicoree.Tokens
