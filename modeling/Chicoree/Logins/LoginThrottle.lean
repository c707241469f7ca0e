import Mathlib.Algebra.Order.Ring.Int
import Chicoree.Lib.Machine
import Chicoree.Lib.Table

/-! # `docker login` and its throttle

`lib/login-throttle.ts` and `identify` of the token endpoint: a sign-in looks for a lock on its
address or account, checks the credential, and counts a failure under both. Each statement is
a step of its own, so that sign-ins run side by side. -/

namespace Chicoree.Logins

open Transition

/-! ## Tables

Times are in milliseconds. -/

structure LoginAttempt where
  key : String
  failures : Nat
  windowStart : Int
  lockedUntil : Option Int := none
  updatedAt : Int

structure User where
  id : String
  email : String
  role : String := "user"
  banned : Bool := false
  twoFactorEnabled : Bool := false
deriving DecidableEq

/-- A row of `account`; the hash is there under the provider `credential`. -/
structure Account where
  userId : String
  providerId : String
  password : Option String := none

inductive LocalSignIn where
  | everyone
  | hidden
  | off
deriving DecidableEq

/-- Whose password it was: a local user's, or that of an entry of the directory. -/
inductive Owner where
  | user (id : String)
  | entry (dn : String)
deriving DecidableEq

/-- A password that has been verified and was wrong. -/
structure WrongPassword where
  owner : Owner
  key : String
  time : Int

/-- A failure that has been counted. -/
structure Failure where
  key : String
  time : Int

structure Shared where
  loginAttempts : List LoginAttempt := []
  users : List User := []
  accounts : List Account := []
  localSignIn : LocalSignIn := .everyone
  ldapEnabled : Bool := false
  now : Int := 0
  /-- What has happened so far; no statement reads it. -/
  wrongPasswords : List WrongPassword := []
  failures : List Failure := []

/-- The string functions of the runtime and the check of a password against a hash. -/
structure Runtime where
  trim : String → String
  toLowerCase : String → String
  verify : (hash password : String) → Bool

/-! ## The throttle -/

/-- `LOGIN_WINDOW_MINUTES`. -/
def loginWindow : Int := 900000

/-- `LOGIN_LOCK_MINUTES`. -/
def loginLockTime : Int := 900000

def accountMaxFailures : Nat := 5

def ipMaxFailures : Nat := 30

def day : Int := 86400000

def accountKey (R : Runtime) (email : String) : String :=
  "account:" ++ R.toLowerCase (R.trim email)

def ipKey (ip : Option String) : Option String :=
  (ip.filter fun ip => decide (ip ≠ "")).map fun ip => "ip:" ++ ip

namespace Shared

def loginLock (s : Shared) (keys : List (Option String)) : Option Int :=
  let rows := s.loginAttempts.filter fun r => decide (some r.key ∈ keys)
  ((rows.filterMap LoginAttempt.lockedUntil).filter fun t => decide (s.now < t)).max?

def countFailure (s : Shared) (key : String) : Shared × Nat :=
  let row : LoginAttempt :=
    match Table.find LoginAttempt.key key s.loginAttempts with
    | none => { key := key, failures := 1, windowStart := s.now, updatedAt := s.now }
    | some r =>
      if r.windowStart < s.now - loginWindow then
        { r with failures := 1, windowStart := s.now, updatedAt := s.now }
      else { r with failures := r.failures + 1, updatedAt := s.now }
  ({ s with
      loginAttempts := Table.upsert LoginAttempt.key row s.loginAttempts
      failures := s.failures ++ [⟨key, s.now⟩] }, row.failures)

def lockKey (s : Shared) (key : String) : Shared :=
  let locked (r : LoginAttempt) : LoginAttempt :=
    { r with lockedUntil := some (s.now + loginLockTime), failures := 0, windowStart := s.now }
  { s with loginAttempts := Table.update LoginAttempt.key key locked s.loginAttempts }

/-- Rows nobody touched for a day carry no information anymore. -/
def purge (s : Shared) : Shared :=
  let kept (r : LoginAttempt) : Bool := decide (s.now - day ≤ r.updatedAt)
  { s with loginAttempts := s.loginAttempts.filter kept }

def clearLoginFailures (s : Shared) (key : String) : Shared :=
  let kept (r : LoginAttempt) : Bool := decide (r.key ≠ key)
  { s with loginAttempts := s.loginAttempts.filter kept }

end Shared

def retryAfterSeconds (now lockedUntil : Int) : Int := max 1 (-((now - lockedUntil) / 1000))

def lockMessage (retryAfterSeconds : Int) : String :=
  let minutes : Int := max 1 (-((-retryAfterSeconds) / 60))
  "too many failed sign-in attempts; try again in " ++ toString minutes ++ " minute" ++
    (if minutes = 1 then "" else "s")

/-! ## One sign-in -/

inductive Outcome where
  | refused (error : String) (retryAfter : Option Int)
  /-- An opaque credential has been identified. -/
  | credential
  | user (userId : String) (isAdmin : Bool)
  | error
deriving DecidableEq

def Outcome.locked (now lockedUntil : Int) : Outcome :=
  let seconds := retryAfterSeconds now lockedUntil
  .refused (lockMessage seconds) (some seconds)

inductive Method where
  | password
  | ldap
  | token
deriving DecidableEq

/-- What comes of `identifyViaLdap`. -/
inductive LdapAnswer where
  /-- No entry, or more than one, or nothing to look for. -/
  | unknown
  /-- The entry has refused the password. -/
  | wrong (dn : String)
  | banned
  | refused (error : String)
  | user (userId : String) (isAdmin : Bool)
deriving DecidableEq

/-- A sign-in between its statements. `record` is the head of the loop over the keys to
count. -/
inductive SignInPc where
  | check
  | opaqueCredential
  | findUser
  | findAccount (u : User)
  | localSignIn (u : User) (hash : String)
  | verify (u : User) (hash : String)
  | ldapEnabled (known : Bool)
  | ldap
  | record (entries : List (String × Nat)) (locked : Option Int) (error : String)
  | lock (key : String) (rest : List (String × Nat)) (locked : Option Int) (error : String)
  | clear (outcome : Outcome)
  | done (outcome : Outcome)
deriving DecidableEq

/-- Basic credentials, the address they come from, and how far their sign-in is. -/
structure SignIn where
  username : String
  password : String
  ip : Option String := none
  pc : SignInPc := .check

/-- How a statement ends; the purge is made now and then. -/
inductive Reply where
  | ok
  | failed
  | purge
  | opaqueCredential (error : Option String)
  | directory (answer : LdapAnswer)
deriving DecidableEq

def isOpaque (password : String) : Bool :=
  ["chc_sa_", "chc_ci_", "chc_pat_"].any fun p => p.toList.isPrefixOf password.toList

section

variable (R : Runtime)

/-- The keys that a failure counts against, with their limits. -/
def entries (t : SignIn) (method : Method) : List (String × Nat) :=
  let ip := ((ipKey t.ip).map fun key => (key, ipMaxFailures)).toList
  match method with
  | .token => ip
  | .password | .ldap => ip ++ [(accountKey R t.username, accountMaxFailures)]

def failedWith (t : SignIn) (method : Method) (error : String) : SignInPc :=
  .record (entries R t method) none error

def noteWrong (s : Shared) (t : SignIn) (owner : Owner) : Shared :=
  { s with wrongPasswords := s.wrongPasswords ++ [⟨owner, accountKey R t.username, s.now⟩] }

def laterLock (locked : Option Int) (lockedUntil : Int) : Option Int :=
  some (match locked with
    | none => lockedUntil
    | some t => if t < lockedUntil then lockedUntil else t)

def dispatch (t : SignIn) : SignInPc :=
  if isOpaque t.password then .opaqueCredential else .findUser

def signInAct (s : Shared) (t : SignIn) (a : Reply) : Option (Shared × SignInPc) :=
  match t.pc with
  | .check =>
    -- a failure of the lookup lets the sign-in go on
    if a = .failed then some (s, dispatch t)
    else
      match s.loginLock [ipKey t.ip, some (accountKey R t.username)] with
      | some lockedUntil => some (s, .done (.locked s.now lockedUntil))
      | none => some (s, dispatch t)
  | .opaqueCredential =>
    match a with
    | .opaqueCredential none => some (s, .done .credential)
    | .opaqueCredential (some error) => some (s, failedWith R t .token error)
    | _ => some (s, .done .error)
  | .findUser =>
    if a = .failed then some (s, .done .error)
    else
      match s.users.find? fun u => decide (u.email = R.toLowerCase t.username) with
      | none => some (s, .ldapEnabled false)
      | some u =>
        if u.banned then some (s, failedWith R t .password "account unavailable")
        else if u.twoFactorEnabled then
          some (s, .done (.refused "this account uses two-factor auth; docker login with an access token instead" none))
        else some (s, .findAccount u)
  | .findAccount u =>
    if a = .failed then some (s, .done .error)
    else
      let credential := s.accounts.find? fun x =>
        decide (x.userId = u.id ∧ x.providerId = "credential")
      match (credential.bind Account.password).filter fun hash => decide (hash ≠ "") with
      | some hash => some (s, .localSignIn u hash)
      | none => some (s, .ldapEnabled true)
  | .localSignIn u hash =>
    if a = .failed then some (s, .done .error)
    else if s.localSignIn ≠ .everyone then
      some (s, .done (.refused "password sign-in is disabled on this registry; docker login with an access token instead" none))
    else some (s, .verify u hash)
  | .verify u hash =>
    if a = .failed then some (s, .done .error)
    else if R.verify hash t.password then some (s, .clear (.user u.id (decide (u.role = "admin"))))
    else some (noteWrong R s t (.user u.id), failedWith R t .password "invalid credentials")
  | .ldapEnabled known =>
    if a = .failed then some (s, .done .error)
    else if s.ldapEnabled then some (s, .ldap)
    else if known then
      some (s, .done (.refused "this account has no password; docker login with an access token instead" none))
    else
      some (s, failedWith R t .password
        (if '@' ∈ t.username.toList then "invalid credentials"
        else "invalid credentials: use your email address as the username (or an access token as the password)"))
  | .ldap =>
    match a with
    | .directory .unknown => some (s, failedWith R t .ldap "invalid credentials")
    | .directory (.wrong dn) =>
      some (noteWrong R s t (.entry dn), failedWith R t .ldap "invalid credentials")
    | .directory .banned => some (s, failedWith R t .ldap "account unavailable")
    | .directory (.refused error) => some (s, .done (.refused error none))
    | .directory (.user userId isAdmin) => some (s, .clear (.user userId isAdmin))
    | _ => some (s, .done .error)
  | .record [] locked error =>
    some (if a = .purge then s.purge else s, .done (match locked with
        | some lockedUntil => .locked s.now lockedUntil
        | none => .refused error none))
  | .record ((key, max) :: rest) locked error =>
    -- the caller logs an error and goes on with the refusal
    if a = .failed then some (s, .done (.refused error none))
    else
      let (s', failures) := s.countFailure key
      some (s', if max ≤ failures then .lock key rest locked error else .record rest locked error)
  | .lock key rest locked error =>
    if a = .failed then some (s, .done (.refused error none))
    else
      let found := (Table.find LoginAttempt.key key s.loginAttempts).isSome
      some (s.lockKey key,
        .record rest (if found then laterLock locked (s.now + loginLockTime) else locked) error)
  | .clear outcome =>
    some (if a = .failed then s else s.clearLoginFailures (accountKey R t.username), .done outcome)
  | .done _ => none

/-! ## Sign-ins side by side -/

/-- Time passes, and users, accounts and settings change. -/
inductive Surroundings where
  | wait (d : Nat)
  | users (users : List User) (accounts : List Account)
  | settings (localSignIn : LocalSignIn) (ldapEnabled : Bool)

def surroundings (s : Shared) : Surroundings → Option Shared
  | .wait d => some { s with now := s.now + d }
  | .users users accounts => some { s with users := users, accounts := accounts }
  | .settings localSignIn ldapEnabled =>
    some { s with localSignIn := localSignIn, ldapEnabled := ldapEnabled }

def loginProgram : Program Shared SignIn Reply Surroundings where
  init s := s.loginAttempts = [] ∧ s.wrongPasswords = [] ∧ s.failures = []
  fresh t := decide (t.pc = .check)
  act s _ t a := (signInAct R s t a).map fun x => (x.1, { t with pc := x.2 })
  env := surroundings

abbrev loginMachine : Machine (Pool Shared SignIn) (Move SignIn Reply Surroundings) :=
  (loginProgram R).machine

end

end Chicoree.Logins
