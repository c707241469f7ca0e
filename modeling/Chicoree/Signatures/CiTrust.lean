import Mathlib.Data.List.Infix
import Chicoree.Lib.UrlHosts
import Chicoree.Registryd.Organizations
import Chicoree.Signatures.Keyless
import Chicoree.Web.Tables

/-! # Trusted CI identities

`ci-auth.ts`: the identities of CI systems an organization trusts. What is entered is checked as
text; a token that its issuer's keys verify is held against the patterns of that issuer.

* `validateCiIdentity` is what is entered, `verifyOidcToken` and `matchingIdentities` an exchange.
* `Trusts` says what a pattern reads, `IsHttps` and `NamesLoopback` which issuers are meant, in
  the terms of the URL standard.
* `Narrow` is the promise, `Meant` the condition, `ci_trust_iff` that they are the same. -/

namespace Chicoree.Signatures

open List

/-! ## What is entered -/

structure CiInput where
  name : String
  issuer : String
  subject : String
  permission : String

def CiInput.entered (input : CiInput) : List Char := trim input.issuer.toList

def CiInput.pattern (input : CiInput) : List Char := trim input.subject.toList

structure CiIdentity where
  name : String
  issuer : String
  subject : String
  permission : Web.RepoPermission
deriving DecidableEq

def dropSlash (s : List Char) : List Char :=
  if s.getLast? = some '/' then s.dropLast else s

def units (s : List Char) : Nat := s.length + s.countP fun c => 0x10000 ≤ c.toNat

def https : List Char := "https://".toList

def http : List Char := "http://".toList

/-- `[^\s/]` -/
def isHostChar (c : Char) : Bool := !isSpace c && decide (c ≠ '/')

/-- `/^https:\/\/[^\s/]+(\/[^\s]*)?$/` -/
def httpsRe (s : List Char) : Bool :=
  match s.dropPrefix? https with
  | none => false
  | some rest =>
    !(rest.takeWhile isHostChar).isEmpty &&
      match rest.dropWhile isHostChar with
      | [] => true
      | c :: path => decide (c = '/') && path.all fun c => !isSpace c

def loopbackHosts : List (List Char) := ["localhost".toList, "127.0.0.1".toList]

/-- `/^http:\/\/(localhost|127\.0\.0\.1)(:\d+)?/`, where the port may be missing. -/
def loopbackRe (s : List Char) : Bool := loopbackHosts.any fun host => (http ++ host).isPrefixOf s

def validateCiIdentity (input : CiInput) : Except String CiIdentity :=
  let name := trim input.name.toList
  let issuer := dropSlash input.entered
  let subject := input.pattern
  if Registryd.orgSlugRe (String.ofList name) = false ∨ 64 < units name then
    .error ("Names use lowercase letters, digits and single ._- separators " ++
      "(up to 64 characters).")
  else if !(httpsRe issuer || loopbackRe issuer) then
    .error "The issuer must be an https URL, e.g. https://token.actions.githubusercontent.com."
  else if subject = [] ∨ 500 < units subject then
    .error "Enter the subject the CI token carries (exact, or with * wildcards)."
  else if subject = ['*'] then
    .error "A subject of \"*\" would trust everyone at the issuer; be more specific."
  else
    match Web.RepoPermission.ofText input.permission with
    | none => .error "Invalid permission."
    | some permission =>
      .ok ⟨String.ofList name, String.ofList issuer, String.ofList subject, permission⟩

structure CiIdentityRow extends CiIdentity where
  id : String
  organizationSlug : String
  createdAt : Int
deriving DecidableEq

/-- The issuer in a token, `none` where it does not decode, and the subject that verification
finds with an issuer's keys, for that issuer and this registry, or why it throws. -/
structure OidcToken where
  decodeJwt : Option (Option String)
  jwtVerify : String → Except String (Option String)

structure VerifiedOidc where
  issuer : String
  subject : String

def verifyOidcToken (appUrl : String) (rows : List CiIdentityRow) (token : OidcToken) :
    Except String VerifiedOidc :=
  match token.decodeJwt with
  | none => .error "the token is not a JWT"
  | some iss? =>
    let iss := iss?.getD ""
    if !(https.isPrefixOf iss.toList || http.isPrefixOf iss.toList) then
      .error "the token has no issuer"
    else if ∀ r ∈ rows, r.issuer ≠ iss then .error ("no organization trusts the issuer " ++ iss)
    else
      match token.jwtVerify iss with
      | .ok sub =>
        if sub.getD "" = "" then .error "the token has no subject"
        else .ok ⟨iss, sub.getD ""⟩
      | .error msg =>
        if "audience".toList <:+: msg.toList.map Char.toLower then
          .error ("the token's audience is not this registry; request it with audience " ++ appUrl)
        else .error ("the token did not verify: " ++ msg)

/-- `[^…]+` or `\d+` and the character behind it, which is of no such class. -/
def run (inClass : Char → Bool) (stop : Char) (s : List Char) : Option (List Char × List Char) :=
  match s.takeWhile inClass, s.dropWhile inClass with
  | c :: w, d :: rest => if d = stop then some (c :: w, rest) else none
  | _, _ => none

def isOwnerChar (c : Char) : Bool := !(['/', ':', '@'].contains c)

def isRepoChar (c : Char) : Bool := !([':', '@'].contains c)

def repoScheme : List Char := "repo:".toList

/-- `/^repo:([^/:@]+)@\d+\/([^:@]+)@\d+:/` replaced by `repo:$1/$2:`. -/
def withoutIds (subject : List Char) : Option (List Char) := do
  let s ← subject.dropPrefix? repoScheme
  let (owner, s) ← run isOwnerChar '@' s
  let (_, s) ← run Char.isDigit '/' s
  let (repo, s) ← run isRepoChar '@' s
  let (_, s) ← run Char.isDigit ':' s
  some (repoScheme ++ owner ++ '/' :: repo ++ ':' :: s)

def subjectSpellings (subject : String) : List String :=
  let plain := ((withoutIds subject.toList).map String.ofList).getD subject
  if plain = subject then [subject] else [subject, plain]

def matchingIdentities (rows : List CiIdentityRow) (v : VerifiedOidc) (slug : Option String) :
    List CiIdentityRow :=
  let found := rows.filter fun r => decide (r.issuer = v.issuer) &&
    (slug.filter (· ≠ "")).all fun s => decide (s = r.organizationSlug)
  (found.mergeSort fun a b => decide (a.createdAt ≤ b.createdAt)).filter fun r =>
    (subjectSpellings v.subject).any fun s => subjectMatches r.subject s

/-- The characters for themselves, `*` for any string. -/
def Reads (pattern subject : List Char) : Prop := Glob.Matches (fun _ => true) pattern subject

/-- Characters of one class, and at least one. -/
def Run (inClass : Char → Bool) (w : List Char) : Prop := w ≠ [] ∧ ∀ c ∈ w, inClass c = true

/-- A subject, and what GitHub would write without its numeric ids. -/
inductive PlainOf : List Char → List Char → Prop where
  | ids {owner ownerId repo repoId : List Char} (rest : List Char) : Run isOwnerChar owner →
      Run Char.isDigit ownerId → Run isRepoChar repo → Run Char.isDigit repoId →
      PlainOf (repoScheme ++ (owner ++ '@' :: (ownerId ++ '/' :: (repo ++ '@' ::
        (repoId ++ ':' :: rest))))) (repoScheme ++ owner ++ '/' :: repo ++ ':' :: rest)

def Trusts (pattern subject : List Char) : Prop :=
  Reads pattern subject ∨ ∃ plain, PlainOf subject plain ∧ Reads pattern plain

/-- A URL of the scheme `https`, as such issuers spell it: behind the scheme stands a host. -/
def IsHttps (hosts : UrlHosts.Hosts) (s : List Char) : Prop :=
  ∃ rest, UrlHosts.text s = https ++ rest ∧ UrlHosts.Names hosts.isHost rest

/-- A URL of the scheme `http` whose host is the machine itself. -/
def NamesLoopback (hosts : UrlHosts.Hosts) (s : List Char) : Prop :=
  ∃ rest, UrlHosts.text s = http ++ rest ∧ UrlHosts.Names hosts.isLoopback rest

/-- The token is exchanged for one of the identity exactly if it is of the issuer that was
entered and the pattern reads its subject; the issuer is one of those that are meant; and the
pattern is not everybody's. -/
structure Narrow (hosts : UrlHosts.Hosts) (input : CiInput) (appUrl : String)
    (rows : List CiIdentityRow) (row : CiIdentityRow) (token : OidcToken) (slug : Option String)
    (iss subject : String) : Prop where
  exact : (∃ v, verifyOidcToken appUrl rows token = .ok v ∧ row ∈ matchingIdentities rows v slug) ↔
    iss.toList = input.entered ∧
      Trusts input.pattern subject.toList
  issuer : IsHttps hosts row.issuer.toList ∨ NamesLoopback hosts row.issuer.toList
  someone : ∃ s, ¬ Trusts row.subject.toList s

/-! ## When it does -/

def breaks (s : List Char) : Nat := s.countP fun c => [0xa, 0xd, 0x2028, 0x2029].contains c.toNat

/-- **The condition.** A token whose subject the pattern reads is of another issuer with and
without a slash, or the issuer has none and the stars have no line terminator to stand for;
behind the scheme of the issuer, less its slash, a host is found, and behind `http://` one that
is the machine itself; and the pattern has some other character than stars. -/
structure Meant (hosts : UrlHosts.Hosts) (input : CiInput) (iss subject : String) : Prop where
  read : Trusts input.pattern subject.toList →
    (iss.toList = input.entered →
      input.entered.getLast? ≠ some '/' ∧
        breaks subject.toList = breaks input.pattern) ∧
    (iss.toList = dropSlash input.entered →
      breaks subject.toList = breaks input.pattern →
        input.entered.getLast? ≠ some '/')
  host : ∀ rest, dropSlash input.entered = https ++ rest →
    UrlHosts.hasHost hosts.isHost (UrlHosts.text rest) = true
  loopback : ∀ rest, dropSlash input.entered = http ++ rest →
    UrlHosts.hasHost hosts.isLoopback (UrlHosts.text rest) = true
  literal : ∃ c ∈ input.pattern, c ≠ '*'

/-! ## Subjects -/

section subjects

variable {inClass : Char → Bool} {stop : Char} {s t w rest pattern plain : List Char}

theorem dropPrefix?_iff : s.dropPrefix? t = some rest ↔ s = t ++ rest := by
  simp [dropPrefix?_eq_some_iff]

theorem run_iff (hstop : inClass stop = false) : run inClass stop s = some (w, rest) ↔
    s = w ++ stop :: rest ∧ Run inClass w := by
  have hsplit : s.takeWhile inClass ++ s.dropWhile inClass = s := takeWhile_append_dropWhile
  constructor
  · intro h
    have hall : ∀ c ∈ s.takeWhile inClass, inClass c = true := fun _ hc => mem_takeWhile_imp hc
    unfold run at h
    split at h
    · rename_i c u d v hw hd
      split at h
      · rename_i heq
        cases h
        rw [hw, hd, heq] at hsplit
        rw [hw] at hall
        exact ⟨hsplit.symm, by simp, hall⟩
      · cases h
    · cases h
  · rintro ⟨rfl, hne, hall⟩
    have htake : (w ++ stop :: rest).takeWhile inClass = w := by
      rw [takeWhile_append_of_pos hall, takeWhile_cons_of_neg (by simp [hstop]), append_nil]
    have hdrop : (w ++ stop :: rest).dropWhile inClass = stop :: rest := by
      rw [dropWhile_append_of_pos hall, dropWhile_cons_of_neg (by simp [hstop])]
    unfold run
    rw [htake, hdrop]
    cases w with
    | nil => exact absurd rfl hne
    | cons c w => exact if_pos rfl

theorem withoutIds_iff : withoutIds s = some plain ↔ PlainOf s plain := by
  unfold withoutIds
  simp only [Option.bind_eq_bind, Option.bind_eq_some_iff, dropPrefix?_iff, Prod.exists]
  constructor
  · rintro ⟨s₁, rfl, owner, s₂, h₁, ownerId, s₃, h₂, repo, s₄, h₃, repoId, rest, h₄, h⟩
    obtain ⟨rfl, howner⟩ := (run_iff (by decide)).mp h₁
    obtain ⟨rfl, hownerId⟩ := (run_iff (by decide)).mp h₂
    obtain ⟨rfl, hrepo⟩ := (run_iff (by decide)).mp h₃
    obtain ⟨rfl, hrepoId⟩ := (run_iff (by decide)).mp h₄
    cases h
    exact .ids rest howner hownerId hrepo hrepoId
  · intro h
    cases h with
    | ids rest howner hownerId hrepo hrepoId =>
      exact ⟨_, rfl, _, _, (run_iff (by decide)).mpr ⟨rfl, howner⟩,
        _, _, (run_iff (by decide)).mpr ⟨rfl, hownerId⟩,
        _, _, (run_iff (by decide)).mpr ⟨rfl, hrepo⟩,
        _, _, (run_iff (by decide)).mpr ⟨rfl, hrepoId⟩, rfl⟩

theorem breaks_digits (h : Run Char.isDigit s) : breaks s = 0 := by
  refine countP_eq_zero.mpr fun c hc hbreak => ?_
  have hdigit := h.2 c hc
  simp only [Char.isDigit, Bool.and_eq_true, decide_eq_true_eq] at hdigit
  simp only [contains_cons, contains_nil, Bool.or_false, Bool.or_eq_true, beq_iff_eq] at hbreak
  obtain ⟨hlow, hhigh⟩ := hdigit
  change 48 ≤ c.toNat at hlow
  change c.toNat ≤ 57 at hhigh
  omega

theorem PlainOf.breaks_eq (h : PlainOf s plain) : breaks plain = breaks s := by
  cases h with
  | ids rest howner hownerId hrepo hrepoId =>
    have hone := breaks_digits hownerId
    have htwo := breaks_digits hrepoId
    unfold breaks at hone htwo ⊢
    simp only [countP_append, countP_cons, hone, htwo]
    simp
    omega

theorem subjectMatches_iff {pattern subject : String} : subjectMatches pattern subject = true ↔
    Reads pattern.toList subject.toList ∧ breaks subject.toList = breaks pattern.toList := by
  unfold subjectMatches
  rw [Glob.isMatch_iff, Glob.matches_iff_countP (by decide)]
  simp only [Bool.not_not]
  rfl

theorem spellings_iff {pattern subject : String} :
    ((subjectSpellings subject).any fun s => subjectMatches pattern s) = true ↔
      Trusts pattern.toList subject.toList ∧ breaks subject.toList = breaks pattern.toList := by
  have hany : ((subjectSpellings subject).any fun s => subjectMatches pattern s) = true ↔
      subjectMatches pattern subject = true ∨ ∃ plain, withoutIds subject.toList = some plain ∧
        subjectMatches pattern (String.ofList plain) = true := by
    unfold subjectSpellings
    cases withoutIds subject.toList with
    | none => simp
    | some plain =>
      by_cases hsame : String.ofList plain = subject
      · simp [hsame]
      · simp [hsame]
  rw [hany]
  simp only [withoutIds_iff, subjectMatches_iff, String.toList_ofList]
  constructor
  · rintro (⟨hreads, hbreaks⟩ | ⟨plain, hplain, hreads, hbreaks⟩)
    · exact ⟨.inl hreads, hbreaks⟩
    · exact ⟨.inr ⟨plain, hplain, hreads⟩, hplain.breaks_eq ▸ hbreaks⟩
  · rintro ⟨hreads | ⟨plain, hplain, hreads⟩, hbreaks⟩
    · exact .inl ⟨hreads, hbreaks⟩
    · exact .inr ⟨plain, hplain, hreads, hplain.breaks_eq.trans hbreaks⟩

theorem Reads.mem (h : Reads pattern s) {c : Char} (hc : c ∈ pattern) (hstar : c ≠ '*') :
    c ∈ s := by
  induction pattern generalizing s with
  | nil => cases hc
  | cons a pattern ih =>
    obtain ⟨w, t, rfl, hw, ht⟩ := Glob.matches_cons.mp h
    rcases mem_cons.mp hc with rfl | hc
    · rw [(if_neg hstar).mp hw]
      exact mem_append_left t mem_cons_self
    · exact mem_append_right w (ih ht hc)

theorem reads_stars (h : ∀ c ∈ pattern, c = '*') (hne : pattern ≠ []) (s : List Char) :
    Reads pattern s := by
  cases pattern with
  | nil => exact absurd rfl hne
  | cons a pattern =>
    rw [h a mem_cons_self]
    refine Glob.matches_cons.mpr ⟨s, [], (append_nil s).symm, by simp [Glob.Stands], ?_⟩
    have hall : ∀ c ∈ pattern, c = '*' := fun c hc => h c (mem_cons_of_mem a hc)
    clear hne h
    induction pattern with
    | nil => exact Glob.matches_nil.mpr rfl
    | cons a pattern ih =>
      refine Glob.matches_cons.mpr ⟨[], [], rfl, ?_, ih fun c hc => hall c (mem_cons_of_mem a hc)⟩
      simp [Glob.Stands, hall a mem_cons_self]

theorem someone_iff (hne : pattern ≠ []) : (∃ s, ¬ Trusts pattern s) ↔ ∃ c ∈ pattern, c ≠ '*' := by
  constructor
  · rintro ⟨s, hs⟩
    by_contra hall
    exact hs (.inl (reads_stars (by simpa using hall) hne s))
  · rintro ⟨c, hc, hstar⟩
    refine ⟨[], ?_⟩
    rintro (h | ⟨plain, hplain, -⟩)
    · cases h.mem hc hstar
    · cases hplain

end subjects

section issuers

variable {hosts : UrlHosts.Hosts} {s t rest : List Char}

/-- What is accepted begins with one of the two schemes. -/
theorem scheme_of_accepted (h : (httpsRe s || loopbackRe s) = true) :
    (∃ rest, s = https ++ rest) ∨ ∃ rest, s = http ++ rest := by
  rcases Bool.or_eq_true_iff.mp h with h | h
  · unfold httpsRe at h
    split at h
    · cases h
    · rename_i rest hrest
      exact .inl ⟨rest, dropPrefix?_iff.mp hrest⟩
  · simp only [loopbackRe, any_eq_true, isPrefixOf_iff_prefix] at h
    obtain ⟨host, -, rest, rfl⟩ := h
    exact .inr ⟨host ++ rest, append_assoc ..⟩

theorem http_of_accepted (h : (httpsRe s || loopbackRe s) = true) :
    (https.isPrefixOf s || http.isPrefixOf s) = true := by
  rw [Bool.or_eq_true, isPrefixOf_iff_prefix, isPrefixOf_iff_prefix]
  rcases scheme_of_accepted h with ⟨rest, rfl⟩ | ⟨rest, rfl⟩
  · exact .inl ⟨rest, rfl⟩
  · exact .inr ⟨rest, rfl⟩

/-- No text begins with both schemes. -/
theorem https_ne_http : https ++ s ≠ http ++ t := by
  intro heq
  have hfifth : (https ++ s)[4]? = (http ++ t)[4]? := by rw [heq]
  rw [getElem?_append_left (by decide), getElem?_append_left (by decide)] at hfifth
  exact absurd hfifth (by decide)

theorem text_https (rest : List Char) :
    UrlHosts.text (https ++ rest) = https ++ UrlHosts.text rest :=
  UrlHosts.text_append (by decide +kernel) rest

theorem text_http (rest : List Char) : UrlHosts.text (http ++ rest) = http ++ UrlHosts.text rest :=
  UrlHosts.text_append (by decide +kernel) rest

theorem isHttps_https : IsHttps hosts (https ++ rest) ↔
    UrlHosts.hasHost hosts.isHost (UrlHosts.text rest) = true := by
  unfold IsHttps
  simp only [text_https, append_cancel_left_eq, exists_eq_left', hosts.names_isHost]

theorem not_isHttps_http : ¬ IsHttps hosts (http ++ rest) := by
  rintro ⟨rest', heq, -⟩
  rw [text_http] at heq
  exact https_ne_http heq.symm

theorem namesLoopback_http : NamesLoopback hosts (http ++ rest) ↔
    UrlHosts.hasHost hosts.isLoopback (UrlHosts.text rest) = true := by
  unfold NamesLoopback
  simp only [text_http, append_cancel_left_eq, exists_eq_left', hosts.names_isLoopback]

theorem not_namesLoopback_https : ¬ NamesLoopback hosts (https ++ rest) := by
  rintro ⟨rest', heq, -⟩
  rw [text_https] at heq
  exact https_ne_http heq

/-- An issuer that is accepted is one that is meant exactly if behind its scheme stands a host,
and behind `http://` a loopback one. -/
theorem issuer_iff (hosts : UrlHosts.Hosts) (h : (httpsRe s || loopbackRe s) = true) :
    IsHttps hosts s ∨ NamesLoopback hosts s ↔
      (∀ rest, s = https ++ rest → UrlHosts.hasHost hosts.isHost (UrlHosts.text rest) = true) ∧
      ∀ rest, s = http ++ rest → UrlHosts.hasHost hosts.isLoopback (UrlHosts.text rest) = true := by
  rcases scheme_of_accepted h with ⟨rest, rfl⟩ | ⟨rest, rfl⟩
  · simp [isHttps_https, not_namesLoopback_https, https_ne_http]
  · simp [namesLoopback_http, not_isHttps_http, https_ne_http.symm]

/-- Texts in which a fragment, a port or an open bracket stands where the host would. -/
def hostless : List (List Char) := ["#".toList, ":443".toList, "[".toList]

/-- Behind `https://` these make no URL, whatever is a host. -/
theorem not_isHttps_hostless (hosts : UrlHosts.Hosts) :
    ∀ rest ∈ hostless, ¬ IsHttps hosts (https ++ rest) := by
  intro rest hrest h
  have hcut : ∀ rest ∈ hostless,
      (UrlHosts.cutHost (UrlHosts.afterInfo (UrlHosts.authority (UrlHosts.text rest)))).1 ∈
        [[], ['[']] := by
    decide +kernel
  have hopen : hosts.isHost ['['] = false := by
    by_contra hhost
    obtain ⟨w, hw, -⟩ := hosts.closed [] (Bool.not_eq_false _ ▸ hhost)
    simp at hw
  rw [isHttps_https] at h
  simp only [UrlHosts.hasHost, Bool.and_eq_true] at h
  rcases mem_pair.mp (hcut rest hrest) with hnil | hbracket
  · rw [hnil, hosts.nonempty] at h
    cases h.1
  · rw [hbracket, hopen] at h
    cases h.1

theorem dropSlash_eq_iff : dropSlash s = s ↔ s.getLast? ≠ some '/' := by
  unfold dropSlash
  split
  · rename_i hlast
    refine iff_of_false (fun heq => ?_) (fun hne => hne hlast)
    have hlength := congrArg length heq
    rw [length_dropLast] at hlength
    cases s with
    | nil => cases hlast
    | cons c s => simp at hlength
  · rename_i hlast
    exact iff_of_true rfl hlast

end issuers

/-! ## An exchange -/

section exchange

variable {input : CiInput} {identity : CiIdentity} {appUrl iss subject : String}
  {rows : List CiIdentityRow} {row : CiIdentityRow} {token : OidcToken} {slug : Option String}
  {hosts : UrlHosts.Hosts}

theorem accepted_of_validate (h : validateCiIdentity input = .ok identity) :
    identity.issuer.toList = dropSlash input.entered ∧
      identity.subject.toList = input.pattern ∧ identity.subject.toList ≠ [] ∧
      (httpsRe identity.issuer.toList || loopbackRe identity.issuer.toList) = true := by
  unfold validateCiIdentity at h
  dsimp only at h
  split at h
  · cases h
  split at h
  · cases h
  rename_i hissuer
  split at h
  · cases h
  rename_i hsubject
  split at h
  · cases h
  split at h <;> cases h
  simp only [String.toList_ofList, true_and]
  exact ⟨fun hnil => hsubject (.inl hnil), not_not.mp (by simpa using hissuer)⟩

/-- A token of the issuer in it that this issuer's keys verify, for this registry. -/
structure OidcToken.Verifies (token : OidcToken) (iss subject : String) : Prop where
  decoded : token.decodeJwt = some (some iss)
  verified : token.jwtVerify iss = .ok (some subject)
  subject_ne : subject ≠ ""

theorem verifyOidcToken_ok (h : token.Verifies iss subject) {v : VerifiedOidc} :
    verifyOidcToken appUrl rows token = .ok v ↔
      (https.isPrefixOf iss.toList || http.isPrefixOf iss.toList) = true ∧
        (∃ r ∈ rows, r.issuer = iss) ∧ v = ⟨iss, subject⟩ := by
  unfold verifyOidcToken
  simp only [h.decoded, h.verified, Option.getD_some, if_neg h.subject_ne]
  split
  · rename_i hscheme
    simp [Bool.not_eq_true' _ ▸ hscheme]
  · rename_i hscheme
    rw [Bool.not_eq_true', Bool.not_eq_false] at hscheme
    split
    · rename_i hnone
      simp only [reduceCtorEq, false_iff]
      rintro ⟨-, ⟨r, hr, hiss⟩, -⟩
      exact hnone r hr hiss
    · rename_i hsome
      have htrusted : ∃ r ∈ rows, r.issuer = iss := by simpa using hsome
      simp only [Except.ok.injEq, hscheme, htrusted, true_and]
      exact eq_comm

theorem mem_matchingIdentities {v : VerifiedOidc} (hrow : row ∈ rows)
    (hslug : ∀ s ∈ slug, s = row.organizationSlug) :
    row ∈ matchingIdentities rows v slug ↔ row.issuer = v.issuer ∧
      Trusts row.subject.toList v.subject.toList ∧
        breaks v.subject.toList = breaks row.subject.toList := by
  have hall : ((slug.filter (· ≠ "")).all fun s => decide (s = row.organizationSlug)) = true := by
    cases slug with
    | none => rfl
    | some s => simp [Option.filter, hslug s rfl]; split <;> simp
  unfold matchingIdentities
  rw [mem_filter, mem_mergeSort, mem_filter, Bool.and_eq_true, hall, spellings_iff]
  simp [hrow]

/-- **Tokens are exchanged for those of an identity as narrowly as it was entered exactly under
the condition.** -/
theorem ci_trust_iff (haccepted : validateCiIdentity input = .ok row.toCiIdentity)
    (hrow : row ∈ rows) (hslug : ∀ s ∈ slug, s = row.organizationSlug)
    (hverifies : token.Verifies iss subject) :
    Narrow hosts input appUrl rows row token slug iss subject ↔ Meant hosts input iss subject := by
  obtain ⟨hissuer, hsubject, hne, hurl⟩ := accepted_of_validate haccepted
  have hexchanged : (∃ v, verifyOidcToken appUrl rows token = .ok v ∧
      row ∈ matchingIdentities rows v slug) ↔
        iss.toList = dropSlash input.entered ∧
          Trusts input.pattern subject.toList ∧
            breaks subject.toList = breaks input.pattern := by
    simp only [verifyOidcToken_ok hverifies, mem_matchingIdentities hrow hslug, hsubject]
    constructor
    · rintro ⟨_, ⟨-, -, rfl⟩, hiss, hread⟩
      exact ⟨by rw [← hissuer, hiss], hread⟩
    · rintro ⟨hiss, hread⟩
      have hsame : row.issuer = iss := String.toList_inj.mp (by rw [hissuer, hiss])
      exact ⟨⟨iss, subject⟩, ⟨hsame ▸ http_of_accepted hurl, ⟨row, hrow, hsame⟩, rfl⟩, hsame,
        hread⟩
  have hlast : input.entered.getLast? ≠ some '/' ↔
      dropSlash input.entered = input.entered := dropSlash_eq_iff.symm
  have hmeant := issuer_iff hosts hurl
  have hsomeone := someone_iff hne
  rw [hissuer] at hmeant
  rw [hsubject] at hsomeone
  constructor
  · rintro ⟨hexact, hurl, hothers⟩
    rw [hexchanged] at hexact
    rw [hissuer] at hurl
    rw [hsubject] at hothers
    obtain ⟨hhost, hloopback⟩ := hmeant.mp hurl
    refine ⟨fun hread => ⟨fun hiss => ?_, fun hiss hbreaks => ?_⟩, hhost, hloopback,
      hsomeone.mp hothers⟩
    · obtain ⟨hstored, -, hbreaks⟩ := hexact.mpr ⟨hiss, hread⟩
      exact ⟨hlast.mpr (hstored.symm.trans hiss), hbreaks⟩
    · exact hlast.mpr (hiss.symm.trans (hexact.mp ⟨hiss, hread, hbreaks⟩).1)
  · rintro ⟨hread, hhost, hloopback, hliteral⟩
    refine ⟨hexchanged.trans ⟨?_, ?_⟩, hissuer ▸ hmeant.mpr ⟨hhost, hloopback⟩,
      hsubject ▸ hsomeone.mpr hliteral⟩
    · rintro ⟨hiss, htrusts, hbreaks⟩
      exact ⟨hiss.trans (hlast.mp ((hread htrusts).2 hiss hbreaks)), htrusts⟩
    · rintro ⟨hiss, htrusts⟩
      obtain ⟨hslash, hbreaks⟩ := (hread htrusts).1 hiss
      exact ⟨hiss.trans (hlast.mp hslash).symm, htrusts, hbreaks⟩

end exchange

section instances

def release : CiInput := ⟨"release", "https://ci.example", "repo:acme/api:*", "push"⟩

def releaseRow : CiIdentityRow where
  name := "release"
  issuer := "https://ci.example"
  subject := "repo:acme/api:*"
  permission := .push
  id := "1"
  organizationSlug := "acme"
  createdAt := 0

def releaseToken : OidcToken :=
  ⟨some (some "https://ci.example"), fun _ => .ok (some "repo:acme@1/api@2:main")⟩

/-- Hosts by name or number, and the names of the machine itself. -/
def plainHosts : UrlHosts.Hosts where
  isHost s := !s.isEmpty && s.all fun c => c.isAlphanum || ['.', '-'].contains c
  isLoopback s := loopbackHosts.contains s
  nonempty := rfl
  closed s h := absurd h (by simp [show '['.isAlphanum = false by decide])
  isHost_of_isLoopback s h := by
    have hall : ∀ host ∈ loopbackHosts,
        (!host.isEmpty && host.all fun c => c.isAlphanum || ['.', '-'].contains c) = true := by
      decide +kernel
    exact hall s (by simpa using h)

/-- An identity that is as narrow as it was entered: the token's subject has GitHub's ids, the
pattern has none. -/
theorem ci_trust_release :
    Narrow plainHosts release "" [releaseRow] releaseRow releaseToken none "https://ci.example"
      "repo:acme@1/api@2:main" := by
  refine (ci_trust_iff (by decide +kernel) mem_cons_self (by simp) ⟨rfl, rfl, by decide⟩).mpr ?_
  have hslash : dropSlash release.entered = https ++ "ci.example".toList := by decide +kernel
  refine ⟨fun _ => ⟨fun _ => by decide +kernel, fun _ _ => by decide +kernel⟩, ?_, ?_, ?_⟩
  · intro rest heq
    rw [hslash, append_cancel_left_eq] at heq
    rw [← heq]
    decide +kernel
  · intro rest heq
    rw [hslash] at heq
    exact absurd heq https_ne_http
  · exact ⟨'r', by decide +kernel, by decide⟩

def slashed : CiInput := { release with issuer := "https://ci.example/" }

def slashedToken : OidcToken :=
  ⟨some (some "https://ci.example/"), fun _ => .ok (some "repo:acme/api:*")⟩

/-- A host that only begins like a loopback one, trusted for everybody. -/
def everybody : CiInput := ⟨"all", "http://localhost.example", "**", "admin"⟩

/-- No token of an issuer with a slash is exchanged; a host behind `localhost` is accepted,
and so is a pattern of stars, and issuers are that have no host at all. -/
theorem ci_trust_too_wide : (validateCiIdentity slashed = .ok releaseRow.toCiIdentity ∧
      ¬ Narrow plainHosts slashed "" [releaseRow] releaseRow slashedToken none
        "https://ci.example/" "repo:acme/api:*") ∧
    (validateCiIdentity everybody = .ok ⟨"all", "http://localhost.example", "**", .admin⟩ ∧
      ¬ (IsHttps plainHosts everybody.issuer.toList ∨
        NamesLoopback plainHosts everybody.issuer.toList) ∧
      ¬ ∃ s, ¬ Trusts everybody.subject.toList s) ∧
    ∀ issuer ∈ ["https://#", "https://:443", "https://["],
      validateCiIdentity { release with issuer := issuer } =
        .ok { releaseRow.toCiIdentity with issuer := issuer } ∧
      ¬ (IsHttps plainHosts issuer.toList ∨ NamesLoopback plainHosts issuer.toList) := by
  refine ⟨⟨by decide +kernel, fun h => ?_⟩, ⟨by decide +kernel, ?_, ?_⟩, fun issuer hissuer => ?_⟩
  · obtain ⟨v, hv, -⟩ := h.exact.mpr ⟨by decide +kernel, .inl (Glob.matches_self rfl _)⟩
    have hverifies : slashedToken.Verifies "https://ci.example/" "repo:acme/api:*" :=
      ⟨rfl, rfl, by decide⟩
    obtain ⟨-, ⟨r, hr, hiss⟩, -⟩ := (verifyOidcToken_ok hverifies).mp hv
    rw [mem_singleton.mp hr] at hiss
    exact absurd hiss (by decide)
  · rw [issuer_iff _ (by decide +kernel)]
    intro h
    exact absurd (h.2 "localhost.example".toList (by decide +kernel)) (by decide +kernel)
  · rw [someone_iff (by decide +kernel)]
    rintro ⟨c, hc, hstar⟩
    have hstars : (everybody.pattern.all fun c => decide (c = '*')) = true := by decide +kernel
    exact hstar (of_decide_eq_true (all_eq_true.mp hstars c hc))
  · have haccepted : ∀ issuer ∈ ["https://#", "https://:443", "https://["],
        validateCiIdentity { release with issuer := issuer } =
            .ok { releaseRow.toCiIdentity with issuer := issuer } ∧
          issuer.toList.take 8 = https ∧ issuer.toList.drop 8 ∈ hostless := by
      decide +kernel
    obtain ⟨hvalid, htake, hrest⟩ := haccepted issuer hissuer
    have hsplit : issuer.toList = https ++ issuer.toList.drop 8 := by
      rw [← htake, take_append_drop]
    refine ⟨hvalid, ?_⟩
    rw [hsplit]
    rintro (h | h)
    · exact not_isHttps_hostless plainHosts _ hrest h
    · exact not_namesLoopback_https h

end instances

end Chicoree.Signatures
