import Chicoree.RateLimits.Settings

/-! # Limits as the web application reads them

`lib/rate-limit-shared.ts` and the action that stores the section: the same grammars, with
JavaScript's numbers and white space, and a look at the shape of addresses only. -/

namespace Chicoree.RateLimits

/-! ## Numbers -/

/-- A JavaScript number that is no fraction and not negative. -/
inductive JsNumber where
  | finite (n : Nat)
  | infinity
deriving DecidableEq

/-- The nearest number with a significand of 53 bits, ties to even. -/
def roundBits (n : Nat) : Nat :=
  let step := 2 ^ (n.log2 - 52)
  let q := n / step
  let r := n % step
  (if 2 * r < step ∨ (2 * r = step ∧ q % 2 = 0) then q else q + 1) * step

def overflow : Nat := 2 ^ 1024

def JsNumber.ofNat (n : Nat) : JsNumber :=
  if roundBits n < overflow then .finite (roundBits n) else .infinity

/-- `Number(s)` of a text of digits. -/
def JsNumber.ofDigits (s : List Char) : JsNumber := .ofNat (decimal s)

def JsNumber.mul : JsNumber → Nat → JsNumber
  | .finite n, k => .ofNat (n * k)
  | .infinity, _ => .infinity

def JsNumber.isSafeInteger : JsNumber → Bool
  | .finite n => decide (n ≤ 2 ^ 53 - 1)
  | .infinity => false

/-- White space of JavaScript, in patterns as in `trim`. -/
def isSpaceJs (c : Char) : Bool :=
  (0x09 ≤ c.toNat && c.toNat ≤ 0x0D) || c = ' ' || c.toNat = 0xA0 || c.toNat = 0x1680 ||
    (0x2000 ≤ c.toNat && c.toNat ≤ 0x200A) || c.toNat = 0x2028 || c.toNat = 0x2029 ||
    c.toNat = 0x202F || c.toNat = 0x205F || c.toNat = 0x3000 || c.toNat = 0xFEFF

def trim (s : List Char) : List Char :=
  ((s.dropWhile isSpaceJs).reverse.dropWhile isSpaceJs).reverse

structure RateLimit where
  count : Nat
  windowSeconds : JsNumber
deriving DecidableEq

def unitSeconds (c : Char) : Nat :=
  if c = 's' then 1 else if c = 'm' then 60 else if c = 'h' then 3600 else 86400

/-- `parseRateLimit`: the limit, or the text of the error. -/
def parseRateLimit (text : String) : Except String (Option RateLimit) :=
  if trim text.toList = [] then .ok none
  else
    match matchLimit isSpaceJs text.toList with
    | none =>
      .error ("\"" ++ String.ofList (trim text.toList) ++
        "\" is not a limit; use <count>/<window> such as 100/6h")
    | some (count, n, unit) =>
      match JsNumber.ofDigits count with
      | .infinity => .error "The count must be a positive whole number."
      | .finite c =>
        if (JsNumber.finite c).isSafeInteger = false ∨ c = 0 then
          .error "The count must be a positive whole number."
        else if JsNumber.ofDigits n = .finite 0 then .error "The window must be positive."
        else .ok (some ⟨c, (JsNumber.ofDigits n).mul (unitSeconds unit)⟩)

/-! ## Trusted proxies -/

/-- A number up to 255 without leading zeros, by its digits:
`25[0-5]|2[0-4]\d|1\d\d|[1-9]?\d`. -/
def isOctetText : List Char → Bool
  | [a] => isDigit a
  | [a, b] => isDigit a && a != '0' && isDigit b
  | [a, b, c] =>
    (a == '1' && isDigit b && isDigit c) ||
      (a == '2' && b == '5' && isDigit c && decide (digit c ≤ 5)) ||
      (a == '2' && isDigit b && decide (digit b ≤ 4) && isDigit c)
  | _ => false

/-- `IPV4_RE`. -/
def isIPv4Text (s : List Char) : Bool :=
  let octets := s.splitOn '.'
  octets.length == 4 && octets.all isOctetText

/-- How many pieces `split("::")` makes. -/
def piecesAtEllipsis : List Char → Nat
  | ':' :: ':' :: s => piecesAtEllipsis s + 1
  | _ :: s => piecesAtEllipsis s
  | [] => 1

/-- `isAddress`: for IPv6 a look at the characters only. -/
def isAddress (s : List Char) : Bool :=
  isIPv4Text s ||
    (!s.isEmpty && s.all (fun c => isHexDigit c || c = ':' || c = '.') && s.contains ':' &&
      decide (piecesAtEllipsis s ≤ 2))

def isEntrySeparator (c : Char) : Bool := isSpaceJs c || c = ',' || c = ';'

def entryError (e : List Char) : Option String :=
  match e.splitOn '/' with
  | [address] =>
    if isAddress address then none
    else some ("\"" ++ String.ofList e ++ "\" is not a CIDR or IP address.")
  | [address, bits] =>
    if !isAddress address then
      some ("\"" ++ String.ofList e ++ "\" is not a CIDR or IP address.")
    else if bits.isEmpty || !bits.all isDigit ||
        decide ((if address.contains ':' then 128 else 32) < decimal bits) then
      some ("\"" ++ String.ofList e ++ "\" has an invalid prefix length.")
    else none
  | _ => some ("\"" ++ String.ofList e ++ "\" is not a CIDR or IP address.")

/-- `parseTrustedProxies`: the entries, and the first error. -/
def parseTrustedProxies (text : String) : List (List Char) × Option String :=
  let entries := fieldsFunc isEntrySeparator text.toList
  (entries, entries.findSome? entryError)

/-! ## The form -/

/-- The fields of the form, as they are sent. -/
structure RateLimitForm where
  anonymous : String
  authenticated : String
  trustedProxies : String
  apiAnonymous : String
  apiAuthenticated : String

structure RateLimitSection where
  anonymous : String
  authenticated : String
  trustedProxies : String
  apiAnonymous : String
  apiAuthenticated : String
deriving DecidableEq

def str (s : String) : String := String.ofList (trim s.toList)

/-- `s.replace(/\s+/g, "")`. -/
def withoutSpace (s : String) : String := String.ofList (s.toList.filter fun c => !isSpaceJs c)

def storedLimit (limit : Option RateLimit) (text : String) : String :=
  if limit.isSome then withoutSpace text else ""

/-- `entries.join(", ")`. -/
def joinEntries (entries : List (List Char)) : String :=
  String.ofList ([',', ' '].intercalate entries)

/-- `saveRateLimitSettings`: the stored section, or the error shown. -/
def saveRateLimitSettings (fd : RateLimitForm) : Except String RateLimitSection :=
  match parseRateLimit (str fd.anonymous) with
  | .error e => .error ("Anonymous limit: " ++ e)
  | .ok anon =>
    match parseRateLimit (str fd.authenticated) with
    | .error e => .error ("Authenticated limit: " ++ e)
    | .ok auth =>
      match parseTrustedProxies (str fd.trustedProxies) with
      | (_, some e) => .error ("Trusted proxies: " ++ e)
      | (entries, none) =>
        match parseRateLimit (str fd.apiAnonymous) with
        | .error e => .error ("API anonymous limit: " ++ e)
        | .ok apiAnon =>
          match parseRateLimit (str fd.apiAuthenticated) with
          | .error e => .error ("API authenticated limit: " ++ e)
          | .ok apiAuth => .ok {
              anonymous := storedLimit anon (str fd.anonymous)
              authenticated := storedLimit auth (str fd.authenticated)
              trustedProxies := joinEntries entries
              apiAnonymous := storedLimit apiAnon (str fd.apiAnonymous)
              apiAuthenticated := storedLimit apiAuth (str fd.apiAuthenticated) }

open GoJson in
def RateLimitSection.row (s : RateLimitSection) : JsonDoc :=
  .obj [("anonymous", .str (CodePoints.ofString s.anonymous)),
    ("authenticated", .str (CodePoints.ofString s.authenticated)),
    ("trustedProxies", .str (CodePoints.ofString s.trustedProxies)),
    ("apiAnonymous", .str (CodePoints.ofString s.apiAnonymous)),
    ("apiAuthenticated", .str (CodePoints.ofString s.apiAuthenticated))]

end Chicoree.RateLimits
