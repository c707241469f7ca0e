import Mathlib.Algebra.Order.Ring.Int
import Chicoree.Lib.Json

/-! # Addresses and prefixes

The texts of addresses and prefixes as `net/netip` reads them: dotted decimal without
leading zeros; eight groups of hexadecimal digits, or fewer around one `::`, of which the
last two may be written as dotted decimal; a zone after `%`. -/

namespace Chicoree.RateLimits

structure Addr where
  is4 : Bool
  value : Nat
  zone : String
deriving DecidableEq

structure Prefix where
  addr : Addr
  bits : Nat

def Addr.bitLen (a : Addr) : Nat := if a.is4 then 32 else 128

/-- `Prefix.Masked`: the bits behind the prefix are cleared. -/
def Prefix.masked (p : Prefix) : Prefix :=
  let low := 2 ^ (p.addr.bitLen - p.bits)
  ⟨⟨p.addr.is4, p.addr.value / low * low, ""⟩, p.bits⟩

/-! ## Digits -/

def isDigit (c : Char) : Bool := '0'.toNat ≤ c.toNat && c.toNat ≤ '9'.toNat

def digit (c : Char) : Nat := c.toNat - '0'.toNat

def decimal (s : List Char) : Nat := s.foldl (fun n c => 10 * n + digit c) 0

def isHexDigit (c : Char) : Bool :=
  isDigit c || ('a'.toNat ≤ c.toNat && c.toNat ≤ 'f'.toNat) ||
    ('A'.toNat ≤ c.toNat && c.toNat ≤ 'F'.toNat)

def hexDigit (c : Char) : Nat :=
  if isDigit c then digit c
  else if 'a'.toNat ≤ c.toNat then c.toNat - 'a'.toNat + 10
  else c.toNat - 'A'.toNat + 10

def hexadecimal (s : List Char) : Nat := s.foldl (fun n c => 16 * n + hexDigit c) 0

def isPlainDecimal (s : List Char) : Bool :=
  !s.isEmpty && s.all isDigit && (s.length == 1 || s.head? != some '0')

/-! ## Addresses -/

def isOctet (s : List Char) : Bool := isPlainDecimal s && decide (decimal s ≤ 255)

def isDotted (s : List Char) : Bool :=
  let octets := s.splitOn '.'
  octets.length == 4 && octets.all isOctet

def dottedValue (s : List Char) : Nat :=
  (s.splitOn '.').foldl (fun n o => 256 * n + decimal o) 0

def isGroup (s : List Char) : Bool := !s.isEmpty && s.all isHexDigit && decide (s.length ≤ 4)

/-- The fields of one side of `::`; the side may be empty. -/
def fields (s : List Char) : List (List Char) := if s.isEmpty then [] else s.splitOn ':'

/-- The 16-bit groups of a list of fields, where `tail` lets the last one be dotted. -/
def groups (tail : Bool) : List (List Char) → Option (List Nat)
  | [] => some []
  | [f] =>
    if isGroup f then some [hexadecimal f]
    else if tail && isDotted f then some [dottedValue f / 65536, dottedValue f % 65536]
    else none
  | f :: fs => if isGroup f then (groups tail fs).map (hexadecimal f :: ·) else none

/-- What stands before and after the first `::`. -/
def cutEllipsis : List Char → Option (List Char × List Char)
  | ':' :: ':' :: s => some ([], s)
  | c :: s => (cutEllipsis s).map fun (l, r) => (c :: l, r)
  | [] => none

def ipv6Groups (s : List Char) : Option (List Nat) :=
  match cutEllipsis s with
  | none =>
    match groups true (s.splitOn ':') with
    | some gs => if gs.length = 8 then some gs else none
    | none => none
  | some (l, r) =>
    match groups false (fields l), groups true (fields r) with
    | some ls, some rs =>
      -- the ellipsis stands for one group at least
      if ls.length + rs.length ≤ 7 then
        some (ls ++ List.replicate (8 - (ls.length + rs.length)) 0 ++ rs)
      else none
    | _, _ => none

def parseIPv4 (s : List Char) : Option Addr :=
  if isDotted s then some ⟨true, dottedValue s, ""⟩ else none

def parseIPv6 (s : List Char) : Option Addr :=
  let address := s.takeWhile (· ≠ '%')
  let zone := s.dropWhile (· ≠ '%')
  -- a zone, where there is one, is not empty
  if zone.length = 1 then none
  else (ipv6Groups address).map fun gs =>
    ⟨false, gs.foldl (fun n g => 65536 * n + g) 0, String.ofList (zone.drop 1)⟩

/-- `netip.ParseAddr`: the first of `.`, `:` and `%` decides. -/
def parseAddr (s : List Char) : Option Addr :=
  match s.find? fun c => c = '.' || c = ':' || c = '%' with
  | some '.' => parseIPv4 s
  | some ':' => parseIPv6 s
  | _ => none

def cutLastSlash (s : List Char) : Option (List Char × List Char) :=
  if '/' ∈ s then
    some ((s.reverse.dropWhile (· ≠ '/')).tail.reverse, (s.reverse.takeWhile (· ≠ '/')).reverse)
  else none

def parsePrefix (s : List Char) : Option Prefix :=
  match cutLastSlash s with
  | none => none
  | some (address, bits) =>
    match parseAddr address with
    | none => none
    | some a =>
      if a.zone ≠ "" then none
      else if isPlainDecimal bits && decide (decimal bits ≤ a.bitLen) then
        some ⟨a, decimal bits⟩
      else none

/-! ## Limits as registryd reads them

`internal/ratelimit`: a limit is a count and a window in nanoseconds, both 64-bit numbers;
the settings row is read over the defaults of the environment. -/

open GoJson JsonDoc

def maxInt64 : Int := 2 ^ 63 - 1

def int64 (x : Int) : Int := x.bmod (2 ^ 64)

/-- `strconv.ParseInt` of a text of digits: out of range it gives the largest number, and
an error with it. -/
def parseInt (s : List Char) : Int × Bool :=
  if (decimal s : Int) ≤ maxInt64 then (decimal s, true) else (maxInt64, false)

/-! ## Limits -/

/-- `Limit`: at most `count` requests in each window. -/
structure Limit where
  count : Int
  window : Int
deriving DecidableEq

def Limit.isZero (l : Limit) : Bool := decide (l.count ≤ 0) || decide (l.window ≤ 0)

def second : Int := 10 ^ 9
def minute : Int := 60 * second
def hour : Int := 60 * minute

/-- `FormatWindow`; division truncates. -/
def formatWindow (d : Int) : String :=
  if d.tmod (24 * hour) = 0 then toString (d.tdiv (24 * hour)) ++ "d"
  else if d.tmod hour = 0 then toString (d.tdiv hour) ++ "h"
  else if d.tmod minute = 0 then toString (d.tdiv minute) ++ "m"
  else toString (d.tdiv second) ++ "s"

def Limit.string (l : Limit) : String :=
  if l.isZero then "" else toString l.count ++ "/" ++ formatWindow l.window

def isSpaceRE2 (c : Char) : Bool :=
  c = '\t' || c = '\n' || c.toNat = 0x0C || c = '\r' || c = ' '

def isSpace (c : Char) : Bool :=
  (0x09 ≤ c.toNat && c.toNat ≤ 0x0D) || c = ' ' || c.toNat = 0x85 || c.toNat = 0xA0 ||
    c.toNat = 0x1680 || (0x2000 ≤ c.toNat && c.toNat ≤ 0x200A) || c.toNat = 0x2028 ||
    c.toNat = 0x2029 || c.toNat = 0x202F || c.toNat = 0x205F || c.toNat = 0x3000

def isUnit (c : Char) : Bool := c = 's' || c = 'm' || c = 'h' || c = 'd'

/-- What `^\s*(\d+)\s*/\s*(\d+)\s*([smhd])\s*$` captures, for a notion of white space. -/
def matchLimit (space : Char → Bool) (s : List Char) : Option (List Char × List Char × Char) :=
  let s := s.dropWhile space
  let count := s.takeWhile isDigit
  match (s.dropWhile isDigit).dropWhile space with
  | '/' :: s =>
    let s := s.dropWhile space
    let n := s.takeWhile isDigit
    match (s.dropWhile isDigit).dropWhile space with
    | unit :: s =>
      if count ≠ [] ∧ n ≠ [] ∧ isUnit unit = true ∧ s.dropWhile space = [] then
        some (count, n, unit)
      else none
    | [] => none
  | _ => none

inductive LimitError where
  | shape (s : String)
  | count (s : String)
  | window (s : String)
deriving DecidableEq

/-- The text of the error; `quote` is `%q`. -/
def LimitError.text (quote : String → String) : LimitError → String
  | .shape s =>
    "invalid rate limit " ++ quote s ++ ": expected <count>/<window>, e.g. 100/6h"
  | .count s => "invalid rate limit " ++ quote s ++ ": count must be a positive integer"
  | .window s => "invalid rate limit " ++ quote s ++ ": window must be positive"

def unitDuration (c : Char) : Int :=
  if c = 's' then second
  else if c = 'm' then minute
  else if c = 'h' then hour
  else if c = 'd' then 24 * hour
  else 0

/-- `ParseLimit`. An error of the window's number is not looked at, and the product is
64-bit arithmetic. -/
def parseLimit (s : String) : Except LimitError Limit :=
  if s.toList.all isSpace then .ok ⟨0, 0⟩
  else
    match matchLimit isSpaceRE2 s.toList with
    | none => .error (.shape s)
    | some (count, n, unit) =>
      if (parseInt count).2 = false ∨ (parseInt count).1 ≤ 0 then .error (.count s)
      else if (parseInt n).1 ≤ 0 then .error (.window s)
      else .ok ⟨(parseInt count).1, int64 ((parseInt n).1 * unitDuration unit)⟩

def isProxySeparator (c : Char) : Bool :=
  c = ',' || c = ';' || c = ' ' || c = '\n' || c = '\t' || c = '\r'

/-- The runs of characters between separators (`strings.FieldsFunc`). -/
def fieldsFunc (sep : Char → Bool) (s : List Char) : List (List Char) :=
  (s.splitOnP sep).filter fun f => !f.isEmpty

/-- The error names the entry; its text is
`invalid trusted proxy %q: expected a CIDR or IP address`. -/
structure ProxyError where
  entry : String

def ProxyError.text (quote : String → String) (e : ProxyError) : String :=
  "invalid trusted proxy " ++ quote e.entry ++ ": expected a CIDR or IP address"

def parseProxy (f : List Char) : Except ProxyError Prefix :=
  match parsePrefix f with
  | some p => .ok p.masked
  | none =>
    match parseAddr f with
    | some a => .ok ⟨{ a with zone := "" }, a.bitLen⟩
    | none => .error ⟨String.ofList f⟩

def parseCIDRs (s : String) : Except ProxyError (List Prefix) :=
  (fieldsFunc isProxySeparator s.toList).mapM parseProxy

structure Config where
  anonymous : Limit
  authenticated : Limit
  trustedProxies : List Prefix

structure Settings where
  anonymous : String
  authenticated : String
  trustedProxies : String

inductive ConfigError where
  /-- The row is no JSON object. -/
  | row
  | limit (e : LimitError)
  | proxy (e : ProxyError)

/-- `pick`: a field of the row that decodes into a string replaces the default; `null`
decodes into the empty string. -/
def pick (members : List (String × JsonDoc)) (field : String) (dflt : String) : String :=
  match last? field members with
  | some (.str s) => CodePoints.toText s
  | some .null => ""
  | _ => dflt

def effectiveSettings (members : List (String × JsonDoc)) (defaults : Settings) : Settings :=
  ⟨pick members "anonymous" defaults.anonymous, pick members "authenticated" defaults.authenticated,
    pick members "trustedProxies" defaults.trustedProxies⟩

def configOf (eff : Settings) : Except ConfigError Config :=
  match parseLimit eff.anonymous with
  | .error e => .error (.limit e)
  | .ok anonymous =>
    match parseLimit eff.authenticated with
    | .error e => .error (.limit e)
    | .ok authenticated =>
      match parseCIDRs eff.trustedProxies with
      | .error e => .error (.proxy e)
      | .ok trustedProxies => .ok ⟨anonymous, authenticated, trustedProxies⟩

def configFromSettings (raw : Option JsonDoc) (defaults : Settings) : Except ConfigError Config :=
  match raw with
  | none => configOf defaults
  | some (.obj members) => configOf (effectiveSettings members defaults)
  | some .null => configOf defaults
  | some _ => .error .row

end Chicoree.RateLimits
