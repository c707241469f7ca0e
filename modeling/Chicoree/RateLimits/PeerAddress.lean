import Chicoree.Lib.Trimming
import Chicoree.RateLimits.Form

/-! # The address registryd counts a pull under

`ClientIP`: the last hop of `X-Forwarded-For` where the connection comes from a trusted proxy,
the connection's own address otherwise. -/

namespace Chicoree.RateLimits

open List

/-! ## Addresses as text -/

/-- `Addr.Unmap`: an IPv4 address wrapped in an IPv6 one. -/
def Addr.unmap (a : Addr) : Addr :=
  if !a.is4 && decide (a.value / 2 ^ 32 = 0xFFFF) then ⟨true, a.value % 2 ^ 32, ""⟩ else a

def parts (base : Nat) : Nat → Nat → List Nat
  | 0, _ => []
  | n + 1, value => parts base n (value / base) ++ [value % base]

def dotted (value : Nat) : List Char :=
  [ '.'].intercalate ((parts 256 4 value).map (Nat.toDigits 10))

def leadingZeros (gs : List Nat) : Nat := (gs.takeWhile (· = 0)).length

/-- The first of the longest runs of zero groups, where one has at least two: where it
starts, and its length. -/
def zeroRun (gs : List Nat) : Option (Nat × Nat) :=
  (List.range gs.length).foldl (fun best i =>
    let n := leadingZeros (gs.drop i)
    if n ≥ 2 ∧ n > (best.map (·.2)).getD 0 then some (i, n) else best) none

def colons (gs : List Nat) : List Char := [ ':'].intercalate (gs.map (Nat.toDigits 16))

/-- The zero run, where there is one, is written `::`. -/
def grouped (value : Nat) : List Char :=
  let gs := parts 65536 8 value
  match zeroRun gs with
  | some (i, n) => colons (gs.take i) ++ [ ':', ':'] ++ colons (gs.drop (i + n))
  | none => colons gs

/-- `Addr.String` of an address that wraps no other. -/
def Addr.text (a : Addr) : String :=
  if a.is4 then String.ofList (dotted a.value)
  else String.ofList (grouped a.value ++ if a.zone = "" then [] else '%' :: a.zone.toList)

example : (Addr.mk true 3405803781 "").text = "203.0.113.5" := by decide +kernel
example : (Addr.mk false 42540766411282592856903984951653826561 "").text = "2001:db8::1" := by
  decide +kernel

variable {x : Char} {a b : List Char}

theorem intercalate_ne_nil {rest : List (List Char)} : [x].intercalate (a :: b :: rest) ≠ [] := by
  rw [intercalate_cons_cons]
  simp

theorem Addr.text_ne_empty (a : Addr) : a.text ≠ "" := by
  unfold Addr.text
  split
  · have hdotted : dotted a.value ≠ [] := intercalate_ne_nil
    intro h
    exact hdotted (String.ofList_eq_empty_iff.mp h)
  · have hgrouped : grouped a.value ≠ [] := by
      unfold grouped
      simp only
      split
      · simp
      · exact intercalate_ne_nil
    intro h
    exact hgrouped (append_eq_nil_iff.mp (String.ofList_eq_empty_iff.mp h)).1

/-! ## ClientIP -/

/-- `Prefix.Contains`: no prefix contains an address with a zone. -/
def Prefix.contains (p : Prefix) (a : Addr) : Bool :=
  let low := 2 ^ (p.addr.bitLen - p.bits)
  decide (a.zone = "") && decide (p.addr.is4 = a.is4) &&
    decide (p.addr.value / low = a.value / low)

def contains (prefixes : List Prefix) (a : Addr) : Bool :=
  prefixes.any fun p => decide (p.addr.is4 = a.is4) && p.contains a

def cutLastColon (s : List Char) : Option (List Char × List Char) :=
  if ':' ∈ s then
    some ((s.reverse.dropWhile (· ≠ ':')).tail.reverse, (s.reverse.takeWhile (· ≠ ':')).reverse)
  else none

/-- `net.SplitHostPort`: a host with colons stands in brackets. -/
def splitHostPort (s : List Char) : Option (List Char × List Char) :=
  match cutLastColon s with
  | none => none
  | some (before, port) =>
    match s with
    | '[' :: rest =>
      let host := rest.takeWhile (· ≠ ']')
      -- the bracket closes right before the last colon
      if before = '[' :: (host ++ [ ']']) ∧ '[' ∉ host ∧ '[' ∉ port ∧ ']' ∉ port then
        some (host, port)
      else none
    | _ =>
      if ':' ∈ before ∨ '[' ∈ s ∨ ']' ∈ s then none else some (before, port)

def isBracket (c : Char) : Bool := c = '[' || c = ']'

/-- `strings.Trim(s, "[]")` -/
def trimBrackets (s : List Char) : List Char :=
  ((s.dropWhile isBracket).reverse.dropWhile isBracket).reverse

def trimSpace (s : List Char) : List Char :=
  ((s.dropWhile isSpace).reverse.dropWhile isSpace).reverse

def lastHop (s : List Char) : List Char := (s.reverse.takeWhile (· ≠ ',')).reverse

/-- `ClientIP`; an address that does not parse is counted as it is written. -/
def clientIPOf (remoteAddr forwardedFor : String) (trusted : List Prefix) : String :=
  let host := ((splitHostPort remoteAddr.toList).map (·.1)).getD remoteAddr.toList
  match parseAddr (trimBrackets host) with
  | none => remoteAddr
  | some a =>
    let peer := a.unmap
    if forwardedFor ≠ "" ∧ contains trusted peer = true then
      match parseAddr (trimSpace (lastHop forwardedFor.toList)) with
      | some last => last.unmap.text
      | none => peer.text
    else peer.text

/-- A letter, a digit or a sign of ASCII that neither separates hops nor encloses a host. -/
def isPlain (c : Char) : Bool :=
  0x21 ≤ c.toNat && c.toNat ≤ 0x7E && c ≠ ',' && !isBracket c

/-- The other end of a connection: its address as a socket prints it, and its port. -/
structure Peer where
  host : List Char
  port : List Char
  addr : Addr
  parses : parseAddr host = some addr
  plain : host.all isPlain = true
  number : port.all isDigit = true

def Peer.text (p : Peer) : String := p.addr.unmap.text

/-- `RemoteAddr`: a host with colons stands in brackets. -/
def Peer.remoteAddr (p : Peer) : String :=
  String.ofList (if ':' ∈ p.host then '[' :: (p.host ++ [ ']']) ++ ':' :: p.port
    else p.host ++ ':' :: p.port)

/-! ## Reading a connection -/

variable {c : Char}

theorem isPlain_iff : isPlain c = true ↔
    (0x21 ≤ c.toNat ∧ c.toNat ≤ 0x7E) ∧ c ≠ ',' ∧ isBracket c = false := by
  unfold isPlain
  simp only [Bool.and_eq_true, decide_eq_true_eq, Bool.not_eq_true', and_assoc]

theorem ne_blank_of_plain (h : isPlain c = true) : c ≠ ' ' := by
  rintro rfl
  cases h

theorem isSpace_plain (h : isPlain c = true) : isSpace c = false := by
  have hrange := (isPlain_iff.mp h).1
  simp only [isSpace, Bool.or_eq_false_iff, Bool.and_eq_false_iff, decide_eq_false_iff_not,
    ne_blank_of_plain h, not_false_eq_true, and_true]
  omega

theorem isSpaceJs_plain (h : isPlain c = true) : isSpaceJs c = false := by
  have hrange := (isPlain_iff.mp h).1
  simp only [isSpaceJs, Bool.or_eq_false_iff, Bool.and_eq_false_iff, decide_eq_false_iff_not,
    ne_blank_of_plain h, not_false_eq_true, and_true]
  omega

theorem trimmed_of_none {p : Char → Bool} {s : List Char} (h : ∀ c ∈ s, p c = false) :
    ((s.dropWhile p).reverse.dropWhile p).reverse = s := by
  have htrim : Trimming.trim p ([] ++ s ++ []) = s := Trimming.trim_between nofun nofun h
  rwa [append_nil] at htrim

theorem cutLastColon_append (h : ':' ∉ b) : cutLastColon (a ++ ':' :: b) = some (a, b) := by
  unfold cutLastColon
  rw [if_pos (by simp), (Trimming.cut_last h).1, (Trimming.cut_last h).2]

namespace Peer

variable (p : Peer)

theorem plain_of_mem (hc : c ∈ p.host) : isPlain c = true :=
  all_eq_true.mp p.plain c hc

theorem noBracket (hc : c ∈ p.host) : isBracket c = false :=
  (isPlain_iff.mp (p.plain_of_mem hc)).2.2

theorem host_ne_nil : p.host ≠ [] := by
  intro h
  have hparses := p.parses
  rw [h] at hparses
  cases hparses

theorem not_mem_port (hx : isDigit x = false) : x ∉ p.port := by
  intro h
  have hdigit := all_eq_true.mp p.number x h
  rw [hx] at hdigit
  cases hdigit

theorem not_mem_host (hx : isBracket x = true) : x ∉ p.host := by
  intro h
  have hno := p.noBracket h
  rw [hx] at hno
  cases hno

theorem splitHostPort_remoteAddr : splitHostPort p.remoteAddr.toList = some (p.host, p.port) := by
  have hport := p.not_mem_port (x := ':') (by decide)
  have hopen := p.not_mem_port (x := '[') (by decide)
  have hclose := p.not_mem_port (x := ']') (by decide)
  have hopen' := p.not_mem_host (x := '[') (by decide)
  have hclose' := p.not_mem_host (x := ']') (by decide)
  unfold remoteAddr
  rw [String.toList_ofList]
  by_cases hcolon : ':' ∈ p.host
  · have hhost : (p.host ++ [ ']'] ++ ':' :: p.port).takeWhile (· ≠ ']') = p.host := by
      have hkept : ∀ c ∈ p.host, decide (c ≠ ']') = true := by
        intro c hc
        refine decide_eq_true ?_
        rintro rfl
        exact hclose' hc
      rw [append_assoc, takeWhile_append_of_pos hkept]
      simp
    rw [if_pos hcolon]
    unfold splitHostPort
    rw [cutLastColon_append hport]
    show (if _ ∧ '[' ∉ List.takeWhile _ (p.host ++ [ ']'] ++ ':' :: p.port) ∧ _ then _ else _) = _
    rw [if_pos ⟨congrArg (fun h => '[' :: (h ++ [ ']'])) hhost.symm, hhost.symm ▸ hopen', hopen,
      hclose⟩]
    exact congrArg (fun h => some (h, p.port)) hhost
  · rw [if_neg hcolon]
    unfold splitHostPort
    rw [cutLastColon_append hport]
    obtain ⟨c, cs, hcs⟩ := exists_cons_of_ne_nil p.host_ne_nil
    have hc : c ≠ '[' := by
      rintro rfl
      exact hopen' (by rw [hcs]; exact mem_cons_self)
    have hall : ¬(':' ∈ p.host ∨ '[' ∈ p.host ++ ':' :: p.port ∨ ']' ∈ p.host ++ ':' :: p.port) := by
      simp [hcolon, hopen, hclose, hopen', hclose']
    split
    · rename_i hcut
      cases hcut
    · rename_i before port hcut
      cases hcut
      split
      · rename_i rest hrest
        rw [hcs] at hrest
        exact absurd (List.cons.inj hrest).1 hc
      · rw [if_neg hall]

theorem trimBrackets_host : trimBrackets p.host = p.host :=
  trimmed_of_none fun _ hc => p.noBracket hc

theorem trimSpace_host : trimSpace p.host = p.host :=
  trimmed_of_none fun _ hc => isSpace_plain (p.plain_of_mem hc)

theorem comma_not_mem : ',' ∉ p.host := by
  intro h
  exact (isPlain_iff.mp (p.plain_of_mem h)).2.1 rfl

theorem clientIPOf_remoteAddr (forwardedFor : String) (trusted : List Prefix) :
    clientIPOf p.remoteAddr forwardedFor trusted =
      if forwardedFor ≠ "" ∧ contains trusted p.addr.unmap = true then
        match parseAddr (trimSpace (lastHop forwardedFor.toList)) with
        | some last => last.unmap.text
        | none => p.text
      else p.text := by
  unfold clientIPOf
  simp only [p.splitHostPort_remoteAddr, Option.map_some, Option.getD_some,
    p.trimBrackets_host, p.parses]
  rfl

end Peer

end Chicoree.RateLimits
