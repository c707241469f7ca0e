import Mathlib.Data.List.TakeWhile
import Chicoree.Logins.LoginThrottle
import Chicoree.RateLimits.Counters
import Chicoree.RateLimits.PeerAddress

/-! # The address a client is counted under

`clientIp` of the web app and `ClientIP` of registryd, on the headers that a request arrives
with: directly, or through a trusted proxy that appends its peer to `X-Forwarded-For`. The
registry takes the hop that the proxy wrote; the web app takes the first one, which is the
client's own as soon as it sends any. -/

namespace Chicoree.RateLimits

open List Option

/-! ## clientIp -/

/-- Header values; `Headers.get` joins the lines of one name. -/
structure Headers where
  forwardedFor : Option String
  realIp : Option String
  cfConnectingIp : Option String

def firstHop (s : List Char) : List Char := s.takeWhile (· ≠ ',')

/-- `s.trim().slice(0, 64)` -/
def cut (s : List Char) : String := String.ofList ((trim s).take 64)

def orNull (s : String) : Option String := if s = "" then none else some s

def clientIp : Option Headers → Option String
  | none => none
  | some h =>
    match h.forwardedFor.bind orNull with
    | some fwd => orNull (cut (firstHop fwd.toList))
    | none => (h.realIp.or h.cfConnectingIp).bind fun v => orNull (cut v.toList)

/-! ## Requests -/

/-- What a client writes into the headers of its request; `forwardedFor` by lines. -/
structure Sent where
  forwardedFor : List String := []
  realIp : Option String := none
  cfConnectingIp : Option String := none

/-- How a request comes to the two programs. -/
inductive Route where
  | proxied (proxy : Peer)
  | direct

def joined (lines : List String) : String := String.intercalate ", " lines

section requests

variable (adds : List Char → Option String) (peer : Peer)

/-- The headers the web app reads. `adds` is what its server makes of the address of a
connection whose request has no `X-Forwarded-For`. -/
def webHeaders (sent : Sent) : Route → Headers
  | .proxied _ =>
    ⟨some (joined (sent.forwardedFor ++ [String.ofList peer.host])), sent.realIp,
      sent.cfConnectingIp⟩
  | .direct =>
    let forwardedFor :=
      if sent.forwardedFor = [] then adds peer.host else some (joined sent.forwardedFor)
    ⟨forwardedFor, sent.realIp, sent.cfConnectingIp⟩

/-- The address of the connection and the `X-Forwarded-For` that registryd reads: the first
line, empty where there is none. -/
def registryRequest (sent : Sent) : Route → String × String
  | .proxied proxy =>
    (proxy.remoteAddr, joined (sent.forwardedFor ++ [String.ofList peer.host]))
  | .direct => (peer.remoteAddr, sent.forwardedFor.head?.getD "")

/-- The proxy is one of the trusted ones, and a client that connects itself is none. -/
def Route.Trusted (trusted : List Prefix) : Route → Prop
  | .proxied proxy => contains trusted proxy.addr.unmap = true
  | .direct => contains trusted peer.addr.unmap = false

/-- What a request is counted under: failed logins, requests of the API, the audit log, and
pulls. -/
structure CountedAs where
  login : Option String
  api : String
  audit : Option String
  pull : String
deriving DecidableEq

def webAddress (sent : Sent) (route : Route) : Option String :=
  clientIp (some (webHeaders adds peer sent route))

def registryAddress (trusted : List Prefix) (sent : Sent) (route : Route) : String :=
  let rq := registryRequest peer sent route
  clientIPOf rq.1 rq.2 trusted

def counted (trusted : List Prefix) (sent : Sent) (route : Route) : CountedAs :=
  let ip := webAddress adds peer sent route
  ⟨Logins.ipKey ip, keyFor .anonymous ip, ip, "ip:" ++ registryAddress peer trusted sent route⟩

/-- Two requests of one peer count under the same keys, whatever it sends, and each under
one address in both programs. -/
structure Unchosen (trusted : List Prefix) (route : Route) (sent sent' : Sent) : Prop where
  same : counted adds peer trusted sent route = counted adds peer trusted sent' route
  agree : webAddress adds peer sent route = some (registryAddress peer trusted sent route)
  agree' : webAddress adds peer sent' route = some (registryAddress peer trusted sent' route)

/-- **The condition on a request**: the first address in it is the text of the peer's own.
It is the first hop the client sent; without one, what the proxy appends, or what the server
adds; and where no `X-Forwarded-For` arrives at all, what the client sent in its place. -/
inductive NamesItself (route : Route) (sent : Sent) : Prop where
  | forwards {line : String} {lines : List String} : sent.forwardedFor = line :: lines →
      cut (firstHop line.toList) = peer.text → NamesItself route sent
  | appended {proxy : Peer} : route = .proxied proxy → sent.forwardedFor = [] →
      cut peer.host = peer.text → NamesItself route sent
  | added {v : String} : route = .direct → sent.forwardedFor = [] → adds peer.host = some v →
      cut (firstHop v.toList) = peer.text → NamesItself route sent
  | replaced {v : String} : route = .direct →
      (sent.forwardedFor = [] ∧ (adds peer.host).bind orNull = none ∨ sent.forwardedFor = [""]) →
      sent.realIp.or sent.cfConnectingIp = some v → cut v.toList = peer.text →
      NamesItself route sent

end requests

theorem orNull_eq_some {s t : String} (ht : t ≠ "") : orNull s = some t ↔ s = t := by
  unfold orNull
  constructor
  · intro h
    split at h <;> cases h
    rfl
  · rintro rfl
    rw [if_neg ht]

theorem takeWhile_append_stop {p : Char → Bool} {x : Char} (hx : p x = false)
    (s t : List Char) : (s ++ x :: t).takeWhile p = s.takeWhile p := by
  rw [takeWhile_append]
  split
  · rename_i hall
    rw [takeWhile_cons, hx, if_neg (by simp), append_nil]
    exact ((List.takeWhile_prefix p).eq_of_length hall).symm
  · rfl

theorem firstHop_joined (line : String) (lines : List String) :
    firstHop (joined (line :: lines)).toList = firstHop line.toList := by
  unfold joined
  by_cases hlines : lines = []
  · rw [hlines, String.intercalate_singleton]
  · rw [String.intercalate_cons_of_ne_nil hlines, String.append_assoc, String.toList_append,
      String.toList_append]
    exact takeWhile_append_stop (by decide) _ _

theorem joined_eq_empty {line : String} {lines : List String} :
    joined (line :: lines) = "" ↔ line = "" ∧ lines = [] := by
  unfold joined
  by_cases hlines : lines = []
  · rw [hlines, String.intercalate_singleton]
    simp
  · rw [String.intercalate_cons_of_ne_nil hlines]
    constructor
    · intro h
      have hlist := congrArg String.toList h
      simp [String.toList_append] at hlist
    · intro h
      exact absurd h.2 hlines

theorem lastHop_joined (lines : List String) (peer : Peer) :
    trimSpace (lastHop (joined (lines ++ [String.ofList peer.host])).toList) = peer.host := by
  unfold joined lastHop
  by_cases hlines : lines = []
  · have hhost : peer.host.reverse.takeWhile (· ≠ ',') = peer.host.reverse := by
      rw [takeWhile_eq_self_iff]
      intro c hc
      refine decide_eq_true ?_
      rintro rfl
      exact peer.comma_not_mem (mem_reverse.mp hc)
    rw [hlines, nil_append, String.intercalate_singleton, String.toList_ofList, hhost,
      reverse_reverse]
    exact peer.trimSpace_host
  · have hcomma : ',' ∉ ' ' :: peer.host := by
      simp [peer.comma_not_mem]
    rw [String.intercalate_append_of_ne_nil hlines (by simp), String.intercalate_singleton]
    simp only [String.toList_append, String.toList_ofList, append_assoc]
    refine (congrArg trimSpace (Trimming.cut_last hcomma).2).trans ?_
    unfold trimSpace
    rw [dropWhile_cons_of_pos (by decide)]
    exact peer.trimSpace_host

/-! ## What each program counts -/

section counts

variable {adds : List Char → Option String} {peer : Peer} {trusted : List Prefix}
  {route : Route} {sent : Sent}

theorem registryAddress_eq (hroute : route.Trusted peer trusted) :
    registryAddress peer trusted sent route = peer.text := by
  cases route with
  | proxied proxy =>
    have htrusted : contains trusted proxy.addr.unmap = true := hroute
    show clientIPOf proxy.remoteAddr (joined _) trusted = _
    rw [proxy.clientIPOf_remoteAddr, lastHop_joined, peer.parses]
    split
    · rfl
    · rename_i hnot
      refine absurd ⟨?_, htrusted⟩ hnot
      intro hempty
      have hlast := lastHop_joined sent.forwardedFor peer
      rw [hempty] at hlast
      exact peer.host_ne_nil hlast.symm
  | direct =>
    have hother : contains trusted peer.addr.unmap = false := hroute
    show clientIPOf peer.remoteAddr _ trusted = _
    rw [peer.clientIPOf_remoteAddr, if_neg]
    rw [hother]
    simp

theorem clientIp_forwarded {fwd : String} (h : fwd ≠ "") (realIp cf : Option String) :
    clientIp (some ⟨some fwd, realIp, cf⟩) = orNull (cut (firstHop fwd.toList)) := by
  have hset : (some fwd).bind orNull = some fwd := (orNull_eq_some h).mpr rfl
  simp only [clientIp, hset]

theorem clientIp_replaced {fwd : Option String} (h : fwd.bind orNull = none)
    (realIp cf : Option String) :
    clientIp (some ⟨fwd, realIp, cf⟩) = (realIp.or cf).bind fun v => orNull (cut v.toList) := by
  simp only [clientIp, h]

theorem firstHop_host (peer : Peer) : firstHop peer.host = peer.host := by
  unfold firstHop
  rw [takeWhile_eq_self_iff]
  intro c hc
  refine decide_eq_true ?_
  rintro rfl
  exact peer.comma_not_mem hc

/-- Through a proxy the web app counts a request under the first hop the client sent, or
the one that the proxy appended. -/
theorem webAddress_proxied (proxy : Peer) :
    webAddress adds peer sent (.proxied proxy) = some peer.text ↔
      NamesItself adds peer (.proxied proxy) sent := by
  have htext : peer.text ≠ "" := peer.addr.unmap.text_ne_empty
  cases hsent : sent.forwardedFor with
  | nil =>
    have hjoined : joined (sent.forwardedFor ++ [String.ofList peer.host]) =
        String.ofList peer.host := by
      rw [hsent]
      exact String.intercalate_singleton
    have hhost : String.ofList peer.host ≠ "" := by
      intro h
      exact peer.host_ne_nil (String.ofList_eq_empty_iff.mp h)
    have hweb : webAddress adds peer sent (.proxied proxy) = orNull (cut peer.host) := by
      unfold webAddress webHeaders
      rw [hjoined, clientIp_forwarded hhost, String.toList_ofList, firstHop_host]
    rw [hweb, orNull_eq_some htext]
    constructor
    · intro h
      exact .appended rfl hsent h
    · rintro (⟨hline, -⟩ | ⟨-, -, h⟩ | ⟨hroute, -⟩ | ⟨hroute, -⟩)
      · rw [hsent] at hline
        cases hline
      · exact h
      · cases hroute
      · cases hroute
  | cons line lines =>
    have hweb : webAddress adds peer sent (.proxied proxy) =
        orNull (cut (firstHop line.toList)) := by
      unfold webAddress webHeaders
      rw [hsent, cons_append, clientIp_forwarded, firstHop_joined]
      intro hempty
      exact absurd (joined_eq_empty.mp hempty).2 (by simp)
    rw [hweb, orNull_eq_some htext]
    constructor
    · intro h
      exact .forwards hsent h
    · rintro (⟨hline, h⟩ | ⟨-, hnone, -⟩ | ⟨hroute, -⟩ | ⟨hroute, -⟩)
      · rw [hsent] at hline
        cases hline
        exact h
      · rw [hsent] at hnone
        cases hnone
      · cases hroute
      · cases hroute

/-- Directly it counts it under the first hop the client sent, or what the server added; and
without either under the headers that stand in for it. -/
theorem webAddress_direct : webAddress adds peer sent .direct = some peer.text ↔
      NamesItself adds peer .direct sent := by
  have htext : peer.text ≠ "" := peer.addr.unmap.text_ne_empty
  have hstand : ∀ fwd : Option String, fwd.bind orNull = none →
      (clientIp (some ⟨fwd, sent.realIp, sent.cfConnectingIp⟩) = some peer.text ↔
        ∃ v, sent.realIp.or sent.cfConnectingIp = some v ∧ cut v.toList = peer.text) := by
    intro fwd hfwd
    rw [clientIp_replaced hfwd, bind_eq_some_iff]
    refine exists_congr fun v => and_congr_right fun _ => ?_
    exact orNull_eq_some htext
  cases hsent : sent.forwardedFor with
  | nil =>
    have hweb : webAddress adds peer sent .direct =
        clientIp (some ⟨adds peer.host, sent.realIp, sent.cfConnectingIp⟩) := by
      unfold webAddress webHeaders
      simp only [hsent, if_true]
    rw [hweb]
    cases hadds : (adds peer.host).bind orNull with
    | none =>
      rw [hstand _ hadds]
      constructor
      · rintro ⟨v, hv, h⟩
        exact .replaced rfl (.inl ⟨hsent, hadds⟩) hv h
      · rintro (⟨hline, -⟩ | ⟨hroute, -⟩ | ⟨-, -, hv, h⟩ | ⟨-, -, hv, h⟩)
        · rw [hsent] at hline
          cases hline
        · cases hroute
        · rename_i v
          rw [hv, bind_some] at hadds
          have hempty : v = "" := by
            by_contra hne
            rw [(orNull_eq_some hne).mpr rfl] at hadds
            cases hadds
          subst hempty
          exact absurd h.symm htext
        · exact ⟨_, hv, h⟩
    | some v =>
      obtain ⟨v', hv', hor⟩ := bind_eq_some_iff.mp hadds
      have hne : v' ≠ "" := by
        rintro rfl
        cases hor
      rw [hv', clientIp_forwarded hne, orNull_eq_some htext]
      constructor
      · intro h
        exact .added rfl hsent hv' h
      · rintro (⟨hline, -⟩ | ⟨hroute, -⟩ | ⟨-, -, hv, h⟩ | ⟨-, hnone, -⟩)
        · rw [hsent] at hline
          cases hline
        · cases hroute
        · rw [hv'] at hv
          cases hv
          exact h
        · rcases hnone with ⟨-, hnone⟩ | hline
          · rw [hnone] at hadds
            cases hadds
          · rw [hsent] at hline
            cases hline
  | cons line lines =>
    have hweb : webAddress adds peer sent .direct = clientIp
        (some ⟨some (joined (line :: lines)), sent.realIp, sent.cfConnectingIp⟩) := by
      unfold webAddress webHeaders
      simp only [hsent, reduceCtorEq, if_false]
    rw [hweb]
    by_cases hempty : joined (line :: lines) = ""
    · obtain ⟨rfl, rfl⟩ := joined_eq_empty.mp hempty
      have hnone : (some (joined [""])).bind orNull = none := by
        rw [hempty]
        rfl
      rw [hstand _ hnone]
      constructor
      · rintro ⟨v, hv, h⟩
        exact .replaced rfl (.inr hsent) hv h
      · rintro (⟨hline, h⟩ | ⟨hroute, -⟩ | ⟨-, hnil, -⟩ | ⟨-, -, hv, h⟩)
        · rw [hsent] at hline
          cases hline
          exact absurd h.symm htext
        · cases hroute
        · rw [hsent] at hnil
          cases hnil
        · exact ⟨_, hv, h⟩
    · rw [clientIp_forwarded hempty, firstHop_joined, orNull_eq_some htext]
      constructor
      · intro h
        exact .forwards hsent h
      · rintro (⟨hline, h⟩ | ⟨hroute, -⟩ | ⟨-, hnil, -⟩ | ⟨-, hnone, -⟩)
        · rw [hsent] at hline
          cases hline
          exact h
        · cases hroute
        · rw [hsent] at hnil
          cases hnil
        · rcases hnone with ⟨hnil, -⟩ | hline
          · rw [hsent] at hnil
            cases hnil
          · rw [hsent] at hline
            cases hline
            exact absurd String.intercalate_singleton hempty

theorem webAddress_iff :
    webAddress adds peer sent route = some peer.text ↔ NamesItself adds peer route sent := by
  cases route with
  | proxied proxy => exact webAddress_proxied proxy
  | direct => exact webAddress_direct

/-- **Whose address it is**: two requests of one peer count alike, and under one address in
both programs, exactly when the first address in each of them is the peer's own. -/
theorem address_unchosen (hroute : route.Trusted peer trusted) (sent sent' : Sent) :
    Unchosen adds peer trusted route sent sent' ↔
      NamesItself adds peer route sent ∧ NamesItself adds peer route sent' := by
  have hregistry : registryAddress peer trusted sent route = peer.text := registryAddress_eq hroute
  have hregistry' : registryAddress peer trusted sent' route = peer.text :=
    registryAddress_eq hroute
  constructor
  · intro h
    have hagree := h.agree
    have hagree' := h.agree'
    rw [hregistry] at hagree
    rw [hregistry'] at hagree'
    exact ⟨webAddress_iff.mp hagree, webAddress_iff.mp hagree'⟩
  · rintro ⟨h, h'⟩
    have hweb := webAddress_iff.mpr h
    have hweb' := webAddress_iff.mpr h'
    refine ⟨?_, hweb.trans (congrArg some hregistry.symm),
      hweb'.trans (congrArg some hregistry'.symm)⟩
    unfold counted
    rw [hweb, hweb', hregistry, hregistry']

end counts

def visitor : Peer where
  host := "203.0.113.5".toList
  port := "41000".toList
  addr := ⟨true, 3405803781, ""⟩
  parses := by decide +kernel
  plain := by decide +kernel
  number := by decide +kernel

def reverseProxy : Peer where
  host := "10.0.0.2".toList
  port := "55000".toList
  addr := ⟨true, 167772162, ""⟩
  parses := by decide +kernel
  plain := by decide +kernel
  number := by decide +kernel

def privateNetwork : List Prefix := [⟨⟨true, 167772160, ""⟩, 8⟩]

def addsAddress (host : List Char) : Option String := some (String.ofList host)

theorem address_unchosen_visitor :
    Unchosen addsAddress visitor privateNetwork (.proxied reverseProxy) {}
      { realIp := some "198.51.100.7" } := by
  have htrusted : (Route.proxied reverseProxy).Trusted visitor privateNetwork :=
    show contains _ _ = true by decide +kernel
  have hcut : cut visitor.host = visitor.text := by decide +kernel
  exact (address_unchosen htrusted {} { realIp := some "198.51.100.7" }).mpr
    ⟨.appended rfl rfl hcut, .appended rfl rfl hcut⟩

/-- Through the trusted proxy, one line of `X-Forwarded-For` is enough to be counted as
someone else by the web app, while registryd counts the client itself. -/
theorem address_chosen : (Route.proxied reverseProxy).Trusted visitor privateNetwork ∧
      webAddress addsAddress visitor { forwardedFor := ["198.51.100.7"] }
        (.proxied reverseProxy) = some "198.51.100.7" ∧
      registryAddress visitor privateNetwork { forwardedFor := ["198.51.100.7"] }
        (.proxied reverseProxy) = "203.0.113.5" ∧
      (counted addsAddress visitor privateNetwork { forwardedFor := ["198.51.100.7"] }
        (.proxied reverseProxy)).login = some "ip:198.51.100.7" ∧
      (counted addsAddress visitor privateNetwork {} (.proxied reverseProxy)).login =
        some "ip:203.0.113.5" ∧
      ¬ Unchosen addsAddress visitor privateNetwork (.proxied reverseProxy) {}
        { forwardedFor := ["198.51.100.7"] } := by
  have hforged : counted addsAddress visitor privateNetwork
      { forwardedFor := ["198.51.100.7"] } (.proxied reverseProxy) =
        ⟨some "ip:198.51.100.7", "api|ip:198.51.100.7", some "198.51.100.7", "ip:203.0.113.5"⟩ := by
    decide +kernel
  have hplain : counted addsAddress visitor privateNetwork {} (.proxied reverseProxy) =
      ⟨some "ip:203.0.113.5", "api|ip:203.0.113.5", some "203.0.113.5", "ip:203.0.113.5"⟩ := by
    decide +kernel
  refine ⟨show contains _ _ = true by decide +kernel, by decide +kernel, by decide +kernel,
    by rw [hforged], by rw [hplain], ?_⟩
  intro h
  have hsame := h.same
  rw [hforged, hplain] at hsame
  exact absurd hsame (by decide)

end Chicoree.RateLimits
