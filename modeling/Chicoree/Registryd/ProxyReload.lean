import Mathlib.Algebra.Order.Ring.Int
import Chicoree.Lib.Flight
import Chicoree.Lib.Machine
import Chicoree.Lib.Table
import Chicoree.RateLimits.Settings

/-! # Reloading the proxy configuration

The cached configuration of `proxy.go`: lookups that load it or refresh it in the background,
and the requests of the web app that force a reload. All of them share one call; a caller that
comes too soon after another runs nothing in it. -/

namespace Chicoree.Registryd

open Transition List Option
open RateLimits (isSpace)

/-! ## Configuration -/

/-- One entry of what the web app answers. -/
structure ProxyConfig where
  organizationId : String
  slug : String
  upstreamUrl : String
  username : String := ""
  password : String := ""
  allowedPatterns : String := ""
  tagTtlSeconds : Int := 0
  enabled : Bool := true

/-- The effective configuration of one organization. -/
structure CachedProxy where
  orgId : String
  slug : String
  upstream : String
  patterns : String
  /-- In seconds. -/
  ttl : Int
  enabled : Bool
  username : String
  password : String
deriving DecidableEq

/-- `strings.TrimRight(strings.TrimSpace(url), "/")` -/
def trimUpstream (url : String) : String :=
  let trimmed := ((url.toList.dropWhile isSpace).reverse.dropWhile isSpace)
  String.ofList (trimmed.dropWhile (· = '/')).reverse

def cachedProxy (c : ProxyConfig) : CachedProxy where
  orgId := c.organizationId
  slug := c.slug
  upstream := trimUpstream c.upstreamUrl
  patterns := c.allowedPatterns
  ttl := if c.tagTtlSeconds ≤ 0 then 300 else c.tagTtlSeconds
  enabled := c.enabled
  username := c.username
  password := c.password

def loadProxies (body : List ProxyConfig) : List CachedProxy :=
  body.foldl (fun next c =>
    if c.slug = "" ∨ c.organizationId = "" then next
    else Table.upsert CachedProxy.slug (cachedProxy c) next) []

/-- What a shared call does: `fetch`, as far as it has come, or nothing. -/
inductive ConfigWork where
  | nothing
  | sent
  /-- The web app has answered; so many requests had begun when it read its tables. -/
  | read (body : List ProxyConfig) (asOf : Nat)
  | written

/-! ## The cache -/

/-- Times are in milliseconds. -/
structure ProxyRegistry where
  /-- What the web app would answer. -/
  web : List ProxyConfig
  bySlug : List CachedProxy := []
  fetchedAt : Option Int := none
  lastAttempt : Option Int := none
  refresh : List (Flight.Call Unit ConfigWork) := []
  now : Int
  /-- How many requests have begun. -/
  begun : Nat := 0
  /-- How many had when the configuration at hand was read. -/
  asOf : Nat := 0
  /-- The last of the requests that were answered. -/
  answered : Nat := 0

def proxyConfigTTL : Int := 60000
def proxyRefreshMinGap : Int := 5000

/-- `reload` -/
inductive ReloadPc where
  | throttle
  | share (throttled : Bool)
  | wait (call : Nat)
  | done
deriving DecidableEq

/-- One step of `reload`. A caller whose context ends stops waiting. -/
def reloadAct (s : ProxyRegistry) (pc : ReloadPc) (cancelled : Bool) :
    Option (ProxyRegistry × ReloadPc) :=
  match pc with
  | .throttle =>
    if s.lastAttempt.any fun t => decide (s.now - t < proxyRefreshMinGap) then
      some (s, .share true)
    else some ({ s with lastAttempt := some s.now }, .share false)
  | .share throttled =>
    -- too soon after another attempt: join it, or run nothing
    let work : ConfigWork := if throttled then .nothing else .sent
    let (calls, call) := Flight.join () work s.refresh
    some ({ s with refresh := calls }, .wait call)
  | .wait call =>
    if cancelled ∨ (s.refresh[call]?.any fun c => !c.listed) then some (s, .done) else none
  | .done => none

inductive LookupPc where
  | look
  | reload (floor : Nat) (pc : ReloadPc)
  | again (floor : Nat)
  /-- Answered: the requests answered before, the configuration, how many requests had begun
  when it was read, and the refresh that goes on in the background. -/
  | found (floor : Nat) (px : Option CachedProxy) (asOf : Nat) (background : Option ReloadPc)
deriving DecidableEq

inductive ReloadRequestPc where
  | invalidate
  | reload (pc : ReloadPc)
  | count
  | answered (proxies : Nat)
deriving DecidableEq

inductive ProxyTask where
  | lookup (slug : String) (nested : Bool) (pc : LookupPc)
  /-- The request of this number. -/
  | request (number : Nat) (pc : ReloadRequestPc)
deriving DecidableEq

def lookupProxy (s : ProxyRegistry) (slug : String) (nested : Bool) (pc : LookupPc)
    (cancelled : Bool) : Option (ProxyRegistry × LookupPc) :=
  let px := Table.find CachedProxy.slug slug s.bySlug
  match pc with
  | .look =>
    match s.fetchedAt with
    | none => some (s, .reload s.answered .throttle)
    | some fetchedAt =>
      if nested = true ∧ px = none then some (s, .reload s.answered .throttle)
      else if proxyConfigTTL < s.now - fetchedAt then
        some (s, .found s.answered px s.asOf (some .throttle))
      else some (s, .found s.answered px s.asOf none)
  | .reload floor .done => some (s, .again floor)
  | .reload floor pc =>
    (reloadAct s pc cancelled).map fun out => (out.1, .reload floor out.2)
  | .again floor => some (s, .found floor px s.asOf none)
  | .found floor px asOf (some pc) =>
    (reloadAct s pc cancelled).map fun out => (out.1, .found floor px asOf (some out.2))
  | .found _ _ _ none => none

def handleProxyReload (s : ProxyRegistry) (number : Nat) (pc : ReloadRequestPc) :
    Option (ProxyRegistry × Nat × ReloadRequestPc) :=
  match pc with
  | .invalidate =>
    some ({ s with fetchedAt := none, lastAttempt := none, begun := s.begun + 1 },
      s.begun + 1, .reload .throttle)
  | .reload .done => some (s, number, .count)
  | .reload pc => (reloadAct s pc false).map fun out => (out.1, number, .reload out.2)
  | .count =>
    some ({ s with answered := max s.answered number }, number, .answered s.bySlug.length)
  | .answered _ => none

def proxyAct (s : ProxyRegistry) (_ : Nat) (t : ProxyTask) (cancelled : Bool) :
    Option (ProxyRegistry × ProxyTask) :=
  match t with
  | .lookup slug nested pc =>
    (lookupProxy s slug nested pc cancelled).map fun out => (out.1, .lookup slug nested out.2)
  | .request number pc =>
    (handleProxyReload s number pc).map fun out => (out.1, .request out.2.1 out.2.2)

/-- The web app's tables change, time passes, and the shared call goes on: the web app reads,
the answer is written, and the call is taken off the list. -/
inductive ProxyEvent where
  | configure (web : List ProxyConfig)
  | wait (d : Nat)
  | read (call : Nat)
  | write (call : Nat)
  | unlist (call : Nat)

def proxyEnv (s : ProxyRegistry) : ProxyEvent → Option ProxyRegistry
  | .configure web => some { s with web := web }
  | .wait d => some { s with now := s.now + d }
  | .read call =>
    match s.refresh[call]? with
    | some ⟨_, .sent, true⟩ =>
      some { s with refresh := s.refresh.set call ⟨(), .read s.web s.begun, true⟩ }
    | _ => none
  | .write call =>
    match s.refresh[call]? with
    | some ⟨_, .read body asOf, true⟩ =>
      some { s with
        bySlug := loadProxies body
        fetchedAt := some s.now
        asOf := asOf
        refresh := s.refresh.set call ⟨(), .written, true⟩ }
    | _ => none
  | .unlist call =>
    match s.refresh[call]? with
    | some ⟨_, .written, true⟩ =>
      some { s with refresh := s.refresh.set call ⟨(), .written, false⟩ }
    | some ⟨_, .nothing, true⟩ =>
      some { s with refresh := s.refresh.set call ⟨(), .nothing, false⟩ }
    | _ => none

def proxyProgram : Program ProxyRegistry ProxyTask Bool ProxyEvent where
  init s := s = { web := s.web, now := s.now }
  fresh t :=
    match t with
    | .lookup _ _ pc => decide (pc = .look)
    | .request _ pc => decide (pc = .invalidate)
  act := proxyAct
  env := proxyEnv

abbrev proxyMachine : Machine (Pool ProxyRegistry ProxyTask) (Move ProxyTask Bool ProxyEvent) :=
  proxyProgram.machine

/-! ## What is promised -/

/-- A lookup uses a configuration that was read after each request had begun that was answered
before the lookup. -/
def ProxyTask.usesReloaded : ProxyTask → Bool
  | .lookup _ _ (.found floor _ asOf _) => decide (floor ≤ asOf)
  | _ => true

/-- What a request's share comes to: a configuration from after it began is at hand, or under
way. -/
def ProxyRegistry.reloads (s : ProxyRegistry) (number : Nat) (throttled : Bool) : Bool :=
  decide (number ≤ s.asOf) ||
    match Flight.running () s.refresh with
    | none => !throttled
    | some call =>
      (s.refresh[call]?).any fun c =>
        match c.work with
        | .sent => true
        | .read _ asOf => decide (number ≤ asOf)
        | _ => false

def takesEffect (p : Pool ProxyRegistry ProxyTask) : Move ProxyTask Bool ProxyEvent → Bool
  | .act i _ =>
    (p.tasks[i]?).all fun t : ProxyTask =>
      match t with
      | .request number (.reload (.share throttled)) => p.shared.reloads number throttled
      | _ => true
  | _ => true

abbrev TakesEffect (p : Pool ProxyRegistry ProxyTask) (m : Move ProxyTask Bool ProxyEvent) : Prop :=
  takesEffect p m = true

/-! ## A forced reload takes effect

The configuration at hand is only ever replaced by one that was read later. -/

variable {i : Nat} {t : ProxyTask}

section

variable {s s' : ProxyRegistry} {number call : Nat}

/-- No request is answered before the configuration at hand is from after it began, and a call
that has read brings a configuration that is no older. -/
structure ReloadInv (s : ProxyRegistry) : Prop where
  answered : s.answered ≤ s.asOf
  begun : s.asOf ≤ s.begun
  exclusive : Flight.Exclusive s.refresh
  newer : ∀ (i : Nat) body asOf, s.refresh[i]? = some ⟨(), .read body asOf, true⟩ →
    s.asOf ≤ asOf ∧ asOf ≤ s.begun

/-- A listed call that will bring a configuration from after the request began. -/
def Brings (number : Nat) (c : Flight.Call Unit ConfigWork) : Prop :=
  c.listed = true ∧ (c.work = .sent ∨ ∃ body asOf, c.work = .read body asOf ∧ number ≤ asOf)

/-- The configuration is at hand, or under way in the call. -/
def Pending (s : ProxyRegistry) (number call : Nat) : Prop :=
  number ≤ s.asOf ∨ ∃ c, s.refresh[call]? = some c ∧ Brings number c

/-- What a step leaves to those that did not take it. -/
structure Onward (s s' : ProxyRegistry) : Prop where
  asOf : s.asOf ≤ s'.asOf
  begun : s.begun ≤ s'.begun
  pending : ∀ number call, number ≤ s.begun → Pending s number call → Pending s' number call

theorem onward_of_same (hrefresh : s'.refresh = s.refresh) (hasOf : s'.asOf = s.asOf)
    (hbegun : s.begun ≤ s'.begun) : Onward s s' := by
  refine ⟨Nat.le_of_eq hasOf.symm, hbegun, fun number call _ hpending => ?_⟩
  unfold Pending
  rw [hrefresh, hasOf]
  exact hpending

theorem ReloadInv.of_same (h : ReloadInv s) (hrefresh : s'.refresh = s.refresh)
    (hasOf : s'.asOf = s.asOf) (hbegun : s.begun ≤ s'.begun)
    (hanswered : s'.answered ≤ s.asOf) : ReloadInv s' := by
  refine ⟨hasOf ▸ hanswered, hasOf ▸ Nat.le_trans h.begun hbegun, hrefresh ▸ h.exclusive, ?_⟩
  intro i body asOf hi
  rw [hrefresh] at hi
  obtain ⟨hle, hle'⟩ := h.newer i body asOf hi
  exact ⟨hasOf ▸ hle, Nat.le_trans hle' hbegun⟩

/-! ## Steps of the shared call -/

theorem pending_set (after : ProxyRegistry) {c c' : Flight.Call Unit ConfigWork}
    (hc : s.refresh[call]? = some c) (hrefresh : after.refresh = s.refresh.set call c')
    (hasOf : s.asOf ≤ after.asOf) (hself : Brings number c → number ≤ after.asOf ∨
      Brings number c') (h : Pending s number i) : Pending after number i := by
  rcases h with hat | ⟨d, hd, hbrings⟩
  · exact .inl (Nat.le_trans hat hasOf)
  · by_cases hi : i = call
    · subst hi
      rw [hc] at hd
      cases hd
      rcases hself hbrings with hat | hbrings
      · exact .inl hat
      · refine .inr ⟨c', ?_, hbrings⟩
        rw [hrefresh, getElem?_set_self (List.getElem?_eq_some_iff.mp hc).1]
    · refine .inr ⟨d, ?_, hbrings⟩
      rw [hrefresh, getElem?_set_ne (Ne.symm hi)]
      exact hd

theorem read_step (h : ReloadInv s) (hc : s.refresh[call]? = some ⟨(), .sent, true⟩)
    (hs : s' = { s with refresh := s.refresh.set call ⟨(), .read s.web s.begun, true⟩ }) :
    ReloadInv s' ∧ Onward s s' := by
  have hrefresh : s'.refresh = s.refresh.set call ⟨(), .read s.web s.begun, true⟩ := by rw [hs]
  have hasOf : s.asOf ≤ s'.asOf := by rw [hs]
  have hbegun : s.begun ≤ s'.begun := by rw [hs]
  constructor
  · subst hs
    refine ⟨h.answered, h.begun, h.exclusive.set hc rfl fun _ => rfl, ?_⟩
    intro i body asOf hi
    rcases getElem?_acted hi with ⟨-, heq⟩ | ⟨-, hi⟩
    · cases heq
      exact ⟨h.begun, Nat.le_refl _⟩
    · exact h.newer i body asOf hi
  · refine ⟨hasOf, hbegun, fun number i hle hpending => ?_⟩
    refine pending_set s' hc hrefresh hasOf (fun _ => .inr ?_) hpending
    exact ⟨rfl, .inr ⟨_, _, rfl, hle⟩⟩

theorem write_step {body : List ProxyConfig} {asOf : Nat} (h : ReloadInv s)
    (hc : s.refresh[call]? = some ⟨(), .read body asOf, true⟩)
    (hs : s' = { s with
      bySlug := loadProxies body
      fetchedAt := some s.now
      asOf := asOf
      refresh := s.refresh.set call ⟨(), .written, true⟩ }) :
    ReloadInv s' ∧ Onward s s' := by
  subst hs
  obtain ⟨hle, hle'⟩ := h.newer call body asOf hc
  constructor
  · refine ⟨Nat.le_trans h.answered hle, hle', h.exclusive.set hc rfl fun _ => rfl, ?_⟩
    intro i body' asOf' hi
    rcases getElem?_acted hi with ⟨-, heq⟩ | ⟨hne, hi⟩
    · cases heq
    · -- no other call is listed
      exact absurd (h.exclusive i call _ _ hi hc rfl rfl rfl) hne
  · refine ⟨hle, Nat.le_refl _, fun number i _ hpending => ?_⟩
    refine pending_set _ hc rfl hle (fun hbrings => .inl ?_) hpending
    rcases hbrings.2 with hsent | ⟨body', asOf', hread, hnumber⟩
    · cases hsent
    · cases hread
      exact hnumber

theorem unlist_step {work : ConfigWork} (h : ReloadInv s)
    (hwork : work = .written ∨ work = .nothing)
    (hc : s.refresh[call]? = some ⟨(), work, true⟩)
    (hs : s' = { s with refresh := s.refresh.set call ⟨(), work, false⟩ }) :
    ReloadInv s' ∧ Onward s s' := by
  have hrefresh : s'.refresh = s.refresh.set call ⟨(), work, false⟩ := by rw [hs]
  have hasOf : s.asOf ≤ s'.asOf := by rw [hs]
  have hbegun : s.begun ≤ s'.begun := by rw [hs]
  constructor
  · subst hs
    refine ⟨h.answered, h.begun, h.exclusive.set hc rfl nofun, ?_⟩
    intro i body asOf hi
    rcases getElem?_acted hi with ⟨-, heq⟩ | ⟨-, hi⟩
    · cases heq
    · exact h.newer i body asOf hi
  · refine ⟨hasOf, hbegun, fun number i _ hpending => ?_⟩
    refine pending_set s' hc hrefresh hasOf (fun hbrings => ?_) hpending
    rcases hbrings.2 with hsent | ⟨body, asOf, hread, -⟩
    · obtain rfl | rfl := hwork
      · cases hsent
      · cases hsent
    · obtain rfl | rfl := hwork
      · cases hread
      · cases hread

theorem proxyEnv_keeps {e : ProxyEvent} (h : ReloadInv s) (he : proxyEnv s e = some s') :
    ReloadInv s' ∧ Onward s s' := by
  cases e with
  | configure web | wait d =>
    cases he
    exact ⟨h.of_same rfl rfl (Nat.le_refl _) h.answered, onward_of_same rfl rfl (Nat.le_refl _)⟩
  | read call =>
    unfold proxyEnv at he
    simp only at he
    split at he
    · rename_i hc
      exact read_step h hc (Option.some.inj he).symm
    · cases he
  | write call =>
    unfold proxyEnv at he
    simp only at he
    split at he
    · rename_i hc
      exact write_step h hc (Option.some.inj he).symm
    · cases he
  | unlist call =>
    unfold proxyEnv at he
    simp only at he
    split at he
    · rename_i hc
      exact unlist_step h (.inl rfl) hc (Option.some.inj he).symm
    · rename_i hc
      exact unlist_step h (.inr rfl) hc (Option.some.inj he).symm
    · cases he

/-! ## Steps of a reload -/

/-- What a reload has to go by, for a request of this number. -/
def Reloading (s : ProxyRegistry) (number : Nat) : ReloadPc → Prop
  | .throttle | .share _ => True
  | .wait call => Pending s number call
  | .done => number ≤ s.asOf

theorem share_step (h : ReloadInv s) (throttled : Bool) (hs : s' = { s with
      refresh := (Flight.join () (if throttled then .nothing else .sent) s.refresh).1 }) :
    ReloadInv s' ∧ Onward s s' := by
  subst hs
  constructor
  · refine ⟨h.answered, h.begun, h.exclusive.join () _, ?_⟩
    intro i body asOf hi
    rcases Flight.join_cases () (if throttled then ConfigWork.nothing else .sent) s.refresh with
      ⟨_, _, -, -, -, hjoin⟩ | ⟨-, hjoin⟩
    · simp only [hjoin] at hi
      exact h.newer i body asOf hi
    · simp only [hjoin] at hi
      by_cases hlt : i < s.refresh.length
      · rw [getElem?_append_left hlt] at hi
        exact h.newer i body asOf hi
      · have hmem := mem_of_getElem? hi
        rcases mem_append.mp hmem with hold | hnew
        · obtain ⟨j, hj⟩ := mem_iff_getElem?.mp hold
          exact h.newer j body asOf hj
        · cases throttled with
          | true | false => simp at hnew
  · refine ⟨Nat.le_refl _, Nat.le_refl _, fun number i _ hpending => ?_⟩
    rcases hpending with hat | ⟨c, hc, hbrings⟩
    · exact .inl hat
    · exact .inr ⟨c, Flight.getElem?_join hc .., hbrings⟩

variable {pc pc' : ReloadPc} {cancelled : Bool}

theorem reloadAct_keeps (h : ReloadInv s)
    (hact : reloadAct s pc cancelled = some (s', pc')) : ReloadInv s' ∧ Onward s s' := by
  cases pc with
  | throttle =>
    unfold reloadAct at hact
    simp only at hact
    split at hact <;> cases hact
    · exact ⟨h, onward_of_same rfl rfl (Nat.le_refl _)⟩
    · exact ⟨h.of_same rfl rfl (Nat.le_refl _) h.answered, onward_of_same rfl rfl (Nat.le_refl _)⟩
  | share throttled =>
    cases hact
    exact share_step h throttled rfl
  | wait call =>
    unfold reloadAct at hact
    simp only at hact
    split at hact
    · cases hact
      exact ⟨h, onward_of_same rfl rfl (Nat.le_refl _)⟩
    · cases hact
  | done => cases hact

theorem pending_of_share {throttled : Bool} (hc : s.reloads number throttled = true)
    (hs : s' = { s with
      refresh := (Flight.join () (if throttled then .nothing else .sent) s.refresh).1 }) :
    Pending s' number
      (Flight.join () (if throttled then ConfigWork.nothing else .sent) s.refresh).2 := by
  subst hs
  rcases Bool.or_eq_true_iff.mp hc with hat | hcall
  · exact .inl (of_decide_eq_true hat)
  · refine .inr ?_
    rcases Flight.join_cases () (if throttled then ConfigWork.nothing else .sent) s.refresh with
      ⟨i, c, hrunning, hi, -, hjoin⟩ | ⟨hnone, hjoin⟩
    · obtain ⟨c', hc', -, hlisted⟩ := Flight.running_some hrunning
      rw [hi] at hc'
      cases hc'
      simp only [hrunning, hi, any_some] at hcall
      rw [hjoin]
      refine ⟨c, hi, hlisted, ?_⟩
      split at hcall
      · rename_i hwork
        exact .inl hwork
      · rename_i body asOf hwork
        exact .inr ⟨body, asOf, hwork, of_decide_eq_true hcall⟩
      · cases hcall
    · simp only [hnone, Bool.not_eq_true'] at hcall
      subst hcall
      rw [hjoin]
      exact ⟨⟨(), .sent, true⟩, getElem?_concat_length .., rfl, .inl rfl⟩

theorem reloading_step (hr : Reloading s number pc)
    (hc : ∀ throttled, pc = .share throttled → s.reloads number throttled = true)
    (hact : reloadAct s pc false = some (s', pc')) : Reloading s' number pc' := by
  cases pc with
  | throttle =>
    unfold reloadAct at hact
    simp only at hact
    split at hact <;> cases hact <;> trivial
  | share throttled =>
    cases hact
    exact pending_of_share (hc throttled rfl) rfl
  | wait call =>
    unfold reloadAct at hact
    simp only [Bool.false_eq_true, false_or] at hact
    split at hact
    · rename_i hended
      cases hact
      rcases hr with hat | ⟨c, hcall, hbrings⟩
      · exact hat
      · rw [hcall, any_some, hbrings.1] at hended
        cases hended
    · cases hact
  | done => cases hact

/-! ## Tasks -/

def ProxyTask.Knows (s : ProxyRegistry) (_ : Nat) : ProxyTask → Prop
  | .lookup _ _ .look => True
  | .lookup _ _ (.reload floor _) | .lookup _ _ (.again floor) => floor ≤ s.asOf
  | .lookup _ _ (.found floor _ asOf _) => floor ≤ asOf
  | .request _ .invalidate => True
  | .request number (.reload pc) => number ≤ s.begun ∧ Reloading s number pc
  | .request number .count => number ≤ s.asOf
  | .request _ (.answered _) => True

theorem ProxyTask.Knows.onward (h : t.Knows s i) (hg : Onward s s') : t.Knows s' i := by
  cases t with
  | lookup slug nested pc =>
    cases pc with
    | look => trivial
    | reload floor pc | again floor => exact Nat.le_trans h hg.asOf
    | found floor px asOf background => exact h
  | request number pc =>
    cases pc with
    | invalidate | answered n => trivial
    | reload pc =>
      obtain ⟨hle, hr⟩ := h
      refine ⟨Nat.le_trans hle hg.begun, ?_⟩
      cases pc with
      | throttle | share throttled => trivial
      | wait call => exact hg.pending number call hle hr
      | done => exact Nat.le_trans hr hg.asOf
    | count => exact Nat.le_trans h hg.asOf

theorem lookupProxy_keeps {slug : String} {nested : Bool} {pc pc' : LookupPc}
    (h : ReloadInv s) (hk : (ProxyTask.lookup slug nested pc).Knows s i)
    (hact : lookupProxy s slug nested pc cancelled = some (s', pc')) :
    ReloadInv s' ∧ Onward s s' ∧ (ProxyTask.lookup slug nested pc').Knows s' i := by
  have hstays : Onward s s := onward_of_same rfl rfl (Nat.le_refl _)
  cases pc with
  | look =>
    unfold lookupProxy at hact
    simp only at hact
    repeat' split at hact
    all_goals
      cases hact
      exact ⟨h, hstays, h.answered⟩
  | reload floor pc =>
    by_cases hdone : pc = .done
    · subst hdone
      cases hact
      exact ⟨h, hstays, hk⟩
    · have hmap : (reloadAct s pc cancelled).map (fun out => (out.1, LookupPc.reload floor out.2)) =
          some (s', pc') := by
        cases pc with
        | done => exact absurd rfl hdone
        | _ => exact hact
      obtain ⟨⟨t, pc₁⟩, hreload, heq⟩ := map_eq_some_iff.mp hmap
      cases heq
      obtain ⟨hinv, honward⟩ := reloadAct_keeps h hreload
      exact ⟨hinv, honward, Nat.le_trans hk honward.asOf⟩
  | again floor =>
    cases hact
    exact ⟨h, hstays, hk⟩
  | found floor px asOf background =>
    cases background with
    | none => cases hact
    | some pc =>
      obtain ⟨⟨t, pc₁⟩, hreload, heq⟩ := map_eq_some_iff.mp hact
      cases heq
      obtain ⟨hinv, honward⟩ := reloadAct_keeps h hreload
      exact ⟨hinv, honward, hk⟩

theorem handleProxyReload_keeps {n : Nat} {pc pc' : ReloadRequestPc} (h : ReloadInv s)
    (hk : (ProxyTask.request number pc).Knows s i)
    (hc : ∀ throttled, pc = .reload (.share throttled) → s.reloads number throttled = true)
    (hact : handleProxyReload s number pc = some (s', n, pc')) :
    ReloadInv s' ∧ Onward s s' ∧ (ProxyTask.request n pc').Knows s' i := by
  cases pc with
  | invalidate =>
    cases hact
    exact ⟨h.of_same rfl rfl (Nat.le_succ _) h.answered,
      onward_of_same rfl rfl (Nat.le_succ _), Nat.le_refl _, trivial⟩
  | reload pc =>
    obtain ⟨hle, hr⟩ := hk
    by_cases hdone : pc = .done
    · subst hdone
      cases hact
      exact ⟨h, onward_of_same rfl rfl (Nat.le_refl _), hr⟩
    · have hmap : (reloadAct s pc false).map
          (fun out => (out.1, number, ReloadRequestPc.reload out.2)) = some (s', n, pc') := by
        cases pc with
        | done => exact absurd rfl hdone
        | _ => exact hact
      obtain ⟨⟨t, pc₁⟩, hreload, heq⟩ := map_eq_some_iff.mp hmap
      cases heq
      obtain ⟨hinv, honward⟩ := reloadAct_keeps h hreload
      refine ⟨hinv, honward, Nat.le_trans hle honward.begun, ?_⟩
      exact reloading_step hr (fun throttled heq => hc throttled (heq ▸ rfl)) hreload
  | count =>
    cases hact
    have hnumber : number ≤ s.asOf := hk
    refine ⟨h.of_same rfl rfl (Nat.le_refl _) ?_, onward_of_same rfl rfl (Nat.le_refl _), trivial⟩
    exact Nat.max_le.mpr ⟨h.answered, hnumber⟩
  | answered n => cases hact

theorem proxyAct_keeps {t' : ProxyTask} (h : ReloadInv s) (hk : t.Knows s i)
    (hc : ∀ number throttled, t = .request number (.reload (.share throttled)) →
      s.reloads number throttled = true)
    (hact : proxyAct s i t cancelled = some (s', t')) :
    ReloadInv s' ∧ Onward s s' ∧ t'.Knows s' i := by
  cases t with
  | lookup slug nested pc =>
    obtain ⟨⟨u, pc'⟩, hlookup, heq⟩ := map_eq_some_iff.mp hact
    cases heq
    exact lookupProxy_keeps h hk hlookup
  | request number pc =>
    obtain ⟨⟨u, n, pc'⟩, hrequest, heq⟩ := map_eq_some_iff.mp hact
    cases heq
    exact handleProxyReload_keeps h hk (fun throttled heq => hc number throttled (heq ▸ rfl))
      hrequest

end

theorem reloads_of_takesEffect {p : Pool ProxyRegistry ProxyTask} {a : Bool}
    (ht : p.tasks[i]? = some t) (hc : TakesEffect p (.act i a)) :
    ∀ number throttled, t = .request number (.reload (.share throttled)) →
      p.shared.reloads number throttled = true := by
  intro number throttled heq
  subst heq
  unfold TakesEffect takesEffect at hc
  simp only [ht, all_some] at hc
  exact hc

theorem reloadOutline : proxyProgram.Outline TakesEffect ReloadInv ProxyTask.Knows where
  init := by
    intro s hs
    have hs : s = { web := s.web, now := s.now } := hs
    rw [hs]
    refine ⟨Nat.le_refl _, Nat.le_refl _, .nil, fun i body asOf hi => ?_⟩
    cases hi
  spawn := by
    intro p t _ _ hfresh
    cases t with
    | lookup slug nested pc =>
      obtain rfl : pc = .look := of_decide_eq_true hfresh
      trivial
    | request number pc =>
      obtain rfl : pc = .invalidate := of_decide_eq_true hfresh
      trivial
  act := by
    intro p i a t s' t' h hc ht hact
    obtain ⟨hinv, -, hknows⟩ := proxyAct_keeps h.shared (h.tasks i t ht)
      (reloads_of_takesEffect ht hc) hact
    exact ⟨hinv, hknows⟩
  interfere := by
    intro p i a t s' t' h hc ht hact j q _ hq
    obtain ⟨-, honward, -⟩ := proxyAct_keeps h.shared (h.tasks i t ht)
      (reloads_of_takesEffect ht hc) hact
    exact (h.tasks j q hq).onward honward
  env := by
    intro p e s' h _ he
    obtain ⟨hinv, honward⟩ := proxyEnv_keeps h.shared he
    exact ⟨hinv, fun j q hq => (h.tasks j q hq).onward honward⟩

/-- **A forced reload takes effect** in a run that meets the condition. -/
theorem reload_takes_effect (p : Pool ProxyRegistry ProxyTask)
    (hrun : proxyMachine.Run TakesEffect p) : ∀ t ∈ p.tasks, t.usesReloaded = true := by
  intro t ht
  obtain ⟨i, hi⟩ := mem_iff_getElem?.mp ht
  have hknows := (reloadOutline.run hrun).tasks i t hi
  cases t with
  | lookup slug nested pc =>
    cases pc with
    | found floor px asOf background => exact decide_eq_true hknows
    | _ => rfl
  | request number pc => rfl

/-- A program that has just started, and what the web app would answer. -/
def mirrorOf (url : String) : ProxyRegistry where
  web := [{ organizationId := "o1", slug := "mirror", upstreamUrl := url }]
  now := 10000

theorem mirrorOf_init (url : String) : proxyMachine.init ⟨mirrorOf url, []⟩ := by
  have hfresh : mirrorOf url = { web := (mirrorOf url).web, now := (mirrorOf url).now } := rfl
  exact ⟨hfresh, rfl⟩

def reloadOnce (i call : Nat) : List (Move ProxyTask Bool ProxyEvent) :=
  .spawn (.request 0 .invalidate) :: List.replicate 3 (.act i false) ++
    [.env (.read call), .env (.write call), .env (.unlist call)] ++
    List.replicate 3 (.act i false)

theorem reload_takes_effect_mirror : ∃ p, proxyMachine.Run TakesEffect p ∧
    p.tasks[1]? = some (.lookup "mirror" false
      (.found 1 (some (cachedProxy ⟨"o1", "mirror", "https://new", "", "", "", 0, true⟩)) 1 none)) ∧
    ∀ t ∈ p.tasks, t.usesReloaded = true := by
  have hfacts : ((proxyMachine.replay TakesEffect ⟨mirrorOf "https://new/", []⟩
      (reloadOnce 0 0 ++ [.spawn (.lookup "mirror" false .look), .act 1 false])).map fun p =>
        p.tasks[1]?) = some (some (.lookup "mirror" false (.found 1
          (some (cachedProxy ⟨"o1", "mirror", "https://new", "", "", "", 0, true⟩)) 1 none))) := by
    decide +kernel
  obtain ⟨p, hp, htask⟩ := map_eq_some_iff.mp hfacts
  have hrun := Machine.run_of_replay (M := proxyMachine) (mirrorOf_init _) hp
  exact ⟨p, hrun, htask, reload_takes_effect p hrun⟩

/-- The web app has answered a lookup before the configuration is changed; the request that
follows joins its call. -/
def reloadJoins : List (Move ProxyTask Bool ProxyEvent) :=
  .spawn (.lookup "mirror" false .look) :: List.replicate 3 (.act 0 false) ++
    [.env (.read 0), .env (.configure (mirrorOf "https://new").web),
      .spawn (.request 0 .invalidate)] ++
    List.replicate 3 (.act 1 false) ++ [.env (.write 0), .env (.unlist 0)] ++
    List.replicate 3 (.act 1 false) ++
    [.spawn (.lookup "mirror" false .look), .act 2 false]

theorem reloadJoins_keeps_old : ¬ ∀ p, proxyMachine.Reachable p →
    ∀ t ∈ p.tasks, t.usesReloaded = true := by
  intro hall
  have hfacts : ((proxyMachine.replay (fun _ _ => True) ⟨mirrorOf "https://old", []⟩
      reloadJoins).map fun p => p.tasks[2]?) = some (some (.lookup "mirror" false (.found 1
        (some (cachedProxy ⟨"o1", "mirror", "https://old", "", "", "", 0, true⟩)) 0 none))) := by
    decide +kernel
  obtain ⟨p, hp, htask⟩ := map_eq_some_iff.mp hfacts
  have hrun := Machine.run_of_replay (M := proxyMachine) (mirrorOf_init _) hp
  have huses := hall p hrun _ (mem_of_getElem? htask)
  cases huses

end Chicoree.Registryd
