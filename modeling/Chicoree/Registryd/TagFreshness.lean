import Chicoree.Lib.Doubles
import Chicoree.RateLimits.Form
import Chicoree.Registryd.ProxyReload
import Chicoree.Registryd.Pushes

/-! # How fresh proxied tags are

Pulls by tag through `ensureProxiedManifest` while the upstream moves its tags and fails at
times: each check and its record are one step. The freshness is a number of seconds that the
settings form reads and `fetch` rewrites. -/

namespace Chicoree.Registryd

open Transition Doubles Bool Table

/-! ## The setting -/

def readTtl (v : String) : Except String Int :=
  let text := RateLimits.trim v.toList
  match (Number.ofText (if text.isEmpty then "300".toList else text)).whole? with
  | some n =>
    if n < 0 ∨ 30 * 86400 < n then
      .error "The tag TTL must be a number of seconds between 0 and 2592000 (30 days)."
    else .ok n
  | none => .error "The tag TTL must be a number of seconds between 0 and 2592000 (30 days)."

/-- `time.Second`; times are in nanoseconds. -/
def second : Int := 1000000000

structure ProxyTag where
  repo : String
  name : String
  digest : Digest
  proxyCheckedAt : Option Int

def ProxyTag.key (t : ProxyTag) : String × String := (t.repo, t.name)

structure TagCache where
  tags : List ProxyTag
  now : Int

/-- `ProxyTagState` -/
def TagCache.state (s : TagCache) (repo name : String) : Option ProxyTag :=
  Table.find ProxyTag.key (repo, name) s.tags

def TagCache.upsertProxyTag (s : TagCache) (repo name : String) (d : Digest) : TagCache :=
  { s with tags := Table.upsert ProxyTag.key ⟨repo, name, d, some s.now⟩ s.tags }

def TagCache.touchProxyTag (s : TagCache) (repo name : String) : TagCache :=
  let checked := fun t : ProxyTag => { t with proxyCheckedAt := some s.now }
  { s with tags := Table.update ProxyTag.key (repo, name) checked s.tags }

inductive Storing where
  | ok
  /-- A quota, the manifest itself or a call stopped it before the tag was written. -/
  | refused
  /-- The tag is written, but the answer was lost. -/
  | lost

/-- A pull by tag, with how its calls go. -/
structure TagPull where
  repo : String
  name : String
  readFails : Bool := false
  headFails : Bool := false
  getFails : Bool := false
  touchFails : Bool := false
  storing : Storing := .ok

inductive PullError where
  | internal
  | denied
  | upstream
  | notStored
  | tagInvalid
  | unknown

inductive PullAnswer where
  /-- The image with this digest; as a fallback, since the upstream failed. -/
  | image (d : Digest) (fallback : Bool)
  | error (why : PullError)

section

-- what the upstream serves for a path and a tag at each moment
variable (upstream : Int → String → String → Option Digest)
variable (px : ProxyOrg) (ttl : Int)

/-- `storeProxiedManifestOrFail` -/
def storeProxied (s : TagCache) (p : TagPull) (d : Digest) : TagCache × Except PullError Bool :=
  match p.storing with
  | .ok => (s.upsertProxyTag p.repo p.name d, .ok false)
  | .refused => (s, .error .notStored)
  | .lost => (s.upsertProxyTag p.repo p.name d, .error .notStored)

def headManifest (s : TagCache) (p : TagPull) : Option Digest :=
  if p.headFails then none else upstream s.now (px.upstreamPath p.repo) p.name

def getManifest (s : TagCache) (p : TagPull) : Option Digest :=
  if p.getFails then none else upstream s.now (px.upstreamPath p.repo) p.name

def fresh (s : TagCache) (row : ProxyTag) : Bool :=
  row.proxyCheckedAt.any fun checkedAt => decide (s.now - checkedAt < ttl * second)

/-- `ensureProxiedManifest` for a tag: an error, or whether the local copy is a fallback. -/
def ensureProxiedTag (s : TagCache) (p : TagPull) : TagCache × Except PullError Bool :=
  if !isTagName p.name then (s, .ok false)
  else if p.readFails then (s, .error .internal)
  else
    match s.state p.repo p.name with
    | some row =>
      if fresh ttl s row || !px.enabled then (s, .ok false)
      else if !px.allows (px.upstreamPath p.repo) then (s, .ok false)
      else
        -- a HEAD revalidates what is cached
        match headManifest upstream px s p with
        | none => (s, .ok true)
        | some head =>
          if head = row.digest then
            (if p.touchFails then s else s.touchProxyTag p.repo p.name, .ok false)
          else
            match getManifest upstream px s p with
            | none => (s, .ok true)
            | some d => storeProxied s p d
    | none =>
      if !px.enabled then (s, .ok false)
      else if !px.allows (px.upstreamPath p.repo) then (s, .error .denied)
      else
        match getManifest upstream px s p with
        | none => (s, .error .upstream)
        | some d => storeProxied s p d

/-- `handleManifestGet`: the image the regular handler is left to serve. -/
def pullTag (s : TagCache) (p : TagPull) : TagCache × PullAnswer :=
  match ensureProxiedTag upstream px ttl s p with
  | (s', .error why) => (s', .error why)
  | (s', .ok fallback) =>
    match isTagName p.name, s'.state p.repo p.name with
    | false, _ => (s', .error .tagInvalid)
    | true, some row => (s', .image row.digest fallback)
    | true, none => (s', .error .unknown)

inductive CacheMove where
  | pull (p : TagPull)
  | wait (time : Nat)

def tagMachine : Machine TagCache CacheMove where
  init s := ∀ t ∈ s.tags, t.proxyCheckedAt = none
  step s
    | .pull p => some (pullTag upstream px ttl s p).1
    | .wait time => some { s with now := s.now + time }

end

/-! ## What is promised -/

/-- The upstream served the digest at some moment within the last `T` seconds. -/
def ServedWithin (served : Int → Option Digest) (T : Int) (now : Int) (d : Digest) : Prop :=
  ∃ m, now - T * second ≤ m ∧ m ≤ now ∧ served m = some d

/-- The upstream is asked about a cached tag, and fails. -/
def CheckFails (upstream : Int → String → String → Option Digest) (px : ProxyOrg) (ttl : Int)
    (s : TagCache) (p : TagPull) (row : ProxyTag) : Prop :=
  s.state p.repo p.name = some row ∧ fresh ttl s row = false ∧
    (headManifest upstream px s p = none ∨
      (headManifest upstream px s p ≠ some row.digest ∧ getManifest upstream px s p = none))

/-- A pull is answered with an image no staler than `T` seconds, and a failed check with the
cached one, which stays unchecked. -/
structure FreshAnswer (upstream : Int → String → String → Option Digest) (px : ProxyOrg)
    (ttl T : Int) (s : TagCache) (p : TagPull) : Prop where
  fresh : ∀ d, (pullTag upstream px ttl s p).2 = .image d false →
    ServedWithin (fun m => upstream m (px.upstreamPath p.repo) p.name) T s.now d
  fallback : ∀ row, isTagName p.name = true → p.readFails = false →
    CheckFails upstream px ttl s p row →
    pullTag upstream px ttl s p = (s, .image row.digest true)

/-- Every pull of a repository, in every history. -/
def AlwaysFresh (px : ProxyOrg) (ttl T : Int) (repo : String) : Prop :=
  ∀ upstream s, (tagMachine upstream px ttl).Reachable s → ∀ p : TagPull, p.repo = repo →
    FreshAnswer upstream px ttl T s p

section

variable {upstream : Int → String → String → Option Digest} {px : ProxyOrg} {ttl : Int}
variable {s s' : TagCache} {p : TagPull} {row : ProxyTag} {repo name : String}

/-- A tag was found upstream when it was marked as checked. -/
def Verified (upstream : Int → String → String → Option Digest) (px : ProxyOrg)
    (s : TagCache) : Prop :=
  ∀ repo name row, s.state repo name = some row → ∀ t, row.proxyCheckedAt = some t →
    t ≤ s.now ∧ upstream t (px.upstreamPath repo) name = some row.digest

@[simp] theorem state_upsert (d : Digest) :
    (s.upsertProxyTag repo name d).state repo name = some ⟨repo, name, d, some s.now⟩ :=
  @find_upsert_self _ _ _ ProxyTag.key ⟨repo, name, d, some s.now⟩ s.tags

theorem state_touch : (s.touchProxyTag repo name).state repo name =
    (s.state repo name).map fun t => { t with proxyCheckedAt := some s.now } :=
  @find_update_self _ _ _ ProxyTag.key _ _ _ fun _ => rfl

variable {d : Digest}

theorem state_upsert_ne {repo' name' : String} (h : (repo', name') ≠ (repo, name)) :
    (s.upsertProxyTag repo name d).state repo' name' = s.state repo' name' :=
  @find_upsert_ne _ _ _ ProxyTag.key ⟨repo, name, d, some s.now⟩ _ h s.tags

theorem state_touch_ne {repo' name' : String} (h : (repo', name') ≠ (repo, name)) :
    (s.touchProxyTag repo name).state repo' name' = s.state repo' name' := by
  apply find_update_ne
  · intro t
    rfl
  · exact h

theorem Verified.upsert (h : Verified upstream px s)
    (hd : upstream s.now (px.upstreamPath repo) name = some d) :
    Verified upstream px (s.upsertProxyTag repo name d) := by
  intro repo' name' row hrow t ht
  by_cases hkey : (repo', name') = (repo, name)
  · cases hkey
    rw [state_upsert] at hrow
    cases hrow
    cases ht
    exact ⟨Int.le_refl _, hd⟩
  · apply h repo' name' row _ t ht
    rw [← state_upsert_ne hkey]
    exact hrow

theorem Verified.touch (h : Verified upstream px s) (hrow : s.state repo name = some row)
    (hd : upstream s.now (px.upstreamPath repo) name = some row.digest) :
    Verified upstream px (s.touchProxyTag repo name) := by
  intro repo' name' row' hrow' t ht
  by_cases hkey : (repo', name') = (repo, name)
  · cases hkey
    rw [state_touch, hrow] at hrow'
    cases hrow'
    cases ht
    exact ⟨Int.le_refl _, hd⟩
  · apply h repo' name' row' _ t ht
    rw [← state_touch_ne hkey]
    exact hrow'

theorem headManifest_some (h : headManifest upstream px s p = some d) :
    upstream s.now (px.upstreamPath p.repo) p.name = some d := by
  unfold headManifest at h
  split at h
  · contradiction
  · exact h

theorem getManifest_some (h : getManifest upstream px s p = some d) :
    upstream s.now (px.upstreamPath p.repo) p.name = some d := by
  unfold getManifest at h
  split at h
  · contradiction
  · exact h

/-! ## One pull -/

structure Asks (px : ProxyOrg) (p : TagPull) : Prop where
  enabled : px.enabled = true
  allowed : px.allows (px.upstreamPath p.repo) = true
  isTag : isTagName p.name = true

/-- What one pull does to the cache: the record stays true, and an image that is no fallback
was fresh or is what the upstream serves right now. -/
structure Ensures (upstream : Int → String → String → Option Digest) (px : ProxyOrg) (ttl : Int)
    (s : TagCache) (p : TagPull) (out : TagCache × Except PullError Bool) : Prop where
  kept : Verified upstream px out.1
  now : out.1.now = s.now
  served : Asks px p → out.2 = .ok false → ∃ row, out.1.state p.repo p.name = some row ∧
    (fresh ttl s row = true ∧ out.1 = s ∨
      upstream s.now (px.upstreamPath p.repo) p.name = some row.digest)

theorem Ensures.same {answer : Except PullError Bool} (h : Verified upstream px s)
    (hserved : Asks px p → answer = .ok false → ∃ row, s.state p.repo p.name = some row ∧
      (fresh ttl s row = true ∨ upstream s.now (px.upstreamPath p.repo) p.name = some row.digest)) :
    Ensures upstream px ttl s p (s, answer) where
  kept := h
  now := rfl
  served hasks hanswer := by
    obtain ⟨row, hrow, hfresh | hserves⟩ := hserved hasks hanswer
    · exact ⟨row, hrow, .inl ⟨hfresh, rfl⟩⟩
    · exact ⟨row, hrow, .inr hserves⟩

theorem ensures_storeProxied (h : Verified upstream px s)
    (hget : getManifest upstream px s p = some d) :
    Ensures upstream px ttl s p (storeProxied s p d) := by
  have hd := getManifest_some hget
  unfold storeProxied
  cases p.storing with
  | ok => exact ⟨h.upsert hd, rfl, fun _ _ => ⟨_, state_upsert d, .inr hd⟩⟩
  | refused => exact .same h nofun
  | lost => exact ⟨h.upsert hd, rfl, nofun⟩

theorem ensureProxiedTag_ensures (h : Verified upstream px s) :
    Ensures upstream px ttl s p (ensureProxiedTag upstream px ttl s p) := by
  unfold ensureProxiedTag
  by_cases htag : isTagName p.name = true
  · by_cases hread : p.readFails = true
    · simp only [htag, hread, Bool.not_true, false_eq_true, if_true, if_false]
      exact .same h nofun
    · simp only [htag, hread, Bool.not_true, false_eq_true, if_false]
      cases hrow : s.state p.repo p.name with
      | none =>
        by_cases henabled : px.enabled = true
        · by_cases hallowed : px.allows (px.upstreamPath p.repo) = true
          · simp only [henabled, hallowed, Bool.not_true, false_eq_true, if_false]
            cases hget : getManifest upstream px s p with
            | none => exact .same h nofun
            | some d => exact ensures_storeProxied h hget
          · simp only [henabled, hallowed, Bool.not_true, Bool.not_false, false_eq_true,
              if_true, if_false]
            exact .same h nofun
        · simp only [henabled, Bool.not_false, if_true]
          exact .same h fun hasks _ => absurd hasks.enabled henabled
      | some row =>
        by_cases hfresh : fresh ttl s row = true
        · simp only [hfresh, Bool.true_or, if_true]
          exact .same h fun _ _ => ⟨row, hrow, .inl hfresh⟩
        · by_cases henabled : px.enabled = true
          · by_cases hallowed : px.allows (px.upstreamPath p.repo) = true
            · simp only [hfresh, henabled, hallowed, Bool.not_true, Bool.or_false,
                false_eq_true, if_false]
              cases hhead : headManifest upstream px s p with
              | none => exact .same h nofun
              | some head =>
                have hserves := headManifest_some hhead
                by_cases hsame : head = row.digest
                · subst hsame
                  simp only [if_true]
                  split
                  · exact .same h fun _ _ => ⟨row, hrow, .inr hserves⟩
                  · have hnew : (s.touchProxyTag p.repo p.name).state p.repo p.name =
                        some { row with proxyCheckedAt := some s.now } := by
                      rw [state_touch, hrow]
                      rfl
                    exact ⟨h.touch hrow hserves, rfl, fun _ _ => ⟨_, hnew, .inr hserves⟩⟩
                · simp only [hsame, if_false]
                  cases hget : getManifest upstream px s p with
                  | none => exact .same h nofun
                  | some d => exact ensures_storeProxied h hget
            · simp only [hfresh, henabled, hallowed, Bool.not_true, Bool.not_false,
                Bool.or_false, false_eq_true, if_true, if_false]
              exact .same h fun hasks _ => absurd hasks.allowed hallowed
          · simp only [hfresh, henabled, Bool.not_false, Bool.or_true, if_true]
            exact .same h fun hasks _ => absurd hasks.enabled henabled
  · simp only [htag, Bool.not_false, if_true]
    exact .same h fun hasks _ => absurd hasks.isTag htag

theorem pullTag_fst : (pullTag upstream px ttl s p).1 = (ensureProxiedTag upstream px ttl s p).1 := by
  unfold pullTag
  split
  · rename_i hout
    rw [hout]
  · rename_i hout
    rw [hout]
    split <;> rfl

theorem pullTag_image (h : (pullTag upstream px ttl s p).2 = .image d false) :
    isTagName p.name = true ∧ (ensureProxiedTag upstream px ttl s p).2 = .ok false ∧
      ∃ row, (ensureProxiedTag upstream px ttl s p).1.state p.repo p.name = some row ∧
        row.digest = d := by
  unfold pullTag at h
  split at h
  · cases h
  · rename_i s' fallback hout
    rw [hout]
    split at h
    · cases h
    · rename_i row htag hrow
      cases h
      exact ⟨htag, rfl, row, hrow, rfl⟩
    · cases h

theorem pullTag_fallback (henabled : px.enabled = true)
    (hallowed : px.allows (px.upstreamPath p.repo) = true) (htag : isTagName p.name = true)
    (hread : p.readFails = false) (h : CheckFails upstream px ttl s p row) :
    pullTag upstream px ttl s p = (s, .image row.digest true) := by
  obtain ⟨hrow, hfresh, hfails⟩ := h
  have hensured : ensureProxiedTag upstream px ttl s p = (s, .ok true) := by
    unfold ensureProxiedTag
    simp only [htag, hread, hrow, hfresh, henabled, hallowed, Bool.not_true, Bool.or_false,
      false_eq_true, if_false]
    rcases hfails with hhead | ⟨hhead, hget⟩
    · simp only [hhead]
    · cases hanswer : headManifest upstream px s p with
      | none => rfl
      | some head =>
        have hne : head ≠ row.digest := fun hsame => hhead (hsame ▸ hanswer)
        simp only [hne, if_false, hget]
  unfold pullTag
  simp only [hensured, htag, hrow]

/-- **Run lemma.** In every history a tag marked as checked was served then. -/
theorem verified_of_reachable (h : (tagMachine upstream px ttl).Reachable s) :
    Verified upstream px s := by
  apply h.invariant
  · intro s hinit repo name row hrow t ht
    rw [hinit row (find_some hrow).1] at ht
    cases ht
  · intro s move s' _ hv _ hstep
    cases move with
    | pull p =>
      cases hstep
      rw [pullTag_fst]
      exact (ensureProxiedTag_ensures hv).kept
    | wait time =>
      cases hstep
      intro repo name row hrow t ht
      obtain ⟨hle, hserved⟩ := hv repo name row hrow t ht
      exact ⟨by show t ≤ s.now + time; omega, hserved⟩

theorem freshAnswer {T : Int} (hT : 0 ≤ T) (httl : ttl ≤ T) (henabled : px.enabled = true)
    (hallowed : px.allows (px.upstreamPath p.repo) = true)
    (hr : (tagMachine upstream px ttl).Reachable s) : FreshAnswer upstream px ttl T s p where
  fresh d hd := by
    obtain ⟨htag, hout, row, hrow, rfl⟩ := pullTag_image hd
    have hensures : Ensures upstream px ttl s p (ensureProxiedTag upstream px ttl s p) :=
      ensureProxiedTag_ensures (verified_of_reachable hr)
    obtain ⟨row', hrow', hcase⟩ := hensures.served ⟨henabled, hallowed, htag⟩ hout
    obtain rfl : row = row' := Option.some.inj (hrow.symm.trans hrow')
    rcases hcase with ⟨hfresh, hsame⟩ | hserves
    · obtain ⟨t, ht, hage⟩ := Option.any_eq_true .. |>.mp hfresh
      rw [hsame] at hrow
      obtain ⟨hle, hserved⟩ := verified_of_reachable hr _ _ row hrow t ht
      have hage := of_decide_eq_true hage
      refine ⟨t, ?_, hle, hserved⟩
      unfold second at hage ⊢
      omega
    · refine ⟨s.now, ?_, Int.le_refl _, hserves⟩
      unfold second
      omega
  fallback row htag hread hfails := pullTag_fallback henabled hallowed htag hread hfails

def movesAt (moment : Int) (before after : Digest) (m : Int) (_ _ : String) : Option Digest :=
  some (if m < moment then before else after)

def pulledOnce (repo : String) (d : Digest) : TagCache := ⟨[⟨repo, "latest", d, some 0⟩], 0⟩

theorem isTagName_latest : isTagName "latest" = true := by decide

theorem pull_first (henabled : px.enabled = true)
    (hallowed : px.allows (px.upstreamPath repo) = true)
    (hd : upstream 0 (px.upstreamPath repo) "latest" = some d) :
    (pullTag upstream px ttl ⟨[], 0⟩ { repo := repo, name := "latest" }).1 = pulledOnce repo d := by
  rw [pullTag_fst]
  unfold ensureProxiedTag
  simp [isTagName_latest, TagCache.state, Table.find, henabled, hallowed, getManifest, hd,
    storeProxied, TagCache.upsertProxyTag, Table.upsert, pulledOnce]

/-- Before the freshness has passed the cached image is served, whatever the upstream has. -/
theorem pull_again (h : second < ttl * second) :
    (pullTag upstream px ttl { pulledOnce repo d with now := second }
      { repo := repo, name := "latest" }).2 = .image d false := by
  have hrow : TagCache.state { pulledOnce repo d with now := second } repo "latest" =
      some ⟨repo, "latest", d, some 0⟩ := by
    simp [TagCache.state, Table.find, pulledOnce, ProxyTag.key]
  have hfresh : fresh ttl { pulledOnce repo d with now := second }
      ⟨repo, "latest", d, some 0⟩ = true := by
    simpa [fresh] using h
  unfold pullTag ensureProxiedTag
  simp [isTagName_latest, hrow, hfresh]

/-- A tag that moves in the second after a pull is served as it was, where the freshness is kept
for longer than that and was set to nothing. -/
theorem stale_of_longer (httl : 1 < ttl) (henabled : px.enabled = true)
    (hallowed : px.allows (px.upstreamPath repo) = true) : ¬AlwaysFresh px ttl 0 repo := by
  intro hall
  have hpull : (pullTag (movesAt second "old" "new") px ttl ⟨[], 0⟩
      { repo := repo, name := "latest" }).1 = pulledOnce repo "old" :=
    pull_first henabled hallowed (by simp [movesAt, second])
  have hfirst : (tagMachine (movesAt second "old" "new") px ttl).Reachable
      (pulledOnce repo "old") := by
    apply Machine.Run.step (a := .pull { repo := repo, name := "latest" })
      (Machine.Run.init (s := ⟨[], 0⟩) _) trivial
    · exact congrArg some hpull
    · intro t ht
      cases ht
  have hwait : (tagMachine (movesAt second "old" "new") px ttl).Reachable
      { pulledOnce repo "old" with now := second } :=
    hfirst.step (a := .wait 1000000000) trivial rfl
  have hlong : second < ttl * second := by
    unfold second
    omega
  obtain ⟨m, hlo, -, hm⟩ := (hall _ _ hwait { repo := repo, name := "latest" } rfl).fresh "old"
    (pull_again hlong)
  have hnow : ¬m < second := by
    simp only [Int.zero_mul, Int.sub_zero] at hlo
    exact Int.not_lt.mpr hlo
  simp [movesAt, hnow] at hm

end

theorem readTtl_bounds {v : String} {T : Int} (h : readTtl v = .ok T) : 0 ≤ T ∧ T ≤ 30 * 86400 := by
  unfold readTtl at h
  simp only at h
  split at h
  · split at h
    · cases h
    · cases h
      omega
  · cases h

/-- Tags are as fresh as the form was told exactly where it was told more than zero seconds. -/
theorem tags_fresh_iff (v : String) (T : Int) (hread : readTtl v = .ok T) (c : ProxyConfig)
    (hc : c.tagTtlSeconds = T) (px : ProxyOrg) (henabled : px.enabled = true) (repo : String)
    (hallowed : px.allows (px.upstreamPath repo) = true) :
    AlwaysFresh px (cachedProxy c).ttl T repo ↔ T ≠ 0 := by
  subst hc
  obtain ⟨hlo, -⟩ := readTtl_bounds hread
  constructor
  · intro hall hzero
    have httl : (cachedProxy c).ttl = 300 := by
      simp [cachedProxy, hzero]
    rw [httl, hzero] at hall
    exact stale_of_longer (by decide) henabled hallowed hall
  · intro hne upstream s hr p hp
    subst hp
    have httl : (cachedProxy c).ttl = c.tagTtlSeconds := if_neg (by omega)
    exact freshAnswer hlo (by omega) henabled hallowed hr

def hubProxy (tagTtlSeconds : Int) : ProxyConfig where
  organizationId := "o1"
  slug := "hub"
  upstreamUrl := "https://registry-1.docker.io"
  tagTtlSeconds := tagTtlSeconds

theorem tags_fresh_hourly :
    AlwaysFresh { orgId := "o1", slug := "hub" } (cachedProxy (hubProxy 3600)).ttl 3600 "nginx" :=
  (tags_fresh_iff "3600" 3600 (by decide +kernel) (hubProxy 3600) rfl
    { orgId := "o1", slug := "hub" } rfl "nginx" (by decide)).mpr (by decide)

theorem zeroSeconds_stale : readTtl "0" = .ok 0 ∧
    ¬AlwaysFresh { orgId := "o1", slug := "hub" } (cachedProxy (hubProxy 0)).ttl 0 "nginx" :=
  ⟨by decide +kernel, stale_of_longer (by decide) rfl (by decide)⟩

end Chicoree.Registryd
