import Chicoree.Images.TableChanges

/-! # Protected tags and the ways to remove them

registryd checks the rules before it removes a tag, and most of the web app goes through it.
The form action `deleteTag` and the eviction of proxy caches delete rows themselves, and a
manifest that is deleted takes along whatever tag has come to point at it since the check. -/

namespace Chicoree.Images

open Transition
open Registryd (Digest RepoId OrgId Time Repository Organization TagRule TagRuleRow protectedRule
  checkTagDeletable_ok checkManifestDeletable_ok)

variable {localeCompare : String → String → Ordering} {rules : List TagRuleRow}

/-! ## Protection -/

def Tables.protects (s : Tables) (repo : RepoId) (tag : String) : Bool :=
  s.repositories.any fun r => decide (r.id = repo) && (protectedRule (s.rulesOf r) tag).isSome

def ProtectedSurvive (s s' : Tables) : Prop :=
  ∀ t ∈ s.tags, s.protects t.repositoryId t.name = true →
    (∃ r ∈ s'.repositories, r.id = t.repositoryId) → ∃ t' ∈ s'.tags, t'.key = t.key

/-- The rows that the next statement of a task deletes without asking for the rules. -/
def Task.bypasses (s : Tables) : Task → List TagRow
  | .deleteTag repositoryId tagName (.delete _) =>
    s.tags.filter fun t => decide (t.key = (repositoryId, tagName))
  | .proxyEvict _ _ (.delete cutoff) => s.tags.filter (s.unused cutoff)
  | _ => []

def RegistryCall.deletes (repo : RepoId) (d : Digest) : RegistryCall → Bool
  | .tagsForManifest r e | .deleteManifest r e => decide (r.id = repo ∧ e = d)
  | _ => false

def Task.deletes (repo : RepoId) (d : Digest) (t : Task) : Bool :=
  t.call.any (RegistryCall.deletes repo d)

/-- **The condition on a step**: a statement that asks for no rule deletes no protected tag,
and no push puts a protected tag on a manifest whose delete has passed its check. -/
def harmless (p : Pool Tables Task) : Move Task Reply Surroundings → Bool
  | .act i a =>
    match p.tasks[i]? with
    | none => true
    | some t =>
      (decide (a = .failed) || (t.bypasses p.shared).all
        fun x => !p.shared.protects x.repositoryId x.name) &&
      (t.writes p.shared a).all fun x => !p.shared.protects x.repositoryId x.name ||
        p.tasks.all fun q => !q.deletes x.repositoryId x.manifestDigest
  | _ => true

abbrev Harmless (p : Pool Tables Task) (m : Move Task Reply Surroundings) : Prop :=
  harmless p m = true

section

variable {s s' : Tables} {a : Reply} {repo : RepoId} {tag : String} {r : Repository}

theorem protects_iff : s.protects repo tag = true ↔
    ∃ r ∈ s.repositories, r.id = repo ∧ protectedRule (s.rulesOf r) tag ≠ none := by
  unfold Tables.protects
  rw [List.any_eq_true]
  refine exists_congr fun r => and_congr_right fun _ => ?_
  rw [Bool.and_eq_true, decide_eq_true_eq, Option.isSome_iff_ne_none]

theorem protects_eq_false : s.protects repo tag = false ↔
    ∀ r ∈ s.repositories, r.id = repo → protectedRule (s.rulesOf r) tag = none := by
  rw [← Bool.not_eq_true, protects_iff]
  simp

variable {w : Option TagRow}

theorem Evolves.rulesOf (h : Evolves s s' w) : s'.rulesOf r = s.rulesOf r := by
  unfold Tables.rulesOf
  rw [h.rules]

theorem Evolves.protects (h : Evolves s s' w) (hid : repo ∈ s.issued)
    (hno : s.protects repo tag = false) : s'.protects repo tag = false := by
  rw [protects_eq_false] at hno ⊢
  intro r hr hrepo
  rw [h.rulesOf]
  rcases h.rows r hr with hr | hnew
  · exact hno r hr hrepo
  · exact absurd (hrepo ▸ hid) hnew

/-! ## What a delete knows -/

structure Known (s : Tables) (r : Repository) : Prop where
  issued : r.id ∈ s.issued
  row : ∀ x ∈ s.repositories, x.id = r.id → x = r

theorem Known.of_mem (hv : s.Valid) (hr : r ∈ s.repositories) : Known s r :=
  ⟨hv.issued r hr, fun _ hx hid => hv.repositoryIds.eq_of_key hx hr hid⟩

theorem Known.evolves (h : Known s r) (he : Evolves s s' w) : Known s' r := by
  refine ⟨he.issued _ h.issued, fun x hx hid => ?_⟩
  rcases he.rows x hx with hx | hnew
  · exact h.row x hx hid
  · exact absurd (hid ▸ h.issued) hnew

theorem Known.not_protects (h : Known s r) (hno : protectedRule (s.rulesOf r) tag = none) :
    s.protects r.id tag = false := by
  rw [protects_eq_false]
  intro x hx hid
  rw [h.row x hx hid]
  exact hno

/-- A delete past its check removes no protected tag. -/
def CallChecked (s : Tables) : RegistryCall → Prop
  | .checkTagDeletable r _ | .checkManifestDeletable r _ => Known s r
  | .resolveTag r tag | .deleteTag r tag => r.id ∈ s.issued ∧ s.protects r.id tag = false
  | .tagsForManifest r d | .deleteManifest r d => r.id ∈ s.issued ∧
      ∀ t ∈ s.tags, t.repositoryId = r.id → t.manifestDigest = d → s.protects r.id t.name = false
  | _ => True

theorem CallChecked.sent {c : RegistryCall} (h : c.isSent = true) : CallChecked s c := by
  cases c with
  | resolve => trivial
  | _ => cases h

theorem getRepository_mem {orgSlug name : String} (h : s.getRepository orgSlug name = some r) :
    r ∈ s.repositories := by
  unfold Tables.getRepository at h
  split at h
  · cases h
  · exact (Table.find_some h).1

theorem RegistryRequest.start_checked {request : RegistryRequest} (h : Known s r) :
    CallChecked s (request.start r) := by
  cases request with
  | put tag m => cases tag <;> trivial
  | deleteTag tag | deleteManifest d => exact h

/-- One statement of registryd: a check establishes what the delete after it needs. -/
theorem registryAct_checked {c c' : RegistryCall} (hv : s.Valid) (hc : CallChecked s c)
    (h : registryAct s c a = some (s', c')) : CallChecked s' c' := by
  cases registryAct_step h with
  | resolved row => exact RegistryRequest.start_checked (.of_mem hv (getRepository_mem row))
  | created row create =>
    refine RegistryRequest.start_checked (.of_mem (hv.createRepository create) ?_)
    obtain ⟨-, -, rfl⟩ := createRepository_some create
    exact List.mem_append_right _ (List.mem_singleton_self _)
  | deletable ok => exact ⟨hc.issued, hc.not_protects (checkTagDeletable_ok ok)⟩
  | tagResolved | tagsFound => exact hc
  | manifestDeletable ok =>
    refine ⟨hc.issued, ?_⟩
    rintro t ht hrepo rfl
    have hmem := Tables.mem_tagsForDigest ht
    rw [hrepo] at hmem
    exact hc.not_protects (checkManifestDeletable_ok ok t.name hmem)
  | _ => trivial

/-- What a delete knows survives the statements of others, where they put no protected tag
on its manifest. -/
theorem CallChecked.evolves {c : RegistryCall} (hc : CallChecked s c) (he : Evolves s s' w)
    (hw : ∀ x, w = some x → c.deletes x.repositoryId x.manifestDigest = true →
      s.protects x.repositoryId x.name = false) : CallChecked s' c := by
  have hmanifest : ∀ {r : Repository} {d : Digest},
      (∀ x, w = some x → r.id = x.repositoryId → d = x.manifestDigest →
        s.protects x.repositoryId x.name = false) →
      (r.id ∈ s.issued ∧ ∀ t ∈ s.tags, t.repositoryId = r.id → t.manifestDigest = d →
        s.protects r.id t.name = false) →
      r.id ∈ s'.issued ∧ ∀ t ∈ s'.tags, t.repositoryId = r.id → t.manifestDigest = d →
        s'.protects r.id t.name = false := by
    rintro r d hw ⟨hid, htags⟩
    refine ⟨he.issued _ hid, fun t' ht' hrepo hd => he.protects hid ?_⟩
    rcases he.tags t' ht' with ⟨t, ht, hsame⟩ | hwritten
    · obtain ⟨hthis, hname⟩ := Prod.mk.inj hsame.key
      rw [← hname]
      exact htags t ht (hthis.trans hrepo) (hsame.digest.trans hd)
    · rw [← hrepo]
      exact hw t' hwritten hrepo.symm hd.symm
  cases c with
  | checkTagDeletable r tag | checkManifestDeletable r d => exact Known.evolves hc he
  | resolveTag r tag | deleteTag r tag => exact ⟨he.issued _ hc.1, he.protects hc.1 hc.2⟩
  | tagsForManifest r d | deleteManifest r d =>
    exact hmanifest (fun x hx hr hd => hw x hx (decide_eq_true ⟨hr, hd⟩)) hc
  | _ => trivial

end

end Chicoree.Images

/-! ## Runs that keep the protected tags

Every order of the removals, pushes and requests of clients in which no protected tag is
deleted past its rules. -/

namespace Chicoree.Images

open List
open Transition
open Registryd (Digest RepoId OrgId Time Repository Organization TagRule TagRuleRow protectedRule)

variable {localeCompare : String → String → Ordering} {rules : List TagRuleRow}

abbrev removals (localeCompare : String → String → Ordering) (rules : List TagRuleRow) :
    Machine (Pool Tables Task) (Move Task Reply Surroundings) :=
  (removalProgram localeCompare rules).machine

/-- A task with a request at registryd has what that request needs. -/
def TaskChecked (s : Tables) (_ : Nat) (t : Task) : Prop :=
  ∀ c, t.call = some c → CallChecked s c

structure SharedValid (rules : List TagRuleRow) (s : Tables) : Prop where
  valid : s.Valid
  rules : s.tagRules = rules

variable {p p' : Pool Tables Task}

section

variable {s s' : Tables} {a : Reply} {i : Nat} {t t' : Task}

theorem taskAct_checked (hv : s.Valid) (hc : TaskChecked s i t)
    (h : taskAct localeCompare s i t a = some (s', t')) : TaskChecked s' i t' := by
  have hsent : (∀ x, t'.call = some x → x.isSent = true) → TaskChecked s' i t' :=
    fun h x hx => .sent (h x hx)
  have hsilent : t'.call = none → TaskChecked s' i t' := by
    intro h x hx
    rw [h] at hx
    cases hx
  cases taskAct_step h with
  | call step =>
    unfold TaskChecked at hc ⊢
    generalize t.call = c, t'.call = c' at step hc
    cases step with
    | reads sent => exact fun x hx => .sent (sent x hx)
    | registry act =>
      intro x hx
      cases hx
      exact registryAct_checked hv (hc _ rfl) act
  | created r row sent => exact hsent sent
  | form repositoryId tagName r task ran tables silent
  | evict unusedFor dryRun cutoff task ran tables silent
  | prune olderThan cutoff task tables silent => exact hsilent silent

theorem Harmless.act (h : Harmless p (.act i a)) (ht : p.tasks[i]? = some t) :
    (a ≠ .failed → ∀ x ∈ t.bypasses p.shared, p.shared.protects x.repositoryId x.name = false) ∧
    ∀ x, t.writes p.shared a = some x → p.shared.protects x.repositoryId x.name = true →
      ∀ q ∈ p.tasks, q.deletes x.repositoryId x.manifestDigest = false := by
  unfold Harmless harmless at h
  simp only [ht, Bool.and_eq_true, Bool.or_eq_true, decide_eq_true_eq, all_eq_true,
    Bool.not_eq_true', Option.all_eq_true] at h
  refine ⟨fun hran x hx => ?_, fun x hx hprot q hq => ?_⟩
  · exact (h.1.resolve_left hran) x hx
  · rcases h.2 x hx with hno | hall
    · rw [hno] at hprot
      cases hprot
    · exact hall q hq

theorem removals_outline :
    (removalProgram localeCompare rules).Outline Harmless (SharedValid rules) TaskChecked where
  init s h := ⟨h.1, h.2⟩
  spawn _ t _ _ hfresh x hx := .sent (fresh_call hfresh x hx)
  act p i a t s' t' hp _ ht hact :=
    ⟨⟨taskAct_valid (i := i) hp.shared.valid hact,
      (taskAct_evolves (i := i) hact).rules.trans hp.shared.rules⟩,
      taskAct_checked (i := i) hp.shared.valid (hp.tasks i t ht) hact⟩
  interfere p i a t s' t' hp hc ht hact j q _ hq x hx := by
    refine (hp.tasks j q hq x hx).evolves (taskAct_evolves (i := i) hact) fun row hrow hdel => ?_
    by_contra hprot
    have hno := (hc.act ht).2 row hrow (by simpa using hprot) q (mem_of_getElem? hq)
    unfold Task.deletes at hno
    rw [hx] at hno
    rw [Option.any_some, hdel] at hno
    cases hno
  env p e s' hp _ he := by
    refine ⟨⟨surroundings_valid hp.shared.valid he,
      (surroundings_evolves he).rules.trans hp.shared.rules⟩, fun j q hq x hx => ?_⟩
    exact (hp.tasks j q hq x hx).evolves (surroundings_evolves he) nofun

variable {x : TagRow}

theorem registryChange_survive {c : RegistryCall} (hc : CallChecked s c)
    (h : RegistryChange s a c s') (hx : x ∈ s.tags)
    (hprot : s.protects x.repositoryId x.name = true) : ∃ x' ∈ s'.tags, x'.key = x.key := by
  cases h with
  | same | manifest => exact ⟨x, hx, rfl⟩
  | created row =>
    obtain ⟨-, -, rfl⟩ := createRepository_some row
    exact ⟨x, hx, rfl⟩
  | tagged r tag d =>
    rcases Tables.mem_tags_writeTag hx with hx | ⟨hkey, hrow⟩
    · exact ⟨x, hx, rfl⟩
    · exact ⟨_, hrow, by rw [Tables.pushedTag_key, hkey]⟩
  | tagDeleted r tag =>
    refine ⟨x, Tables.mem_tags_deleteTag.mpr ⟨hx, fun hkey => ?_⟩, rfl⟩
    obtain ⟨hrepo, hname⟩ := Prod.mk.inj hkey
    rw [hrepo, hname, hc.2] at hprot
    cases hprot
  | manifestDeleted r d =>
    refine ⟨x, Tables.mem_tags_deleteManifest.mpr ⟨hx, fun hthis => ?_⟩, rfl⟩
    rw [hthis.1, hc.2 x hx hthis.1 hthis.2] at hprot
    cases hprot

theorem taskAct_survive (hc : Harmless p (.act i a))
    (ht : p.tasks[i]? = some t) (hchecked : TaskChecked p.shared i t)
    (h : taskAct localeCompare p.shared i t a = some (s', t'))
    (hx : x ∈ p.shared.tags) (hprot : p.shared.protects x.repositoryId x.name = true) :
    ∃ x' ∈ s'.tags, x'.key = x.key := by
  cases taskAct_step h with
  | call step =>
    unfold TaskChecked at hchecked
    generalize t.call = c, t'.call = c' at step hchecked
    cases step with
    | reads => exact ⟨x, hx, rfl⟩
    | registry act =>
      exact registryChange_survive (hchecked _ rfl) (registryAct_change act) hx hprot
  | created r row =>
    obtain ⟨-, -, rfl⟩ := createRepository_some row
    exact ⟨x, hx, rfl⟩
  | form repositoryId tagName r task ran tables =>
    subst task tables
    refine ⟨x, Tables.mem_tags_deleteTag.mpr ⟨hx, fun hkey => ?_⟩, rfl⟩
    have hno := (hc.act ht).1 ran x (mem_filter.mpr ⟨hx, decide_eq_true hkey⟩)
    rw [hno] at hprot
    cases hprot
  | evict unusedFor dryRun cutoff task ran tables =>
    subst task tables
    refine ⟨x, mem_filter.mpr ⟨hx, ?_⟩, rfl⟩
    by_contra hunused
    have hno := (hc.act ht).1 ran x (mem_filter.mpr ⟨hx, by simpa using hunused⟩)
    rw [hno] at hprot
    cases hprot
  | prune olderThan cutoff task tables =>
    subst tables
    exact ⟨x, Tables.mem_tags_pruneUntagged.mpr hx, rfl⟩

theorem surroundings_survive {e : Surroundings} (h : surroundings s e = some s')
    (hx : x ∈ s.tags) (hrepo : ∃ r ∈ s'.repositories, r.id = x.repositoryId) :
    ∃ x' ∈ s'.tags, x'.key = x.key := by
  cases e with
  | clock now =>
    cases h
    exact ⟨x, hx, rfl⟩
  | pulled repositoryId name =>
    cases h
    refine ⟨_, mem_map_of_mem hx, ?_⟩
    split <;> rfl
  | createRepository r =>
    obtain ⟨-, -, rfl⟩ := createRepository_some h
    exact ⟨x, hx, rfl⟩
  | deleteRepository id =>
    cases h
    obtain ⟨r, hr, hid⟩ := hrepo
    have hne : r.id ≠ id := of_decide_eq_true (mem_filter.mp hr).2
    exact ⟨x, mem_filter.mpr ⟨hx, decide_eq_true (hid ▸ hne)⟩, rfl⟩

variable {m : Move Task Reply Surroundings}

theorem Harmless.survive (hp : (removals localeCompare rules).Run Harmless p) (hc : Harmless p m)
    (h : (removals localeCompare rules).step p m = some p') :
    ProtectedSurvive p.shared p'.shared := by
  intro x hx hprot hrepo
  have hholds := removals_outline.run hp
  rcases Program.step_cases h with ⟨t, rfl, -, rfl⟩ | ⟨i, a, t, s', t', rfl, ht, ha, rfl⟩ |
      ⟨e, s', rfl, he, rfl⟩
  · exact ⟨x, hx, rfl⟩
  · exact taskAct_survive hc ht (hholds.tasks i t ht) ha hx hprot
  · exact surroundings_survive he hx hrepo

/-! ## Whole runs -/

/-- The tag is there and protected, as long as its repository is there. -/
structure Kept (s : Tables) (repo : RepoId) (name : String) : Prop where
  issued : repo ∈ s.issued
  kept : (∃ r ∈ s.repositories, r.id = repo) →
    s.protects repo name = true ∧ ∃ x ∈ s.tags, x.key = (repo, name)

theorem step_evolves (h : (removals localeCompare rules).step p m = some p') :
    ∃ w, Evolves p.shared p'.shared w := by
  rcases Program.step_cases h with ⟨t, rfl, -, rfl⟩ | ⟨i, a, t, s', t', rfl, -, ha, rfl⟩ |
      ⟨e, s', rfl, he, rfl⟩
  · exact ⟨none, .refl⟩
  · exact ⟨_, taskAct_evolves (i := i) ha⟩
  · exact ⟨none, surroundings_evolves he⟩

theorem Kept.step {repo : RepoId} {name : String} (hk : Kept p.shared repo name)
    (hp : (removals localeCompare rules).Run Harmless p) (hc : Harmless p m)
    (h : (removals localeCompare rules).step p m = some p') : Kept p'.shared repo name := by
  obtain ⟨w, he⟩ := step_evolves h
  refine ⟨he.issued _ hk.issued, ?_⟩
  rintro ⟨r, hr, hid⟩
  have hthere : r ∈ p.shared.repositories := by
    rcases he.rows r hr with hr | hnew
    · exact hr
    · exact absurd (hid ▸ hk.issued) hnew
  obtain ⟨hprot, x, hx, hkey⟩ := hk.kept ⟨r, hthere, hid⟩
  obtain ⟨hrepo, hname⟩ := Prod.mk.inj hkey
  constructor
  · -- the row of the repository is the one whose rules protect the tag
    obtain ⟨row, hrow, hrowId, hrule⟩ := protects_iff.mp hprot
    have hv := (removals_outline.run hp).shared.valid
    have hsame : row = r := hv.repositoryIds.eq_of_key hrow hthere (hrowId.trans hid.symm)
    refine protects_iff.mpr ⟨r, hr, hid, ?_⟩
    rw [he.rulesOf, ← hsame]
    exact hrule
  · have hsurvive := hc.survive hp h x hx (by rw [hrepo, hname]; exact hprot)
      ⟨r, hr, hid.trans hrepo.symm⟩
    obtain ⟨x', hx', hkey'⟩ := hsurvive
    exact ⟨x', hx', hkey'.trans hkey⟩

end

/-- **Protected tags survive every deletion path** of a run in which nothing deletes one past
the rules: once a protected rule covers a tag, the tag is there in every later state in which
its repository is. -/
theorem protected_tags_survive {p p' : Pool Tables Task} {x : TagRow}
    (hp : (removals localeCompare rules).Run Harmless p)
    (hpath : (removals localeCompare rules).Path Harmless p p') (hx : x ∈ p.shared.tags)
    (hprot : p.shared.protects x.repositoryId x.name = true)
    (hrepo : ∃ r ∈ p'.shared.repositories, r.id = x.repositoryId) :
    ∃ x' ∈ p'.shared.tags, x'.key = x.key := by
  have hstart : Kept p.shared x.repositoryId x.name := by
    obtain ⟨r, hr, hid, -⟩ := protects_iff.mp hprot
    have hv := (removals_outline.run hp).shared.valid
    exact ⟨hid ▸ hv.issued r hr, fun _ => ⟨hprot, x, hx, rfl⟩⟩
  have hend : Kept p'.shared x.repositoryId x.name :=
    hpath.stable (Q := fun p => Kept p.shared x.repositoryId x.name) hp
      (fun _ _ _ hr hk hc hs => hk.step hr hc hs) hstart
  exact (hend.kept hrepo).2

/-- `latest` of a proxy cache, under a rule that protects it. -/
def cachedLatest : TagRow := ⟨"r1", "latest", "sha256:aa", 0, 0, none⟩

def latestRule : TagRuleRow :=
  { organizationId := "o1"
    rule := { pattern := "latest", immutable := false, protected_ := true } }

def proxyCache : Tables where
  organizations := [⟨"o1", "hub"⟩]
  repositories := [⟨"r1", "o1", "nginx", .public⟩]
  issued := ["r1"]
  organizationProxies := ["o1"]
  manifests := [⟨"r1", "sha256:aa", none, 0⟩]
  tags := [cachedLatest]
  tagRules := [latestRule]
  now := 100

theorem proxyCache_valid : proxyCache.Valid :=
  ⟨by decide, by decide, by decide, by decide, by decide, by decide⟩

def refusedDeletes : List (Move Task Reply Surroundings) :=
  [.spawn (.client (.resolve "hub" "nginx" (.deleteTag "latest"))), .act 0 .ok, .act 0 .ok,
    .spawn (.client (.resolve "hub" "nginx" (.deleteManifest "sha256:aa"))), .act 1 .ok,
    .act 1 .ok]

theorem protected_tags_survive_refused :
    ∃ p, (removals (fun _ _ => .eq) [latestRule]).Run Harmless p ∧
      p.tasks[0]? = some (.client (.answered 403
        "tag latest is protected (rule \"latest\") and cannot be deleted")) ∧
      ∃ x ∈ p.shared.tags, x.key = ("r1", "latest") := by
  obtain ⟨p, hp⟩ : ∃ p, (removals (fun _ _ => .eq) [latestRule]).replay Harmless
      ⟨proxyCache, []⟩ refusedDeletes = some p := ⟨_, rfl⟩
  have hinit : (removals (fun _ _ => .eq) [latestRule]).init ⟨proxyCache, []⟩ :=
    ⟨⟨proxyCache_valid, rfl⟩, rfl⟩
  have hrepos : ∃ r ∈ p.shared.repositories, r.id = cachedLatest.repositoryId := by
    cases hp
    exact ⟨_, mem_cons_self, rfl⟩
  refine ⟨p, Machine.run_of_replay hinit hp, by cases hp; rfl, ?_⟩
  exact protected_tags_survive (Machine.Run.init hinit) (Machine.path_of_replay hp)
    (mem_singleton_self cachedLatest) (by decide +kernel) hrepos

/-- A task deletes `latest` with its last statement. -/
def latestGone (task : Task) (n : Nat) : Prop :=
  ∃ p p', (removals (fun _ _ => .eq) [latestRule]).Reachable p ∧
    (removals (fun _ _ => .eq) [latestRule]).replay (fun _ _ => True) ⟨proxyCache, []⟩
      (.spawn task :: List.replicate n (.act 0 .ok)) = some p ∧
    (removals (fun _ _ => .eq) [latestRule]).step p (.act 0 .ok) = some p' ∧
    ¬ ProtectedSurvive p.shared p'.shared

theorem latestGone_of_view {task : Task} {n : Nat}
    (hp : (removals (fun _ _ => .eq) [latestRule]).replay (fun _ _ => True) ⟨proxyCache, []⟩
      (.spawn task :: List.replicate n (.act 0 .ok)) = some p)
    (hstep : (removals (fun _ _ => .eq) [latestRule]).step p (.act 0 .ok) = some p')
    (hbefore : p.shared = proxyCache) (hafter : p'.shared.tags = [])
    (hrepos : p'.shared.repositories = proxyCache.repositories) : latestGone task n := by
  have hinit : (removals (fun _ _ => .eq) [latestRule]).init ⟨proxyCache, []⟩ :=
    ⟨⟨proxyCache_valid, rfl⟩, rfl⟩
  refine ⟨p, p', Machine.run_of_replay hinit hp, hp, hstep, fun h => ?_⟩
  obtain ⟨x', hx', -⟩ := h cachedLatest (by rw [hbefore]; exact mem_singleton_self _)
    (by rw [hbefore]; decide +kernel) (by rw [hrepos]; exact ⟨_, mem_cons_self, rfl⟩)
  rw [hafter] at hx'
  exact not_mem_nil hx'

/-- The eviction of a proxy cache and the form action both delete a protected tag, of a
repository that stays. -/
theorem protected_tag_deleted : latestGone (.proxyEvict 50 false .select) 1 ∧
      latestGone (.deleteTag "r1" "latest" .repository) 2 :=
  ⟨latestGone_of_view rfl rfl rfl rfl rfl, latestGone_of_view rfl rfl rfl rfl rfl⟩

end Chicoree.Images
