import Chicoree.Registryd.NameTables

/-! # Pushes to former names

Pushes on any number of replicas, next to renames, transfers and organization renames: a push
looks its repository up, resolves the name through the snapshot of its replica, and creates
the repository in the end, in one step each. -/

namespace Chicoree.Registryd

open Transition Bool List Table

/-! ## Pushes -/

/-- The tables, the snapshots of the replicas, and what the changes have left and taken. -/
structure Naming where
  tables : PushTables
  snapshots : Nat → Option Snapshot
  now : Int
  departures : List Departure

inductive WritePc where
  /-- The next call of `resolveRepoForWrite`, and how many departures the snapshot used for
  it had seen. -/
  | resolve (pc : ResolvePc) (seen : Nat)
  | found (r : Repository)
  | answered (status : Nat)
deriving DecidableEq

/-- A push to `org/name`. -/
structure NamedPush where
  replica : Nat
  org : String
  name : String
  digest : Digest
  pc : WritePc
deriving DecidableEq

inductive NameCall where
  | call (a : Answer)
  /-- Whether a reload that is due succeeds, and whether the lookups do. -/
  | moved (loads answers : Bool)

inductive NameEvent where
  | tick (now : Int)
  | change (c : NameChange)

/-- `writeMovedIfRedirected` -/
def movedStep (s : Naming) (t : NamedPush) (loads answers : Bool) : Naming × NamedPush :=
  let load := if loads then
      some ⟨s.tables.loadRedirects, s.now, s.departures.length⟩ else none
  match cachedRedirects (s.snapshots t.replica) s.now load with
  | none => (s, { t with pc := .answered 500 })
  | some snapshot =>
    let s' := { s with snapshots := Function.update s.snapshots t.replica (some snapshot) }
    if !answers then (s', { t with pc := .answered 500 })
    else
      match resolveMoved snapshot.table s.tables.db t.org t.name with
      | some _ => (s', { t with pc := .answered 403 })
      | none => (s', { t with pc := .resolve .orgIdBySlug snapshot.seen })

/-- `EnsureRepository` as a push calls it. -/
def ensureStep (s : Naming) (t : NamedPush) (v : Visibility) :
    Answer → Option (Naming × NamedPush)
  | .fresh id acked =>
    if s.tables.db.repositories.any (fun r => decide (r.id = id)) then none
    else
      match s.tables.ensureRepository t.org t.name v id with
      | none => some (s, { t with pc := .answered 500 })
      | some (tables, r) =>
        some ({ s with tables := tables },
          { t with pc := if acked then .found r else .answered 500 })
  | .failed => some (s, { t with pc := .answered 500 })
  | _ => none

def Resolved.toPc (seen : Nat) : Resolved → WritePc
  | .more pc => .resolve pc seen
  | .repo r => .found r
  | .answered status => .answered status

def namedAct (s : Naming) (_ : Nat) (t : NamedPush) (c : NameCall) : Option (Naming × NamedPush) :=
  match t.pc, c with
  | .resolve .moved _, .moved loads answers => some (movedStep s t loads answers)
  | .resolve .moved _, .call _ => none
  | .resolve (.ensureGet v) _, .call a => ensureStep s t v a
  | .resolve pc seen, .call a =>
    (resolveRead s.tables.db t.org t.name t.digest pc a).map fun out =>
      (s, { t with pc := out.toPc seen })
  | _, _ => none

def namedEnv (s : Naming) : NameEvent → Option Naming
  | .tick now => if s.now ≤ now then some { s with now := now } else none
  | .change c =>
    (c.apply s.tables).map fun out =>
      { s with tables := out.1, departures := s.departures ++ out.2 }

def NamedPush.fresh (t : NamedPush) : Bool := decide (t.pc = .resolve .getRepository 0)

/-- Any number of pushes on any number of replicas that start without a snapshot. -/
def namingProgram : Program Naming NamedPush NameCall NameEvent where
  init s := s.tables.WellNamed ∧ (∀ replica, s.snapshots replica = none) ∧ s.departures = []
  fresh := NamedPush.fresh
  act := namedAct
  env := namedEnv

abbrev namingMachine : Machine (Pool Naming NamedPush) (Move NamedPush NameCall NameEvent) :=
  namingProgram.machine

/-- Since the snapshot was read no repository has left the name, and no organization has taken
its slug. -/
def nameUndisturbed (departures : List Departure) (seen : Nat) (org name : String) : Bool :=
  (departures.drop seen).all fun d => decide (d ≠ .left org name ∧ d ≠ .took org)

/-- The condition on a step: the repository of a name that redirects is created only where the
name is nameUndisturbed. -/
def snapshotHolds (p : Pool Naming NamedPush) : Move NamedPush NameCall NameEvent → Bool
  | .act i _ =>
    (p.tasks[i]?).all fun t : NamedPush =>
      match t.pc with
      | .resolve (.ensureGet _) seen =>
        !p.shared.tables.redirects t.org t.name ||
          nameUndisturbed p.shared.departures seen t.org t.name
      | _ => true
  | _ => true

abbrev SnapshotHolds (p : Pool Naming NamedPush) (m : Move NamedPush NameCall NameEvent) : Prop :=
  snapshotHolds p m = true

/-- What is promised of a step of a push: `EnsureRepository` refuses a name that redirects, and
leaves the tables. -/
def FormerNameKept (p p' : Pool Naming NamedPush) (i : Nat) : Prop :=
  ∀ t v seen, p.tasks[i]? = some t → t.pc = .resolve (.ensureGet v) seen →
    p.shared.tables.redirects t.org t.name = true → p'.shared.tables = p.shared.tables ∧
        ∃ t' status, p'.tasks[i]? = some t' ∧ t'.pc = .answered status ∧ 400 ≤ status

/-! ## Snapshots -/

variable {db : Db}

section snapshots

variable {t t' : PushTables} {tab : RedirectTable} {org name : String} {orgId : OrgId}

/-- The snapshot shows every row that redirects the name now. -/
def Shows (tab : RedirectTable) (t : PushTables) (org name : String) : Prop :=
  ∀ orgId, t.db.orgIdBySlug org = some orgId → tab.org org = none ∧ ∀ r, Leads t org name orgId r →
      r.organizationSlug ∈ org :: tab.oldSlugs orgId ∧ tab.repo r.organizationSlug name = some r

theorem Shows.narrows (h : Shows tab t org name) (hn : Narrows t t' org name) :
    Shows tab t' org name := by
  intro orgId horg
  obtain ⟨hbefore, hleads⟩ := hn orgId horg
  obtain ⟨hnone, hshows⟩ := h orgId hbefore
  exact ⟨hnone, fun r hr => hshows r (hleads r hr)⟩

theorem mem_loaded_orgs {o : OrgRedirect} (h : o ∈ t.loadRedirects.orgs) :
    ⟨o.oldSlug, o.orgId⟩ ∈ t.organizationRedirects := by
  obtain ⟨r, hr, hsome⟩ := mem_filterMap.mp h
  obtain ⟨current, -, rfl⟩ := Option.map_eq_some_iff.mp hsome
  exact hr

theorem loaded_org_none (h : t.WellNamed) (horg : t.db.orgIdBySlug org = some orgId) :
    t.loadRedirects.org org = none := by
  obtain ⟨o, ho, hslug, -⟩ := (orgIdBySlug_eq_some h).mp horg
  cases hfind : t.loadRedirects.org org with
  | none => rfl
  | some redirect =>
    obtain ⟨hmem, hold⟩ := find_some hfind
    have hcurrent := h.current o ho _ (mem_loaded_orgs hmem)
    exact absurd (hold.trans hslug.symm) hcurrent

theorem shows_loaded (h : t.WellNamed) : Shows t.loadRedirects t org name := by
  intro orgId horg
  refine ⟨loaded_org_none h horg, fun r hleads => ?_⟩
  obtain ⟨hr, hname, hunder⟩ := hleads
  constructor
  · rcases hunder with hslug | hformer
    · rw [hslug]
      exact mem_cons_self ..
    · obtain ⟨o, ho, hid⟩ := h.formerOrgs _ hformer
      have hfind : Table.find Organization.id orgId t.db.organizations = some o := by
        have hself := h.orgs.find_self ho
        rw [hid] at hself
        exact hself
      have hmem : ⟨r.organizationSlug, orgId, o.slug⟩ ∈ t.loadRedirects.orgs := by
        refine mem_filterMap.mpr ⟨_, hformer, ?_⟩
        rw [hfind]
        rfl
      refine mem_cons_of_mem _ (mem_map.mpr ⟨_, mem_filter.mpr ⟨hmem, ?_⟩, rfl⟩)
      exact decide_eq_true rfl
  · have hmem : r ∈ t.loadRedirects.repos := by
      obtain ⟨repo, hrepo, hid⟩ := h.targets r hr
      exact mem_filter.mpr ⟨hr, any_eq_true.mpr ⟨repo, hrepo, decide_eq_true hid⟩⟩
    have hself : Table.find RepositoryRedirect.key r.key t.loadRedirects.repos = some r :=
      Table.Keyed.find_self (h.redirects.filter _) hmem
    unfold RepositoryRedirect.key at hself
    rw [hname] at hself
    exact hself

theorem getRepositoryById_isSome (h : t.WellNamed) {id : RepoId}
    (hrepo : ∃ repo ∈ t.db.repositories, repo.id = id) :
    (t.db.getRepositoryById id).isSome := by
  obtain ⟨repo, hmem, hid⟩ := hrepo
  unfold Db.getRepositoryById
  cases hfind : Table.find Repository.id id t.db.repositories with
  | none => exact absurd hid (find_none hfind hmem)
  | some found =>
    obtain ⟨o, ho, howner⟩ := h.owners found (find_some hfind).1
    simp only [Option.isSome_map]
    cases horg : Table.find Organization.id found.orgId t.db.organizations with
    | none => exact absurd howner (find_none horg ho)
    | some owner => rfl

variable {slugs : List String} {r : RepositoryRedirect}

theorem resolveUnder_isSome {slug : String}
    (hslug : slug ∈ slugs) (hr : tab.repo slug name = some r)
    (hrepo : (db.getRepositoryById r.repositoryId).isSome) :
    (resolveUnder tab db name slugs).isSome := by
  induction slugs with
  | nil => cases hslug
  | cons s slugs ih =>
    unfold resolveUnder
    have hrest (hmem : slug ∈ slugs) : (resolveUnder tab db name slugs).isSome := ih hmem
    rcases mem_cons.mp hslug with rfl | hmem
    · obtain ⟨ref, href⟩ := Option.isSome_iff_exists.mp hrepo
      simp only [hr, href, Option.isSome_some]
    · cases hs : tab.repo s name with
      | none => exact hrest hmem
      | some other =>
        simp only
        cases hid : db.getRepositoryById other.repositoryId with
        | none => exact hrest hmem
        | some ref => rfl

theorem exists_of_resolveUnder (h : (resolveUnder tab db name slugs).isSome) :
    ∃ slug ∈ slugs, ∃ r, tab.repo slug name = some r := by
  induction slugs with
  | nil => cases h
  | cons s slugs ih =>
    cases hs : tab.repo s name with
    | some r => exact ⟨s, mem_cons_self .., r, hs⟩
    | none =>
      unfold resolveUnder at h
      rw [hs] at h
      obtain ⟨slug, hslug, r, hr⟩ := ih h
      exact ⟨slug, mem_cons_of_mem _ hslug, r, hr⟩

theorem Shows.resolves (h : Shows tab t org name) (hw : t.WellNamed)
    (horg : t.db.orgIdBySlug org = some orgId)
    (hleads : Leads t org name orgId r) : (resolveMoved tab t.db org name).isSome := by
  obtain ⟨hnone, hshows⟩ := h orgId horg
  obtain ⟨hslug, hrepo⟩ := hshows r hleads
  have hnonempty : tab.empty = false := by
    have hmem : r ∈ tab.repos := (find_some hrepo).1
    unfold RedirectTable.empty
    cases hrepos : tab.repos with
    | nil =>
      rw [hrepos] at hmem
      cases hmem
    | cons x xs => exact and_false _
  unfold resolveMoved
  simp only [hnonempty, false_eq_true, if_false, hnone, horg]
  exact resolveUnder_isSome hslug hrepo (getRepositoryById_isSome hw (hw.targets r hleads.1))

theorem leads_of_redirects (hw : t.WellNamed) (horg : t.db.orgIdBySlug org = some orgId)
    (h : t.redirects org name = true) : ∃ r, Leads t org name orgId r := by
  obtain ⟨-, hsome⟩ := and_eq_true_iff.mp h
  have hnone := loaded_org_none hw horg
  unfold resolveMoved at hsome
  split at hsome
  · cases hsome
  · simp only [hnone, horg] at hsome
    obtain ⟨slug, hslug, r, hr⟩ := exists_of_resolveUnder hsome
    obtain ⟨hmem, hkey⟩ := find_some hr
    obtain ⟨hslugEq, hname⟩ := Prod.mk.inj hkey
    refine ⟨r, (mem_filter.mp hmem).1, hname, ?_⟩
    rcases mem_cons.mp hslug with hhere | hold
    · exact .inl (hslugEq.trans hhere)
    · obtain ⟨o, ho, holdSlug⟩ := mem_map.mp hold
      obtain ⟨homem, hid⟩ := mem_filter.mp ho
      have hrow := mem_loaded_orgs homem
      rw [of_decide_eq_true hid, holdSlug, ← hslugEq] at hrow
      exact .inr hrow

end snapshots

/-- No row redirects the name. -/
def NoLead (t : PushTables) (org name : String) : Prop :=
  ∀ orgId, t.db.orgIdBySlug org = some orgId → ∀ r, ¬ Leads t org name orgId r

def ResolvePc.checked : ResolvePc → Bool
  | .getRepository | .orgHasBlob _ | .storageQuota _ | .moved => false
  | _ => true

/-- A snapshot shows the names undisturbed since it was read. -/
def Snapshot.Valid (s : Naming) (snapshot : Snapshot) : Prop :=
  snapshot.seen ≤ s.departures.length ∧ ∀ org name,
    nameUndisturbed s.departures snapshot.seen org name = true →
      Shows snapshot.table s.tables org name

def Naming.Good (s : Naming) : Prop :=
  s.tables.WellNamed ∧ ∀ replica snapshot, s.snapshots replica = some snapshot → snapshot.Valid s

/-- A push past the lookup has a name that leads nowhere, while it is undisturbed. -/
def NamedPush.Checked (s : Naming) (t : NamedPush) : Prop :=
  ∀ pc seen, t.pc = .resolve pc seen → pc.checked = true → seen ≤ s.departures.length ∧
      (nameUndisturbed s.departures seen t.org t.name = true → NoLead s.tables t.org t.name)

section runs

variable {s s' : Naming} {t t' : NamedPush}

variable {org name : String}

theorem nameUndisturbed_append {ds new : List Departure} {seen : Nat}
    (hseen : seen ≤ ds.length) : nameUndisturbed (ds ++ new) seen org name = true ↔
      nameUndisturbed ds seen org name = true ∧ ∀ d ∈ new, d ≠ .left org name ∧ d ≠ .took org := by
  unfold nameUndisturbed
  rw [drop_append_of_le_length hseen, all_append, and_eq_true, all_eq_true, all_eq_true]
  simp only [decide_eq_true_eq]

theorem NoLead.narrows {t t' : PushTables} (h : NoLead t org name)
    (hn : Narrows t t' org name) : NoLead t' org name := by
  intro orgId horg r hleads
  obtain ⟨hbefore, hrows⟩ := hn orgId horg
  exact h orgId hbefore r (hrows r hleads)

structure NamesStep (s s' : Naming) (new : List Departure) : Prop where
  evolves : Evolves s.tables s'.tables new
  departures : s'.departures = s.departures ++ new

variable {snapshot : Snapshot}

section

variable {new : List Departure} (h : NamesStep s s' new)
include h

theorem NamesStep.valid (hv : snapshot.Valid s) : snapshot.Valid s' := by
  obtain ⟨hseen, hshows⟩ := hv
  refine ⟨?_, fun org name hkept => ?_⟩
  · rw [h.departures, length_append]
    omega
  · rw [h.departures, nameUndisturbed_append hseen] at hkept
    exact (hshows org name hkept.1).narrows (h.evolves.narrows org name hkept.2)

theorem NamesStep.checked (ht : t.Checked s) : t.Checked s' := by
  intro pc seen hpc hchecked
  obtain ⟨hseen, hclear⟩ := ht pc seen hpc hchecked
  refine ⟨?_, fun hkept => ?_⟩
  · rw [h.departures, length_append]
    omega
  · rw [h.departures, nameUndisturbed_append hseen] at hkept
    exact (hclear hkept.1).narrows (h.evolves.narrows _ _ hkept.2)

theorem NamesStep.good (hsnapshots : s'.snapshots = s.snapshots) (hg : s.Good) : s'.Good := by
  refine ⟨h.evolves.wellNamed, fun replica snapshot hsome => ?_⟩
  rw [hsnapshots] at hsome
  exact h.valid (hg.2 replica snapshot hsome)

end

theorem NamesStep.still (hw : s.tables.WellNamed) (htables : s'.tables = s.tables)
    (hdepartures : s'.departures = s.departures) : NamesStep s s' [] := by
  refine ⟨⟨htables ▸ hw, fun org name _ orgId horg => ?_⟩, ?_⟩
  · rw [htables] at horg ⊢
    exact ⟨horg, fun r hr => hr⟩
  · rw [hdepartures, append_nil]

/-! ## Steps -/

theorem cachedRedirects_valid (hg : s.Good) {replica : Nat} {loads : Bool}
    (h : cachedRedirects (s.snapshots replica) s.now (if loads then
      some ⟨s.tables.loadRedirects, s.now, s.departures.length⟩ else none) = some snapshot) :
    snapshot.Valid s := by
  have hloaded (new : Snapshot) (hnew : (if loads then
      some (⟨s.tables.loadRedirects, s.now, s.departures.length⟩ : Snapshot) else none) =
        some new) : new.Valid s := by
    cases loads with
    | false => cases hnew
    | true =>
      cases hnew
      exact ⟨Nat.le_refl _, fun org name _ => shows_loaded hg.1⟩
  unfold cachedRedirects at h
  cases hold : s.snapshots replica with
  | none =>
    rw [hold] at h
    exact hloaded snapshot h
  | some old =>
    rw [hold] at h
    simp only at h
    split at h
    · cases h
      exact hg.2 replica snapshot hold
    · have hcase := Option.some.inj h
      cases hload : (if loads then
          some (⟨s.tables.loadRedirects, s.now, s.departures.length⟩ : Snapshot) else none) with
      | none =>
        rw [hload] at hcase
        exact hcase ▸ hg.2 replica old hold
      | some new =>
        rw [hload] at hcase
        exact hcase ▸ hloaded new hload

variable {a : Answer}

theorem resolveRead_checked {d : Digest} {pc pc' : ResolvePc} (hmoved : pc ≠ .moved)
    (h : resolveRead db org name d pc a = some (.more pc')) (hchecked : pc'.checked = true) :
    pc.checked = true := by
  cases pc with
  | moved => exact absurd rfl hmoved
  | getRepository =>
    cases a with
    | ok =>
      unfold resolveRead at h
      cases hr : db.getRepository org name <;> rw [hr] at h <;> cases h <;> cases hchecked
    | refused | visibility v | fresh id acked | failed | lost => cases h
  | orgHasBlob repo =>
    cases a with
    | ok =>
      unfold resolveRead at h
      simp only at h
      split at h
      · cases h
      · cases h
        cases hchecked
    | refused | visibility v | fresh id acked | failed | lost => cases h
  | storageQuota repo => cases a <;> cases h
  | orgIdBySlug | defaultVisibility o | repositoryQuota o v | newOrgHasBlob o v
  | newStorageQuota o v | ensureGet v | ensureOrgId v | ensureInsert o v => rfl

theorem movedStep_keeps (hg : s.Good) (loads answers : Bool) :
    (movedStep s t loads answers).1.tables = s.tables ∧
      (movedStep s t loads answers).1.departures = s.departures ∧
        (movedStep s t loads answers).1.Good ∧
          (movedStep s t loads answers).2.Checked (movedStep s t loads answers).1 := by
  have hanswered (status : Nat) (x : Naming) :
      NamedPush.Checked x { t with pc := .answered status } := by
    intro pc seen hpc
    cases hpc
  unfold movedStep
  simp only
  cases hcache : cachedRedirects (s.snapshots t.replica) s.now (if loads then
      some ⟨s.tables.loadRedirects, s.now, s.departures.length⟩ else none) with
  | none => exact ⟨rfl, rfl, hg, hanswered 500 s⟩
  | some snapshot =>
    have hvalid := cachedRedirects_valid hg hcache
    have hgood : Naming.Good
        { s with snapshots := Function.update s.snapshots t.replica (some snapshot) } := by
      refine ⟨hg.1, fun replica found hsome => ?_⟩
      have hsome : Function.update s.snapshots t.replica (some snapshot) replica = some found :=
        hsome
      by_cases hreplica : replica = t.replica
      · rw [hreplica, Function.update_self] at hsome
        cases hsome
        exact hvalid
      · rw [Function.update_of_ne hreplica] at hsome
        exact hg.2 replica found hsome
    cases answers with
    | false => exact ⟨rfl, rfl, hgood, hanswered 500 _⟩
    | true =>
      simp only [Bool.not_true, false_eq_true, if_false]
      cases hmoved : resolveMoved snapshot.table s.tables.db t.org t.name with
      | some ref => exact ⟨rfl, rfl, hgood, hanswered 403 _⟩
      | none =>
        refine ⟨rfl, rfl, hgood, fun pc seen hpc _ => ?_⟩
        cases hpc
        refine ⟨hvalid.1, fun hkept orgId horg r hleads => ?_⟩
        -- a row that leads the name elsewhere would have been found
        have hfound := (hvalid.2 _ _ hkept).resolves hg.1 horg hleads
        rw [hmoved] at hfound
        cases hfound

theorem ensureStep_keeps (hg : s.Good) {v : Visibility} (h : ensureStep s t v a = some (s', t')) :
    NamesStep s s' [] ∧ s'.snapshots = s.snapshots ∧ t'.Checked s' := by
  have hdone (pc : WritePc) (hpc : ∀ next seen, pc ≠ .resolve next seen) (x : Naming) :
      NamedPush.Checked x { t with pc := pc } := by
    intro next seen heq
    exact absurd heq (hpc next seen)
  cases a with
  | fresh id acked =>
    unfold ensureStep at h
    simp only at h
    split at h
    · cases h
    · split at h
      · cases h
        exact ⟨.still hg.1 rfl rfl, rfl, hdone _ (fun _ _ heq => by cases heq) _⟩
      · rename_i _ hensure
        cases h
        refine ⟨⟨evolves_ensure hg.1 hensure, (append_nil _).symm⟩, rfl, hdone _ ?_ _⟩
        intro next seen heq
        cases acked <;> cases heq
  | failed =>
    cases h
    exact ⟨.still hg.1 rfl rfl, rfl, hdone _ (fun _ _ heq => by cases heq) _⟩
  | ok | refused | visibility v' | lost => cases h

variable {c : NameCall}

theorem namedAct_cases {i : Nat} (h : namedAct s i t c = some (s', t')) :
    (∃ loads answers, (s', t') = movedStep s t loads answers) ∨
    (∃ v seen a, t.pc = .resolve (.ensureGet v) seen ∧ ensureStep s t v a = some (s', t')) ∨
    (∃ pc seen a out, t.pc = .resolve pc seen ∧ pc ≠ .moved ∧ (∀ v, pc ≠ .ensureGet v) ∧
      resolveRead s.tables.db t.org t.name t.digest pc a = some out ∧ s' = s ∧
        t' = { t with pc := out.toPc seen }) := by
  unfold namedAct at h
  split at h
  · exact .inl ⟨_, _, (Option.some.inj h).symm⟩
  · cases h
  · rename_i v seen a hpc
    exact .inr (.inl ⟨v, seen, a, hpc, h⟩)
  · rename_i pc seen a hmoved hensure hpc
    obtain ⟨out, hout, heq⟩ := Option.map_eq_some_iff.mp h
    obtain ⟨rfl, rfl⟩ := Prod.mk.inj heq
    exact .inr (.inr ⟨pc, seen, a, out, hpc, hmoved, hensure, hout, rfl, rfl⟩)
  · cases h

theorem namedAct_keeps (hg : s.Good) (ht : t.Checked s) (i : Nat)
    (h : namedAct s i t c = some (s', t')) :
    NamesStep s s' [] ∧ s'.Good ∧ t'.Checked s' := by
  rcases namedAct_cases h with ⟨loads, answers, heq⟩ | ⟨v, seen, a, -, hensure⟩ |
      ⟨pc, seen, a, out, hpc, hmoved, -, hread, rfl, rfl⟩
  · obtain ⟨htables, hdepartures, hgood, hchecked⟩ :=
      movedStep_keeps (t := t) hg loads answers
    rw [← heq] at htables hdepartures hgood hchecked
    exact ⟨.still hg.1 htables hdepartures, hgood, hchecked⟩
  · obtain ⟨hstep, hsnapshots, hchecked⟩ := ensureStep_keeps hg hensure
    exact ⟨hstep, hstep.good hsnapshots hg, hchecked⟩
  · refine ⟨.still hg.1 rfl rfl, hg, fun pc' seen' hpc' hchecked => ?_⟩
    cases out with
    | more next =>
      cases hpc'
      exact ht pc seen hpc (resolveRead_checked hmoved hread hchecked)
    | repo r | answered status => cases hpc'

theorem namedEnv_keeps (hg : s.Good) {e : NameEvent} (h : namedEnv s e = some s') :
    ∃ new, NamesStep s s' new ∧ s'.snapshots = s.snapshots := by
  cases e with
  | tick now =>
    have htick : (if s.now ≤ now then some { s with now := now } else none) = some s' := h
    split at htick
    · cases htick
      exact ⟨[], .still hg.1 rfl rfl, rfl⟩
    · cases htick
  | change c =>
    obtain ⟨out, hout, rfl⟩ := Option.map_eq_some_iff.mp h
    exact ⟨out.2, ⟨evolves_change hg.1 hout, rfl⟩, rfl⟩

theorem namingOutline (C : Pool Naming NamedPush → Move NamedPush NameCall NameEvent → Prop) :
    namingProgram.Outline C Naming.Good fun s _ t => t.Checked s where
  init := by
    rintro s ⟨hw, hnone, -⟩
    refine ⟨hw, fun replica snapshot hsome => ?_⟩
    rw [hnone] at hsome
    cases hsome
  spawn := by
    intro p t _ _ hfresh pc seen hpc hchecked
    have hstart : t.pc = .resolve .getRepository 0 := of_decide_eq_true hfresh
    rw [hstart] at hpc
    cases hpc
    cases hchecked
  act := by
    intro p i a t s' t' h _ ht hact
    exact (namedAct_keeps h.shared (h.tasks i t ht) i hact).2
  interfere := by
    intro p i a t s' t' h _ ht hact j q _ hq
    exact (namedAct_keeps h.shared (h.tasks i t ht) i hact).1.checked (h.tasks j q hq)
  env := by
    intro p e s' h _ henv
    obtain ⟨new, hstep, hsnapshots⟩ := namedEnv_keeps h.shared henv
    exact ⟨hstep.good hsnapshots h.shared, fun j q hq => hstep.checked (h.tasks j q hq)⟩

end runs

/-- **A former name is kept** by every step of a run that meets the condition: where a push
comes to create the repository of a name that redirects, it is refused and nothing changes. -/
theorem former_name_kept (p p' : Pool Naming NamedPush) (i : Nat) (c : NameCall)
    (hrun : namingMachine.Run SnapshotHolds p) (hholds : SnapshotHolds p (.act i c))
    (hstep : namingMachine.step p (.act i c) = some p') : FormerNameKept p p' i := by
  intro t v seen ht hpc hredirects
  have hinv := (namingOutline SnapshotHolds).run hrun
  have hundisturbed : nameUndisturbed p.shared.departures seen t.org t.name = true := by
    unfold SnapshotHolds snapshotHolds at hholds
    simp only [ht, Option.all_some, hpc, hredirects, Bool.not_true, Bool.false_or] at hholds
    exact hholds
  obtain ⟨-, hclear⟩ := hinv.tasks i t ht _ _ hpc rfl
  -- the slug is that of no organization: a row would lead the name elsewhere
  have hnone : p.shared.tables.db.orgIdBySlug t.org = none := by
    cases horg : p.shared.tables.db.orgIdBySlug t.org with
    | none => rfl
    | some orgId =>
      obtain ⟨r, hleads⟩ := leads_of_redirects hinv.shared.1 horg hredirects
      exact absurd hleads (hclear hundisturbed orgId horg r)
  have hget : p.shared.tables.db.getRepository t.org t.name = none := by
    unfold Db.getRepository
    rw [hnone]
  have hensure (fresh : RepoId) : p.shared.tables.ensureRepository t.org t.name v fresh = none := by
    unfold PushTables.ensureRepository
    simp only [hget, hnone]
  have hprogram : namingProgram.step p (.act i c) = some p' := hstep
  rcases Program.step_cases hprogram with ⟨_, hmove, -, -⟩ |
      ⟨j, a, q, s', t', hmove, hq, hact, rfl⟩ | ⟨_, _, hmove, -, -⟩
  · cases hmove
  · cases hmove
    rw [ht] at hq
    cases hq
    have hlt := (List.getElem?_eq_some_iff.mp ht).1
    have hrefused (status : Nat) (hstatus : 400 ≤ status)
        (heq : (s', t') = (p.shared, { t with pc := .answered status })) :
        s'.tables = p.shared.tables ∧ ∃ t'' status, (p.tasks.set i t')[i]? = some t'' ∧
          t''.pc = .answered status ∧ 400 ≤ status := by
      obtain ⟨rfl, rfl⟩ := Prod.mk.inj heq
      exact ⟨rfl, _, status, getElem?_set_self hlt, rfl, hstatus⟩
    have hact : namedAct p.shared i t c = some (s', t') := hact
    unfold namedAct at hact
    rw [hpc] at hact
    cases c with
    | moved loads answers => cases hact
    | call a =>
      have hcall : ensureStep p.shared t v a = some (s', t') := hact
      unfold ensureStep at hcall
      cases a with
      | fresh id acked =>
        simp only at hcall
        split at hcall
        · cases hcall
        · rw [hensure] at hcall
          exact hrefused 500 (by decide) (Option.some.inj hcall).symm
      | failed => exact hrefused 500 (by decide) (Option.some.inj hcall).symm
      | ok | refused | visibility v' | lost => cases hcall
  · cases hmove

/-- One organization with one repository, and replicas that have just started. -/
def acmeNames : Naming where
  tables :=
    { storage :=
        { db :=
            { organizations := [⟨"o1", "acme"⟩]
              repositories := [⟨"r1", "o1", "app", .«private»⟩] }
          driver := []
          now := 0 } }
  snapshots _ := none
  now := 0
  departures := []

theorem acmeNames_init : namingMachine.init ⟨acmeNames, []⟩ := by
  refine ⟨⟨⟨by decide, by decide, by decide, by decide, by decide, by decide, by decide⟩,
    fun _ => rfl, rfl⟩, rfl⟩

def pushTo (i : Nat) (name : String) : List (Move NamedPush NameCall NameEvent) :=
  .spawn ⟨0, "acme", name, "", .resolve .getRepository 0⟩ ::
    [.call .ok, .moved true true, .call .ok, .call (.visibility .«private»), .call .ok,
      .call .ok, .call .ok].map (.act i)

theorem former_name_kept_elsewhere : ∃ p p',
    namingMachine.Run SnapshotHolds p ∧ SnapshotHolds p (.act 0 (.call (.fresh "r3" true))) ∧
      namingMachine.step p (.act 0 (.call (.fresh "r3" true))) = some p' ∧
        p.shared.tables.redirects "acme" "web" = true ∧ FormerNameKept p p' 0 := by
  have hfacts : ((namingMachine.replay SnapshotHolds ⟨acmeNames, []⟩ (pushTo 0 "web" ++
      [.env (.change (.renameOrganization "o1" "apex")),
        .env (.change (.createRepository "o1" "web" .«private» "r2"))])).map fun p =>
      (p.shared.tables.redirects "acme" "web",
        decide (SnapshotHolds p (.act 0 (.call (.fresh "r3" true)))),
        (namingMachine.step p (.act 0 (.call (.fresh "r3" true)))).isSome)) =
        some (true, true, true) := by
    decide +kernel
  obtain ⟨p, hp, htriple⟩ := Option.map_eq_some_iff.mp hfacts
  obtain ⟨hredirects, hpair⟩ := Prod.mk.inj htriple
  obtain ⟨hholds, hsome⟩ := Prod.mk.inj hpair
  obtain ⟨p', hstep⟩ := Option.isSome_iff_exists.mp hsome
  have hrun := Machine.run_of_replay (M := namingMachine) acmeNames_init hp
  have hholds := of_decide_eq_true hholds
  exact ⟨p, p', hrun, hholds, hstep, hredirects, former_name_kept p p' 0 _ hrun hholds hstep⟩

/-- A push loads the snapshot, the repository is renamed, and the old name is pushed to. -/
def renameBetween : List (Move NamedPush NameCall NameEvent) :=
  pushTo 0 "web" ++ .env (.change (.renameRepository "r1" "api")) :: pushTo 1 "app"

/-- The snapshot is too old: the push creates a repository, and the redirect is gone. -/
theorem renameBetween_takes_over : ¬ ∀ p p' i c, namingMachine.Reachable p →
    namingMachine.step p (.act i c) = some p' → FormerNameKept p p' i := by
  intro hall
  have hfacts : ((namingMachine.replay (fun _ _ => True) ⟨acmeNames, []⟩ renameBetween).bind
      fun p => (namingMachine.step p (.act 1 (.call (.fresh "r2" true)))).map fun p' =>
        (p.tasks[1]?, p.shared.tables.redirects "acme" "app",
          p'.shared.tables.db.repositories.length, p.shared.tables.db.repositories.length)) =
        some (some ⟨0, "acme", "app", "", .resolve (.ensureGet .«private») 0⟩, true, 2, 1) := by
    decide +kernel
  obtain ⟨p, hp, hmap⟩ := Option.bind_eq_some_iff.mp hfacts
  obtain ⟨p', hstep, hquad⟩ := Option.map_eq_some_iff.mp hmap
  obtain ⟨htask, htriple⟩ := Prod.mk.inj hquad
  obtain ⟨hredirects, hpair⟩ := Prod.mk.inj htriple
  obtain ⟨hafter, hbefore⟩ := Prod.mk.inj hpair
  have hrun := Machine.run_of_replay (M := namingMachine) acmeNames_init hp
  obtain ⟨hsame, -⟩ := hall p p' 1 _ hrun hstep _ _ _ htask rfl hredirects
  rw [hsame, hbefore] at hafter
  cases hafter

end Chicoree.Registryd
