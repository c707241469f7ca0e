import Chicoree.Images.NewestImage
import Chicoree.Images.TableChanges

/-! # Runs that move `latest`

Deletions of tags next to pushes, one statement at a time. Which tags were pointed elsewhere
or removed is kept in order, and with each deletion how far that had come when it read the tag
and `latest`, and what the tag named when it went. -/

namespace Chicoree.Images

open Transition List Option Table Tables
open Registryd (Digest RepoId Time Repository Organization)

/-! ## The program -/

/-- The tables, and the tags that were pointed elsewhere or removed. -/
structure LatestState where
  tables : Tables
  moved : List (RepoId × String)

/-- How much a deletion had seen of what was moved: at its read of the tag, of `latest`, and
when the tag went, with what the tag named then. -/
structure LatestSeen where
  target : Nat := 0
  latest : Nat := 0
  removed : Option (Digest × Nat) := none
deriving DecidableEq

inductive LatestTask where
  | removal (a : TagRemoval) (pc : TagAdminPc) (seen : LatestSeen)
  /-- A request of a client to registryd. -/
  | client (call : RegistryCall)
deriving DecidableEq

def changedTags (s s' : Tables) : List (RepoId × String) :=
  ((s.tags ++ s'.tags).map TagRow.key).filter fun k =>
    decide (s.resolveTag k.1 k.2 ≠ s'.resolveTag k.1 k.2)

def LatestSeen.after (seen : LatestSeen) (s : LatestState) : TagAdminPc → Reply → LatestSeen
  | .load _ _ _, .query 0 => { seen with target := s.moved.length }
  | .load _ _ _, .query 1 => { seen with latest := s.moved.length }
  | .registryDelete _ (.deleteTag r tag), _ =>
    { seen with removed := (s.tables.resolveTag r.id tag).map fun d => (d, s.moved.length) }
  | _, _ => seen

def LatestState.to (s : LatestState) (tables : Tables) : LatestState :=
  ⟨tables, s.moved ++ changedTags s.tables tables⟩

def LatestTask.fresh : LatestTask → Bool
  | .removal _ .repository seen => decide (seen = {})
  | .client (.resolve _ _ _) => true
  | _ => false

section

variable (localeCompare : String → String → Ordering)

def latestAct (s : LatestState) (_ : Nat) (t : LatestTask) (reply : Reply) :
    Option (LatestState × LatestTask) :=
  match t with
  | .removal a pc seen =>
    (tagAdminAct localeCompare s.tables a pc reply).map fun out =>
      (s.to out.1, .removal a out.2 (seen.after s pc reply))
  | .client call =>
    (registryAct s.tables call reply).map fun out => (s.to out.1, .client out.2)

/-- Any number of deletions and requests, while the clock runs. -/
def latestProgram : Program LatestState LatestTask Reply Time where
  init s := s.tables.Valid ∧ s.moved = []
  fresh := LatestTask.fresh
  act := latestAct localeCompare
  env s now := some { s with tables := { s.tables with now := now } }

abbrev latestMachine : Machine (Pool LatestState LatestTask) (Move LatestTask Reply Time) :=
  (latestProgram localeCompare).machine

end

/-! ## What is promised -/

/-- The deletion is past the tag, at `latest`. -/
def TagAdminPc.atLatest : TagAdminPc → Bool
  | .deleteLatest _ _ | .putLatest _ _ _ => true
  | _ => false

/-- A step of a deletion changes `latest` only where it still names what the deleted tag named
when it was removed. -/
def LatestKept (p p' : Pool LatestState LatestTask) (i : Nat) : Prop :=
  ∀ a pc seen, p.tasks[i]? = some (.removal a pc seen) → pc.atLatest = true →
    p'.shared.tables.resolveTag a.repositoryId "latest" ≠
        p.shared.tables.resolveTag a.repositoryId "latest" →
      ∃ d n, seen.removed = some (d, n) ∧
        p.shared.tables.resolveTag a.repositoryId "latest" = some d

/-- Nobody has pointed `latest` elsewhere since the deletion read it, and nobody the tag between
its read and its removal. -/
def LatestSeen.undisturbed (seen : LatestSeen) (moved : List (RepoId × String)) (a : TagRemoval) : Bool :=
  !(moved.drop seen.latest).contains (a.repositoryId, "latest") &&
    seen.removed.all fun r => !((moved.take r.2).drop seen.target).contains
      (a.repositoryId, a.tagName)

/-- The condition on a step: `latest` is removed or pointed elsewhere by a deletion that is
undisturbed. -/
def latestUndisturbed (p : Pool LatestState LatestTask) : Move LatestTask Reply Time → Bool
  | .act i _ =>
    (p.tasks[i]?).all fun t : LatestTask =>
      match t with
      | .removal a (.deleteLatest _ (.deleteTag r tag)) seen =>
        (p.shared.tables.resolveTag r.id tag).isNone || seen.undisturbed p.shared.moved a
      | .removal a (.putLatest _ _ (.upsertTagGuarded r tag d)) seen =>
        decide (p.shared.tables.resolveTag r.id tag = some d) ||
          seen.undisturbed p.shared.moved a
      | _ => true
  | _ => true

abbrev LatestUndisturbed (p : Pool LatestState LatestTask) (m : Move LatestTask Reply Time) :
    Prop :=
  latestUndisturbed p m = true

/-! ## What the statements of a request leave -/

section calls

variable {s s' : Tables} {r : Repository} {orgSlug tag : String} {reply : Reply}
  {call call' : RegistryCall}

/-- A request that deletes the tag of the repository, as far as it has come. -/
def ServesDelete (orgSlug : String) (r : Repository) (tag : String) : RegistryCall → Prop
  | .resolve o n request => o = orgSlug ∧ n = r.name ∧ request = .deleteTag tag
  | .checkTagDeletable r' t | .resolveTag r' t | .deleteTag r' t => r' = r ∧ t = tag
  | .answered _ _ => True
  | _ => False

def ServesPut (orgSlug : String) (r : Repository) (tag : String) (d : Digest) :
    RegistryCall → Prop
  | .resolve o n request => o = orgSlug ∧ n = r.name ∧
      ∃ m : PushedManifest, m.digest = d ∧ request = .put (some tag) m
  | .checkTagImmutable r' t m => r' = r ∧ t = tag ∧ m.digest = d
  | .upsertManifest r' t m => r' = r ∧ t = some tag ∧ m.digest = d
  | .upsertTagGuarded r' t d' => r' = r ∧ t = tag ∧ d' = d
  | .answered _ _ => True
  | _ => False

/-- Unless it is answered 404, a delete that has not removed the tag is not answered 202. -/
def StillThere (s : Tables) (r : Repository) (tag : String) (call : RegistryCall) : Prop :=
  ∀ status message, call = .answered status message →
    status ≠ 202 ∧ (status = 404 → s.resolveTag r.id tag = none)

/-- A statement of a delete goes on with it; only the last one changes the tables. -/
theorem servesDelete_step (hr : s.getRepository orgSlug r.name = some r)
    (h : ServesDelete orgSlug r tag call) (hact : registryAct s call reply = some (s', call')) :
    ServesDelete orgSlug r tag call' ∧ ((s' = s ∧ StillThere s r tag call') ∨
        (call = .deleteTag r tag ∧ (s.findTag r.id tag).isSome ∧ s' = s.deleteTag r.id tag ∧
          call' = .answered 202 "")) := by
  have hgoes {c : RegistryCall} (hno : ∀ status message, c ≠ .answered status message) :
      StillThere s r tag c := fun status message heq => absurd heq (hno status message)
  cases registryAct_step hact with
  | refused other =>
    refine ⟨trivial, .inl ⟨rfl, fun status message heq => ?_⟩⟩
    cases heq
    exact ⟨other.2.1, fun h404 => absurd h404 other.2.2⟩
  | unknown row | created row =>
    obtain ⟨rfl, rfl, -⟩ := h
    rw [row] at hr
    cases hr
  | resolved row =>
    obtain ⟨rfl, rfl, rfl⟩ := h
    obtain rfl := Option.some.inj (row.symm.trans hr)
    exact ⟨⟨rfl, rfl⟩, .inl ⟨rfl, hgoes nofun⟩⟩
  | deletable | tagResolved => exact ⟨h, .inl ⟨rfl, hgoes nofun⟩⟩
  | tagUnknown row =>
    obtain ⟨rfl, rfl⟩ := h
    refine ⟨trivial, .inl ⟨rfl, fun status message heq => ?_⟩⟩
    cases heq
    refine ⟨by decide, fun _ => ?_⟩
    unfold resolveTag
    rw [row]
    rfl
  | tagDeleted row =>
    obtain ⟨rfl, rfl⟩ := h
    exact ⟨trivial, .inr ⟨rfl, row, rfl, rfl⟩⟩
  | mutable | manifest | untagged | tagged | manifestDeletable | tagsFound | manifestDeleted
  | manifestUnknown => exact h.elim

theorem servesPut_step {d : Digest} (hr : s.getRepository orgSlug r.name = some r)
    (h : ServesPut orgSlug r tag d call) (hact : registryAct s call reply = some (s', call')) :
    ServesPut orgSlug r tag d call' ∧
      ((s'.tags = s.tags ∧ ∀ message, call' ≠ .answered 201 message) ∨
        (call = .upsertTagGuarded r tag d ∧ s' = s.writeTag r.id tag d)) := by
  cases registryAct_step hact with
  | refused other =>
    refine ⟨trivial, .inl ⟨rfl, fun message heq => ?_⟩⟩
    cases heq
    exact other.1 rfl
  | unknown row | created row =>
    obtain ⟨rfl, rfl, -⟩ := h
    rw [row] at hr
    cases hr
  | resolved row =>
    obtain ⟨rfl, rfl, m, hm, rfl⟩ := h
    obtain rfl := Option.some.inj (row.symm.trans hr)
    exact ⟨⟨rfl, rfl, hm⟩, .inl ⟨rfl, nofun⟩⟩
  | mutable =>
    obtain ⟨rfl, rfl, hm⟩ := h
    exact ⟨⟨rfl, rfl, hm⟩, .inl ⟨rfl, nofun⟩⟩
  | manifest =>
    obtain ⟨rfl, ht, hm⟩ := h
    exact ⟨⟨rfl, Option.some.inj ht, hm⟩, .inl ⟨rfl, nofun⟩⟩
  | untagged => cases h.2.1
  | tagged =>
    obtain ⟨rfl, rfl, rfl⟩ := h
    exact ⟨trivial, .inr ⟨rfl, rfl⟩⟩
  | deletable | tagResolved | tagUnknown | tagDeleted | manifestDeletable | tagsFound
  | manifestDeleted | manifestUnknown => exact h.elim

end calls

section known

variable {s s' : LatestState} {a : TagRemoval} {seen : LatestSeen} {k : TagContext}
  {localeCompare : String → String → Ordering} {t' : Tables} {reply : Reply} {pc pc' : TagAdminPc}

/-- The tag names what was read, if nobody has moved it since. -/
def Holds (s : LatestState) (a : TagRemoval) (name : String) (at_ : Nat) (d : Option Digest) :
    Prop :=
  at_ ≤ s.moved.length ∧ ((a.repositoryId, name) ∉ s.moved.drop at_ →
    s.tables.resolveTag a.repositoryId name = d)

/-- The repository is still found under its name. -/
def Located (s : LatestState) (a : TagRemoval) (r : Repository) (orgSlug : String) : Prop :=
  r.id = a.repositoryId ∧ s.tables.getRepository orgSlug r.name = some r

/-- The tag named what was read when it was removed, if nobody had moved it by then. -/
def Gone (s : LatestState) (a : TagRemoval) (k : TagContext) (seen : LatestSeen) : Prop :=
  ∃ d n, seen.removed = some (d, n) ∧ n ≤ s.moved.length ∧
    ((a.repositoryId, a.tagName) ∉ (s.moved.take n).drop seen.target → k.target.manifestDigest = d)

/-- What a deletion knows before it reads the remaining tags. -/
structure Before (s : LatestState) (a : TagRemoval) (k : TagContext) (seen : LatestSeen) :
    Prop where
  located : Located s a k.repository k.orgSlug
  latest : Holds s a "latest" seen.latest (k.latest.map (·.manifestDigest))

/-- What a deletion knows that is to move `latest`. -/
structure Following (s : LatestState) (a : TagRemoval) (k : TagContext) (seen : LatestSeen) :
    Prop extends Before s a k seen where
  gone : Gone s a k seen
  same : k.latest.map (·.manifestDigest) = some k.target.manifestDigest

def LatestKnown (s : LatestState) (a : TagRemoval) (seen : LatestSeen) : TagAdminPc → Prop
  | .repository => True
  | .organization r => s.tables.findRepository a.repositoryId = some r
  | .load r orgSlug q =>
    Located s a r orgSlug ∧ (∀ row, q.target = some (some row) →
        Holds s a a.tagName seen.target (some row.manifestDigest)) ∧
      ∀ l, q.latest = some l → Holds s a "latest" seen.latest (l.map (·.manifestDigest))
  | .registryDelete k call =>
    Before s a k seen ∧ ServesDelete k.orgSlug k.repository a.tagName call ∧
      (call.isAnswered = false → Holds s a a.tagName seen.target (some k.target.manifestDigest)) ∧
      ∀ message, call = .answered 202 message → Gone s a k seen
  | .remaining k | .pickNewest k _ | .fetchManifest k _ => Following s a k seen
  | .deleteLatest k call =>
    Following s a k seen ∧ ServesDelete k.orgSlug k.repository "latest" call
  | .putLatest k pick call =>
    Following s a k seen ∧ ServesPut k.orgSlug k.repository "latest" pick.manifestDigest call
  | .done _ => True

structure Goes (s s' : LatestState) : Prop where
  moved : ∃ new, s'.moved = s.moved ++ new ∧ ∀ repo name, (repo, name) ∉ new →
    s'.tables.resolveTag repo name = s.tables.resolveTag repo name
  found : ∀ id r, s.tables.findRepository id = some r → s'.tables.findRepository id = some r
  located : ∀ orgSlug name r, s.tables.getRepository orgSlug name = some r →
    s'.tables.getRepository orgSlug name = some r

theorem resolveTag_of_not_changed {t t' : Tables} {repo : RepoId} {name : String}
    (h : (repo, name) ∉ changedTags t t') : t'.resolveTag repo name = t.resolveTag repo name := by
  by_contra hne
  refine h (mem_filter.mpr ⟨?_, decide_eq_true (Ne.symm hne)⟩)
  have hfound {x : Tables} {row : TagRow} (hx : x.findTag repo name = some row) :
      (repo, name) ∈ x.tags.map TagRow.key := by
    obtain ⟨hmem, hkey⟩ := find_some hx
    exact mem_map.mpr ⟨row, hmem, hkey⟩
  rw [map_append]
  cases hold : t.findTag repo name with
  | some row => exact mem_append_left _ (hfound hold)
  | none =>
    cases hnew : t'.findTag repo name with
    | some row => exact mem_append_right _ (hfound hnew)
    | none =>
      unfold resolveTag at hne
      rw [hold, hnew] at hne
      exact absurd rfl hne

theorem goes_to
    (hfound : ∀ id r, s.tables.findRepository id = some r → t'.findRepository id = some r)
    (hlocated : ∀ orgSlug name r, s.tables.getRepository orgSlug name = some r →
      t'.getRepository orgSlug name = some r) : Goes s (s.to t') :=
  ⟨⟨_, rfl, fun _ _ h => resolveTag_of_not_changed h⟩, hfound, hlocated⟩

theorem registryChange_goes {c : RegistryCall} (h : RegistryChange s.tables reply c t') :
    Goes s (s.to t') := by
  have hsame {t : Tables} (hrepos : t.repositories = s.tables.repositories)
      (horgs : t.organizations = s.tables.organizations) : Goes s (s.to t) := by
    refine goes_to (fun id r hr => ?_) fun orgSlug name r hr => ?_
    · unfold findRepository
      rw [hrepos]
      exact hr
    · unfold getRepository
      rw [hrepos, horgs]
      exact hr
  cases h with
  | same | manifest | tagged | tagDeleted | manifestDeleted => exact hsame rfl rfl
  | created row =>
    obtain ⟨-, -, rfl⟩ := createRepository_some row
    refine goes_to (fun id r hr => ?_) fun orgSlug name r hr => ?_
    · exact find_append_of_some hr
    · unfold getRepository at hr ⊢
      cases horg : Table.find Organization.slug orgSlug s.tables.organizations with
      | none =>
        rw [horg] at hr
        cases hr
      | some o =>
        rw [horg] at hr
        exact find_append_of_some hr

theorem Holds.goes {name : String} {n : Nat} {d : Option Digest} (h : Holds s a name n d)
    (hg : Goes s s') : Holds s' a name n d := by
  obtain ⟨new, hnew, hkept⟩ := hg.moved
  obtain ⟨hle, hnames⟩ := h
  refine ⟨?_, fun hnot => ?_⟩
  · rw [hnew, length_append]
    omega
  · rw [hnew, drop_append_of_le_length hle, mem_append, not_or] at hnot
    rw [hkept _ _ hnot.2]
    exact hnames hnot.1

theorem Located.goes {r : Repository} {orgSlug : String} (h : Located s a r orgSlug)
    (hg : Goes s s') : Located s' a r orgSlug :=
  ⟨h.1, hg.located _ _ _ h.2⟩

theorem Gone.goes (h : Gone s a k seen) (hg : Goes s s') : Gone s' a k seen := by
  obtain ⟨new, hnew, -⟩ := hg.moved
  obtain ⟨d, n, hremoved, hle, hnames⟩ := h
  refine ⟨d, n, hremoved, ?_, ?_⟩
  · rw [hnew, length_append]
    omega
  · rw [hnew, take_append_of_le_length hle]
    exact hnames

theorem Before.goes (h : Before s a k seen) (hg : Goes s s') : Before s' a k seen :=
  ⟨h.located.goes hg, h.latest.goes hg⟩

theorem Following.goes (h : Following s a k seen) (hg : Goes s s') : Following s' a k seen :=
  ⟨h.toBefore.goes hg, h.gone.goes hg, h.same⟩

theorem LatestKnown.goes {pc : TagAdminPc} (h : LatestKnown s a seen pc) (hg : Goes s s') :
    LatestKnown s' a seen pc := by
  cases pc with
  | repository | done result => trivial
  | organization r => exact hg.found _ _ h
  | load r orgSlug q =>
    obtain ⟨hlocated, htarget, hlatest⟩ := h
    exact ⟨hlocated.goes hg, fun row hrow => (htarget row hrow).goes hg,
      fun l hl => (hlatest l hl).goes hg⟩
  | registryDelete k call =>
    obtain ⟨hbefore, hserves, htarget, hgone⟩ := h
    exact ⟨hbefore.goes hg, hserves, fun hno => (htarget hno).goes hg,
      fun message heq => (hgone message heq).goes hg⟩
  | remaining k | pickNewest k remaining | fetchManifest k pick => exact Following.goes h hg
  | deleteLatest k call | putLatest k pick call => exact ⟨h.1.goes hg, h.2⟩

/-! ### Its own steps -/

theorem tagAdmin_goes (hv : s.tables.Valid)
    (h : tagAdminAct localeCompare s.tables a pc reply = some (t', pc')) :
    Goes s (s.to t') ∧ t'.Valid := by
  generalize hc : pc.call = c, hc' : pc'.call = c' at *
  have hstep := tagAdminAct_step h
  rw [hc, hc'] at hstep
  cases hstep with
  | reads => exact ⟨goes_to (fun _ _ hr => hr) fun _ _ _ hr => hr, hv⟩
  | registry act =>
    have hchange := registryAct_change act
    exact ⟨registryChange_goes hchange, registryChange_valid hv hchange⟩

theorem getRepository_of_find {t : Tables} (hv : t.Valid) {id : RepoId} {r : Repository}
    {o : Organization} (hr : t.findRepository id = some r)
    (ho : t.findOrganization r.orgId = some o) : t.getRepository o.slug r.name = some r := by
  obtain ⟨homem, hoid⟩ := find_some ho
  obtain ⟨hrmem, -⟩ := find_some hr
  have hslug : Table.find Organization.slug o.slug t.organizations = some o :=
    hv.organizationSlugs.find_self homem
  have hname : Table.find (fun r : Repository => (r.orgId, r.name)) (r.orgId, r.name)
      t.repositories = some r := hv.repositoryNames.find_self hrmem
  unfold getRepository
  simp only [hslug, hoid]
  exact hname

theorem holds_now {name : String} {d : Option Digest} (ht' : t' = s.tables) {repo : RepoId}
    (hrepo : repo = a.repositoryId)
    (hd : (s.tables.findTag repo name).map (·.manifestDigest) = d) :
    Holds (s.to t') a name s.moved.length d := by
  subst ht' hrepo
  refine ⟨?_, fun _ => hd⟩
  show s.moved.length ≤ (s.moved ++ changedTags s.tables s.tables).length
  rw [length_append]
  omega

section calling

variable {localeCompare : String → String → Ordering} {t t' : Tables} {reply : Reply}
  {call : RegistryCall} {pc' : TagAdminPc}

/-- An action waits for registryd, one statement after the other, until it has answered. -/
theorem call_cases {wait : RegistryCall → TagAdminPc}
    (hwait : wait = .registryDelete k ∨ wait = .deleteLatest k ∨ ∃ pick, wait = .putLatest k pick)
    (h : tagAdminAct localeCompare t a (wait call) reply = some (t', pc')) :
    (∃ status message, call = .answered status message) ∨ call.isAnswered = false ∧
      ∃ call', registryAct t call reply = some (t', call') ∧ pc' = wait call' := by
  cases hno : call.isAnswered with
  | true =>
    cases call with
    | answered status message => exact .inl ⟨status, message, rfl⟩
    | _ => cases hno
  | false =>
    have hmap : (registryAct t call reply).map (fun out => (out.1, wait out.2)) = some (t', pc') := by
      cases call with
      | answered status message => cases hno
      | _ => rcases hwait with rfl | rfl | ⟨pick, rfl⟩ <;> exact h
    obtain ⟨⟨t'', call'⟩, hact, heq⟩ := map_eq_some_iff.mp hmap
    cases heq
    exact .inr ⟨rfl, call', hact, rfl⟩

end calling

theorem known_load {r : Repository} {orgSlug : String} {q : TagQueries}
    (hk : LatestKnown s a seen (.load r orgSlug q)) (hgoes : Goes s (s.to t'))
    (h : tagAdminAct localeCompare s.tables a (.load r orgSlug q) reply = some (t', pc')) :
    LatestKnown (s.to t') a (seen.after s (.load r orgSlug q) reply) pc' := by
  obtain ⟨hlocated, htarget, hlatest⟩ := hk
  simp only [tagAdminAct] at h
  split at h
  · rename_i n
    cases h
    cases n with
    | zero =>
      exact ⟨hlocated.goes hgoes, fun row hrow => holds_now rfl hlocated.1 (by
        rw [Option.some.inj hrow]; rfl), fun l hl => (hlatest l hl).goes hgoes⟩
    | succ n =>
      cases n with
      | zero =>
        exact ⟨hlocated.goes hgoes, fun row hrow => (htarget row hrow).goes hgoes,
          fun l hl => holds_now rfl hlocated.1 (by rw [Option.some.inj hl])⟩
      | succ n =>
        exact ⟨hlocated.goes hgoes, fun row hrow => (htarget row hrow).goes hgoes,
          fun l hl => (hlatest l hl).goes hgoes⟩
  · split at h
    · rename_i target latest rules hqt hql hqr
      cases h
      unfold TagRemoval.check
      cases target with
      | none => trivial
      | some row =>
        simp only
        split
        · trivial
        · refine ⟨⟨hlocated.goes hgoes, (hlatest latest hql).goes hgoes⟩, ⟨rfl, rfl, rfl⟩,
            fun _ => (htarget row hqt).goes hgoes, fun message heq => ?_⟩
          cases heq
    · cases h
  · cases h
    trivial
  · cases h

theorem known_registryDelete {call : RegistryCall}
    (hk : LatestKnown s a seen (.registryDelete k call)) (hgoes : Goes s (s.to t'))
    (h : tagAdminAct localeCompare s.tables a (.registryDelete k call) reply = some (t', pc')) :
    LatestKnown (s.to t') a (seen.after s (.registryDelete k call) reply) pc' := by
  obtain ⟨hbefore, hserves, htarget, hgone⟩ := hk
  rcases call_cases (.inl rfl) h with ⟨status, message, rfl⟩ | ⟨hno, call', hact, rfl⟩
  · cases h
    unfold TagRemoval.deleted
    split
    · trivial
    · split
      · trivial
      · split
        · trivial
        · rename_i h202
          split
          · trivial
          · rename_i hfollow
            split
            · trivial
            · simp only [not_or, ne_eq, not_not] at hfollow h202
              subst h202
              exact ⟨hbefore.goes hgoes, (hgone message rfl).goes hgoes, hfollow.2.2⟩
  · obtain ⟨hserves', heffect⟩ := servesDelete_step hbefore.located.2 hserves hact
    have hlatest : (seen.after s (.registryDelete k call) reply).latest = seen.latest := by
      cases call <;> rfl
    have htargetSeen : (seen.after s (.registryDelete k call) reply).target = seen.target := by
      cases call <;> rfl
    refine ⟨⟨hbefore.located.goes hgoes, hlatest ▸ hbefore.latest.goes hgoes⟩, hserves',
      fun _ => htargetSeen ▸ (htarget hno).goes hgoes, fun message heq => ?_⟩
    rcases heffect with ⟨-, hstill⟩ | ⟨rfl, hsome, -, -⟩
    · exact absurd rfl (hstill 202 message heq).1
    · obtain ⟨row, hrow⟩ := isSome_iff_exists.mp hsome
      have hresolve : s.tables.resolveTag k.repository.id a.tagName =
          some row.manifestDigest := by
        unfold resolveTag
        rw [hrow]
        rfl
      obtain ⟨-, hnames⟩ := htarget hno
      have hafter : (s.to t').moved.take s.moved.length = s.moved := take_left ..
      refine ⟨row.manifestDigest, s.moved.length, ?_, ?_, ?_⟩
      · show (s.tables.resolveTag k.repository.id a.tagName).map _ = _
        rw [hresolve]
        rfl
      · show s.moved.length ≤ (s.moved ++ _).length
        rw [length_append]
        omega
      · rw [hafter, htargetSeen]
        intro hnot
        have hnow := hnames hnot
        rw [← hbefore.located.1, hresolve] at hnow
        exact (Option.some.inj hnow).symm

theorem known_step (hv : s.tables.Valid) (hk : LatestKnown s a seen pc)
    (h : tagAdminAct localeCompare s.tables a pc reply = some (t', pc')) :
    LatestKnown (s.to t') a (seen.after s pc reply) pc' := by
  obtain ⟨hgoes, -⟩ := tagAdmin_goes hv h
  cases pc with
  | done result => cases h
  | repository =>
    simp only [tagAdminAct] at h
    split at h
    · cases h
      trivial
    · split at h
      · cases h
        trivial
      · rename_i _ hr
        cases h
        exact hr
  | organization r =>
    have hfound : s.tables.findRepository a.repositoryId = some r := hk
    simp only [tagAdminAct] at h
    split at h
    · cases h
      trivial
    · split at h
      · cases h
        trivial
      · rename_i _ ho
        cases h
        refine ⟨⟨(find_some hfound).2, getRepository_of_find hv hfound ho⟩,
          fun row hrow => ?_, fun l hl => ?_⟩
        · cases hrow
        · cases hl
  | load r orgSlug q => exact known_load hk hgoes h
  | registryDelete k call => exact known_registryDelete hk hgoes h
  | remaining k =>
    have hfollowing : Following s a k seen := hk
    simp only [tagAdminAct] at h
    split at h
    · cases h
      trivial
    · split at h <;> cases h
      · exact ⟨hfollowing.goes hgoes, rfl, rfl, rfl⟩
      · exact hfollowing.goes hgoes
  | deleteLatest k call =>
    obtain ⟨hfollowing, hserves⟩ := hk
    rcases call_cases (.inr (.inl rfl)) h with ⟨status, message, rfl⟩ | ⟨-, call', hact, rfl⟩
    · cases h
      unfold TagRemoval.latestDeleted
      split
      · trivial
      · split <;> trivial
    · exact ⟨hfollowing.goes hgoes, (servesDelete_step hfollowing.located.2 hserves hact).1⟩
  | pickNewest k remaining =>
    have hfollowing : Following s a k seen := hk
    simp only [tagAdminAct] at h
    split at h
    · cases h
      unfold TagRemoval.follow
      split
      · trivial
      · split
        · trivial
        · exact hfollowing.goes hgoes
    · cases h
      trivial
    · cases h
  | fetchManifest k pick =>
    have hfollowing : Following s a k seen := hk
    simp only [tagAdminAct] at h
    split at h
    · rename_i m hm
      cases h
      obtain ⟨row, -, hdigest⟩ := map_eq_some_iff.mp hm
      exact ⟨hfollowing.goes hgoes, rfl, rfl, m, by rw [← hdigest], rfl⟩
    · cases h
      trivial
  | putLatest k pick call =>
    obtain ⟨hfollowing, hserves⟩ := hk
    rcases call_cases (.inr (.inr ⟨pick, rfl⟩)) h with ⟨status, message, rfl⟩ | ⟨-, call', hact, rfl⟩
    · simp only [tagAdminAct] at h
      split at h <;> cases h <;> trivial
    · exact ⟨hfollowing.goes hgoes, (servesPut_step hfollowing.located.2 hserves hact).1⟩

/-! ## Runs -/

/-- What a deletion knows; a request of a client knows nothing. -/
def LatestTask.Known (s : LatestState) (_ : Nat) : LatestTask → Prop
  | .removal a pc seen => LatestKnown s a seen pc
  | .client _ => True

theorem LatestTask.Known.goes {i : Nat} {t : LatestTask} (h : t.Known s i) (hg : Goes s s') :
    t.Known s' i := by
  cases t with
  | removal a pc seen => exact LatestKnown.goes h hg
  | client call => trivial

theorem latestAct_keeps {i : Nat} {t t' : LatestTask} (hv : s.tables.Valid) (hk : t.Known s i)
    (h : latestAct localeCompare s i t reply = some (s', t')) :
    Goes s s' ∧ s'.tables.Valid ∧ t'.Known s' i := by
  cases t with
  | removal a pc seen =>
    obtain ⟨⟨tables, pc'⟩, hact, heq⟩ := map_eq_some_iff.mp h
    cases heq
    obtain ⟨hgoes, hvalid⟩ := tagAdmin_goes hv hact
    exact ⟨hgoes, hvalid, known_step hv hk hact⟩
  | client call =>
    obtain ⟨⟨tables, call'⟩, hact, heq⟩ := map_eq_some_iff.mp h
    cases heq
    have hchange := registryAct_change hact
    exact ⟨registryChange_goes hchange, registryChange_valid hv hchange, trivial⟩

theorem latestOutline (localeCompare : String → String → Ordering)
    (C : Pool LatestState LatestTask → Move LatestTask Reply Time → Prop) :
    (latestProgram localeCompare).Outline C (fun s => s.tables.Valid) LatestTask.Known where
  init := by
    rintro s ⟨hv, -⟩
    exact hv
  spawn := by
    intro p t _ _ hfresh
    cases t with
    | removal a pc seen =>
      cases pc with
      | repository => trivial
      | _ => cases hfresh
    | client call => trivial
  act := by
    intro p i a t s' t' h _ ht hact
    exact (latestAct_keeps h.shared (h.tasks i t ht) hact).2
  interfere := by
    intro p i a t s' t' h _ ht hact j q _ hq
    exact (h.tasks j q hq).goes (latestAct_keeps h.shared (h.tasks i t ht) hact).1
  env := by
    intro p now s' h _ henv
    cases henv
    refine ⟨h.shared.ofTags rfl rfl rfl h.shared.tagNames, fun j q hq => ?_⟩
    refine (h.tasks j q hq).goes ⟨⟨[], (append_nil _).symm, fun _ _ _ => rfl⟩, ?_, ?_⟩
    · exact fun _ _ hr => hr
    · exact fun _ _ _ hr => hr

/-- An undisturbed deletion finds `latest` at what the tag named when it was removed. -/
theorem Following.undisturbed (h : Following s a k seen)
    (hu : seen.undisturbed s.moved a = true) : ∃ d n, seen.removed = some (d, n) ∧
      s.tables.resolveTag a.repositoryId "latest" = some d := by
  obtain ⟨d, n, hremoved, -, hgone⟩ := h.gone
  unfold LatestSeen.undisturbed at hu
  simp only [hremoved, all_some, Bool.and_eq_true, Bool.not_eq_true',
    contains_eq_mem, decide_eq_false_iff_not] at hu
  obtain ⟨hlatest, htarget⟩ := hu
  refine ⟨d, n, hremoved, ?_⟩
  rw [h.latest.2 hlatest, h.same, hgone htarget]

/-- A step at `latest` leaves the tags, or removes `latest`, or points it at the image that
was picked. -/
theorem atLatest_step (hk : LatestKnown s a seen pc) (hat : pc.atLatest = true)
    (h : tagAdminAct localeCompare s.tables a pc reply = some (t', pc')) :
    t'.tags = s.tables.tags ∨ ∃ k, Following s a k seen ∧
      (pc = .deleteLatest k (.deleteTag k.repository "latest") ∧
          (s.tables.findTag k.repository.id "latest").isSome ∨
        ∃ pick, pc = .putLatest k pick
            (.upsertTagGuarded k.repository "latest" pick.manifestDigest) ∧
          t' = s.tables.writeTag k.repository.id "latest" pick.manifestDigest) := by
  cases pc with
  | deleteLatest k call =>
    obtain ⟨hfollowing, hserves⟩ := hk
    rcases call_cases (.inr (.inl rfl)) h with ⟨status, message, rfl⟩ | ⟨hno, call', hact, rfl⟩
    · cases h
      exact .inl rfl
    · rcases (servesDelete_step hfollowing.located.2 hserves hact).2 with
        ⟨rfl, -⟩ | ⟨rfl, hsome, -, -⟩
      · exact .inl rfl
      · exact .inr ⟨k, hfollowing, .inl ⟨rfl, hsome⟩⟩
  | putLatest k pick call =>
    obtain ⟨hfollowing, hserves⟩ := hk
    rcases call_cases (.inr (.inr ⟨pick, rfl⟩)) h with ⟨status, message, rfl⟩ | ⟨hno, call', hact, rfl⟩
    · simp only [tagAdminAct] at h
      split at h <;> cases h <;> exact .inl rfl
    · rcases (servesPut_step hfollowing.located.2 hserves hact).2 with
        ⟨htags, -⟩ | ⟨rfl, htables⟩
      · exact .inl htags
      · exact .inr ⟨k, hfollowing, .inr ⟨pick, rfl, htables⟩⟩
  | repository | organization r | load r orgSlug q | registryDelete k call | remaining k
  | pickNewest k remaining | fetchManifest k pick | done result => cases hat

theorem resolveTag_writeTag (t : Tables) (repo : RepoId) (name : String) (d : Digest) :
    (t.writeTag repo name d).resolveTag repo name = some d := by
  have hself : Table.find TagRow.key (t.pushedTag repo name d).key
      (Table.upsert TagRow.key (t.pushedTag repo name d) t.tags) =
        some (t.pushedTag repo name d) := find_upsert_self _ _
  rw [pushedTag_key] at hself
  unfold resolveTag findTag writeTag
  rw [hself]
  simp

/-- **`latest` is kept** by every step of a run that meets the condition. -/
theorem latest_kept (localeCompare : String → String → Ordering)
    (p p' : Pool LatestState LatestTask) (i : Nat) (reply : Reply)
    (hrun : (latestMachine localeCompare).Run LatestUndisturbed p)
    (hc : LatestUndisturbed p (.act i reply))
    (hstep : (latestMachine localeCompare).step p (.act i reply) = some p') :
    LatestKept p p' i := by
  have hinv := (latestOutline localeCompare LatestUndisturbed).run hrun
  intro a pc seen ht hat hchanged
  have hprogram : (latestProgram localeCompare).step p (.act i reply) = some p' := hstep
  rcases Program.step_cases hprogram with ⟨_, hmove, -, -⟩ |
      ⟨j, x, t, s', t', hmove, ht', hact, rfl⟩ | ⟨_, _, hmove, -, -⟩
  · cases hmove
  · cases hmove
    rw [ht] at ht'
    cases ht'
    obtain ⟨⟨tables, pc'⟩, hadmin, heq⟩ := map_eq_some_iff.mp hact
    cases heq
    have hchanged : tables.resolveTag a.repositoryId "latest" ≠
        p.shared.tables.resolveTag a.repositoryId "latest" := hchanged
    unfold LatestUndisturbed latestUndisturbed at hc
    simp only [ht, all_some] at hc
    rcases atLatest_step (hinv.tasks i _ ht) hat hadmin with
      htags | ⟨k, hfollowing, ⟨rfl, hsome⟩ | ⟨pick, rfl, rfl⟩⟩
    · refine absurd ?_ hchanged
      unfold resolveTag findTag
      rw [htags]
    · simp only [Bool.or_eq_true, isNone_iff_eq_none] at hc
      rcases hc with hnone | hu
      · unfold resolveTag at hnone
        rw [map_eq_none_iff] at hnone
        rw [hnone] at hsome
        cases hsome
      · exact hfollowing.undisturbed hu
    · simp only [Bool.or_eq_true, decide_eq_true_eq] at hc
      rcases hc with hthere | hu
      · refine absurd ?_ hchanged
        rw [← hfollowing.located.1, hthere]
        exact resolveTag_writeTag ..
      · exact hfollowing.undisturbed hu
  · cases hmove

end known

end Chicoree.Images
