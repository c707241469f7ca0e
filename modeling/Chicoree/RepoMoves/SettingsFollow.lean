import Chicoree.RepoMoves.ScopedSettings

/-! # Settings and the transfer of their repository

A transfer moves the rows of two of the five tables. The rows of the other three stay with
the former organization, where no reader finds them any more. -/

namespace Chicoree.RepoMoves

open Registryd (OrgId RepoId Repository)
open Images (RetentionSettings)
open Transition Bool List Table

/-! ## Rows that follow -/

section rows

variable {β : Type} {f f' : RepoId → Option OrgId} {rows : List (Scoped β)} {repo : RepoId}
  {org target : OrgId}

def allCarry (rows : List (Scoped β)) (repo : RepoId) (org : OrgId) : Bool :=
  rows.all fun r => decide (r.repositoryId = some repo → r.organizationId = org)

theorem allCarry_iff : allCarry rows repo org = true ↔
    ∀ row ∈ rows, row.repositoryId = some repo → row.organizationId = org := by
  simp only [allCarry, all_eq_true, decide_eq_true_eq]

theorem RowsFollow.filter (h : RowsFollow f rows) (keep : Scoped β → Bool) :
    RowsFollow f (rows.filter keep) :=
  fun row hrow => h row (mem_filter.mp hrow).1

theorem rowsFollow_append {row : Scoped β} : RowsFollow f (rows ++ [row]) ↔
    RowsFollow f rows ∧ ∀ repo, row.repositoryId = some repo → f repo = some row.organizationId := by
  constructor
  · intro h
    exact ⟨fun r hr => h r (mem_append_left _ hr), h row (by simp)⟩
  · intro h r hr
    rcases mem_append.mp hr with hr | hr
    · exact h.1 r hr
    · cases mem_singleton.mp hr
      exact h.2

theorem RowsFollow.update {id : String} {g : Scoped β → Scoped β} (h : RowsFollow f rows)
    (horg : ∀ r, (g r).organizationId = r.organizationId)
    (hrepo : ∀ r, (g r).repositoryId = r.repositoryId) :
    RowsFollow f (Table.update Scoped.id id g rows) := by
  intro row hrow repo hscope
  rcases mem_update hrow with ⟨hold, -⟩ | ⟨r₀, hr₀, -, rfl⟩
  · exact h row hold repo hscope
  · rw [hrepo] at hscope
    rw [horg]
    exact h r₀ hr₀ repo hscope

theorem RowsFollow.congr (h : RowsFollow f rows) (hf : ∀ x, f' x = f x) : RowsFollow f' rows :=
  fun row hrow x hx => (hf x).trans (h row hrow x hx)

theorem RowsFollow.reassign (h : RowsFollow f rows) (hself : f' repo = some target)
    (hother : ∀ x, x ≠ repo → f' x = f x) : RowsFollow f' (reassign repo target rows) := by
  intro row hrow x hx
  rcases mem_update hrow with ⟨hold, hne⟩ | ⟨r₀, -, hscope, rfl⟩
  · have hx' : x ≠ repo := by
      rintro rfl
      exact hne hx
    rw [hother x hx']
    exact h row hold x hx
  · have hsame : x = repo := Option.some.inj (hx.symm.trans hscope)
    rw [hsame]
    exact hself

/-- The repository moves and its rows stay: they follow where they carry the new organization
already. -/
theorem RowsFollow.left_behind (h : RowsFollow f rows) (hself : f' repo = some target)
    (hother : ∀ x, x ≠ repo → f' x = f x) :
    RowsFollow f' rows ↔ allCarry rows repo target = true := by
  rw [allCarry_iff]
  constructor
  · intro h' row hrow hscope
    exact (Option.some.inj (hself.symm.trans (h' row hrow repo hscope))).symm
  · intro hcarry row hrow x hx
    by_cases hx' : x = repo
    · subst hx'
      rw [hself, hcarry row hrow hx]
    · rw [hother x hx']
      exact h row hrow x hx

end rows

section own

variable {β : Type} {rows : List (Scoped β)} {repo : RepoId} {org target : OrgId}

def ownInForce (rows : List (Scoped β)) (org : OrgId) (repo : RepoId) : List (String × β) :=
  ((effective rows org repo).filter fun r => decide (r.repositoryId = some repo)).map
    fun r => (r.id, r.value)

/-- The settings that were made for the repository, wherever they are now. -/
def madeFor (rows : List (Scoped β)) (repo : RepoId) : List (String × β) :=
  (rows.filter fun r => decide (r.repositoryId = some repo)).map fun r => (r.id, r.value)

theorem ownInForce_eq_madeFor
    (h : ∀ row ∈ rows, row.repositoryId = some repo → row.organizationId = org) :
    ownInForce rows org repo = madeFor rows repo := by
  unfold ownInForce madeFor effective
  rw [filter_filter]
  congr 1
  apply filter_congr
  intro row hrow
  by_cases hscope : row.repositoryId = some repo
  · simp [hscope, h row hrow hscope]
  · simp [hscope]

theorem madeFor_reassign : madeFor (reassign repo target rows) repo = madeFor rows repo := by
  induction rows with
  | nil => rfl
  | cons row rows ih =>
    unfold madeFor reassign Table.update at ih ⊢
    rw [map_cons]
    by_cases hscope : row.repositoryId = some repo
    · simp only [hscope, if_true, filter_cons, decide_true, map_cons, ih]
    · simp only [hscope, if_false, filter_cons, decide_false, false_eq_true, ih]

end own

variable {rq : TransferRequest}

section organization

variable {s : Settings} {repo x : RepoId} {target : OrgId}

theorem organizationOf_transfer_self (hcommits : transferCommits s rq = true) :
    (transferRepository s rq).organizationOf rq.repositoryId = some rq.targetOrganizationId := by
  have hfind : Table.find Repository.id rq.repositoryId
      (transferRepository s rq).repositories = (s.findRepository rq.repositoryId).map
        fun r => { r with orgId := rq.targetOrganizationId } :=
    find_update_self fun r => by rfl
  unfold Settings.organizationOf Settings.findRepository
  rw [hfind]
  unfold transferCommits at hcommits
  cases hr : s.findRepository rq.repositoryId with
  | none => simp [hr] at hcommits
  | some r => rfl

theorem organizationOf_transfer_ne (hx : x ≠ rq.repositoryId) :
    (transferRepository s rq).organizationOf x = s.organizationOf x := by
  have hfind : Table.find Repository.id x (transferRepository s rq).repositories =
      s.findRepository x :=
    find_update_ne (fun r => by rfl) hx
  exact congrArg _ hfind

theorem organizationOf_rename (rq : RenameRequest) :
    (renameRepository s rq).organizationOf x = s.organizationOf x := by
  unfold Settings.organizationOf Settings.findRepository
  by_cases hx : x = rq.repositoryId
  · subst hx
    have hfind : Table.find Repository.id rq.repositoryId (renameRepository s rq).repositories =
        (s.findRepository rq.repositoryId).map fun r => { r with name := rq.name } :=
      find_update_self fun r => by rfl
    rw [hfind, Option.map_map]
    rfl
  · have hfind : Table.find Repository.id x (renameRepository s rq).repositories =
        s.findRepository x :=
      find_update_ne (fun r => by rfl) hx
    rw [hfind]
    rfl

end organization

/-! ## The condition on a step -/

def scopeHolds (s : Settings) (rq : SaveRequest) : Bool :=
  match rq.repositoryId with
  | none => true
  | some repo => decide (s.organizationOf repo = some rq.organizationId)

def nothingLeftBehind (s : Settings) (rq : TransferRequest) : Bool :=
  allCarry s.signingKeysTrusted rq.repositoryId rq.targetOrganizationId &&
    allCarry s.signingIdentitiesTrusted rq.repositoryId rq.targetOrganizationId &&
    allCarry s.vulnerabilityExceptions rq.repositoryId rq.targetOrganizationId

/-- What is asked of a statement: a transfer that commits has no rows to leave behind, and
the repository of a row that is written has not been moved since it was looked up. -/
def keepsScopes (s : Settings) : Task → Answer → Bool
  | .save rq .insert, .fresh _ => scopeHolds s rq
  | .save rq (.replace id _), .ok =>
    !(s.retentionPolicies.any fun r => decide (r.id = id)) || scopeHolds s rq
  | .transfer rq .commit, .ok => !transferCommits s rq || nothingLeftBehind s rq
  | _, _ => true

theorem scopeHolds_iff {s : Settings} {rq : SaveRequest} : scopeHolds s rq = true ↔
    ∀ repo, rq.repositoryId = some repo → s.organizationOf repo = some rq.organizationId := by
  unfold scopeHolds
  cases rq.repositoryId with
  | none | some repo => simp

/-! ## One statement -/

section steps

variable {s s' : Settings} {a : Answer}

section

variable (h : Follows s)
include h

theorem Follows.insert (rq : SaveRequest) (id : String) :
    Follows (insertSetting s rq id) ↔ scopeHolds s rq = true := by
  rw [scopeHolds_iff]
  unfold insertSetting
  cases rq.setting with
  | tagRule rule =>
    constructor
    · intro h'
      exact (rowsFollow_append.mp h'.tagRules).2
    · intro hscope
      exact { h with tagRules := rowsFollow_append.mpr ⟨h.tagRules, hscope⟩ }
  | retention inherit policy =>
    dsimp only
    split
    · constructor
      · intro h'
        exact (rowsFollow_append.mp h'.retentionPolicies).2
      · intro hscope
        exact { h with retentionPolicies := rowsFollow_append.mpr ⟨h.retentionPolicies, hscope⟩ }
    · rename_i hsome
      refine ⟨fun _ repo hrepo => ?_, fun _ => h⟩
      -- the row that is in the way follows its repository
      have hne : listScope s.retentionPolicies rq.organizationId rq.repositoryId ≠ [] :=
        fun hnil => hsome (by rw [hnil]; rfl)
      obtain ⟨row, hrow⟩ := exists_mem_of_ne_nil _ hne
      obtain ⟨hmem, hscope⟩ := mem_filter.mp hrow
      obtain ⟨horg, hrow'⟩ := of_decide_eq_true hscope
      rw [← horg]
      exact h.retentionPolicies row hmem repo (hrow'.trans hrepo)
  | trustedKey key =>
    constructor
    · intro h'
      exact (rowsFollow_append.mp h'.signingKeysTrusted).2
    · intro hscope
      exact { h with signingKeysTrusted := rowsFollow_append.mpr ⟨h.signingKeysTrusted, hscope⟩ }
  | trustedIdentity identity =>
    constructor
    · intro h'
      exact (rowsFollow_append.mp h'.signingIdentitiesTrusted).2
    · intro hscope
      exact { h with
        signingIdentitiesTrusted := rowsFollow_append.mpr ⟨h.signingIdentitiesTrusted, hscope⟩ }
  | acceptedRisk e =>
    constructor
    · intro h'
      exact (rowsFollow_append.mp h'.vulnerabilityExceptions).2
    · intro hscope
      exact { h with
        vulnerabilityExceptions := rowsFollow_append.mpr ⟨h.vulnerabilityExceptions, hscope⟩ }

theorem Follows.merge (same : Scoped TagRule) (rule : TagRule) : Follows (mergeRule s same rule) :=
  { h with tagRules := h.tagRules.update (fun _ => rfl) fun _ => rfl }

theorem Follows.drop (repo : RepoId) : Follows (dropPolicy s repo) :=
  { h with retentionPolicies := h.retentionPolicies.filter _ }

theorem Follows.remove (removal : Removal) : Follows (removeSetting s removal) := by
  cases removal with
  | tagRule id => exact { h with tagRules := h.tagRules.filter _ }
  | trustedKey id => exact { h with signingKeysTrusted := h.signingKeysTrusted.filter _ }
  | trustedIdentity id =>
    exact { h with signingIdentitiesTrusted := h.signingIdentitiesTrusted.filter _ }
  | acceptedRisk id | expire cutoff =>
    exact { h with vulnerabilityExceptions := h.vulnerabilityExceptions.filter _ }

theorem Follows.replace (rq : SaveRequest) (id : String) (policy : RetentionSettings)
    : Follows (replacePolicy s rq id policy) ↔
      (∃ r ∈ s.retentionPolicies, r.id = id) → scopeHolds s rq = true := by
  rw [scopeHolds_iff]
  unfold replacePolicy
  split
  · constructor
    · intro h' hex repo hrepo
      obtain ⟨r, hr, hid⟩ := hex
      have hwritten : rq.row id policy ∈
          Table.update Scoped.id id (fun _ => rq.row id policy) s.retentionPolicies :=
        mem_map.mpr ⟨r, hr, if_pos hid⟩
      exact h'.retentionPolicies _ hwritten repo hrepo
    · intro hscope
      refine { h with retentionPolicies := ?_ }
      intro row hrow repo hrepo
      rcases mem_update hrow with ⟨hold, -⟩ | ⟨r, hr, hid, rfl⟩
      · exact h.retentionPolicies row hold repo hrepo
      · exact hscope ⟨r, hr, hid⟩ repo hrepo
  · rename_i hsome
    refine ⟨fun _ _ repo hrepo => ?_, fun _ => h⟩
    have hne : without id (listScope s.retentionPolicies rq.organizationId rq.repositoryId) ≠ [] :=
      fun hnil => hsome (by rw [hnil]; rfl)
    obtain ⟨row, hrow⟩ := exists_mem_of_ne_nil _ hne
    obtain ⟨hmem, hscope⟩ := mem_filter.mp (mem_filter.mp hrow).1
    obtain ⟨horg, hrow'⟩ := of_decide_eq_true hscope
    rw [← horg]
    exact h.retentionPolicies row hmem repo (hrow'.trans hrepo)

theorem Follows.rename (rq : RenameRequest) : Follows (renameRepository s rq) where
  tagRules := h.tagRules.congr fun _ => organizationOf_rename rq
  retentionPolicies := h.retentionPolicies.congr fun _ => organizationOf_rename rq
  signingKeysTrusted := h.signingKeysTrusted.congr fun _ => organizationOf_rename rq
  signingIdentitiesTrusted := h.signingIdentitiesTrusted.congr fun _ => organizationOf_rename rq
  vulnerabilityExceptions := h.vulnerabilityExceptions.congr fun _ => organizationOf_rename rq

theorem Follows.transfer (hcommits : transferCommits s rq = true) :
    Follows (transferRepository s rq) ↔ nothingLeftBehind s rq = true := by
  have hself := organizationOf_transfer_self hcommits
  have hother : ∀ x, x ≠ rq.repositoryId →
      (transferRepository s rq).organizationOf x = s.organizationOf x :=
    fun x hx => organizationOf_transfer_ne hx
  unfold nothingLeftBehind
  rw [and_eq_true, and_eq_true, ← h.signingKeysTrusted.left_behind hself hother,
    ← h.signingIdentitiesTrusted.left_behind hself hother,
    ← h.vulnerabilityExceptions.left_behind hself hother]
  constructor
  · intro h'
    exact ⟨⟨h'.signingKeysTrusted, h'.signingIdentitiesTrusted⟩, h'.vulnerabilityExceptions⟩
  · intro hrows
    exact
      { tagRules := h.tagRules.reassign hself hother
        retentionPolicies := h.retentionPolicies.reassign hself hother
        signingKeysTrusted := hrows.1.1
        signingIdentitiesTrusted := hrows.1.2
        vulnerabilityExceptions := hrows.2 }

theorem saveAct_follows {rq : SaveRequest} {pc pc' : SavePc}
  (hact : saveAct s rq pc a = some (s', pc')) :
    Follows s' ↔ keepsScopes s (.save rq pc) a = true := by
  cases pc <;> cases a <;> simp only [saveAct, reduceCtorEq] at hact
  case insert.fresh id =>
    split at hact
    · cases hact
    · cases hact
      exact h.insert rq id
  case replace.ok id policy =>
    cases hact
    rw [h.replace rq id policy]
    simp only [keepsScopes, or_eq_true, not_eq_true', any_eq_false, decide_eq_true_eq]
    constructor
    · intro himp
      by_cases hex : ∃ r ∈ s.retentionPolicies, r.id = id
      · exact .inr (himp hex)
      · exact .inl fun r hr hid => hex ⟨r, hr, hid⟩
    · rintro (hnone | hscope) hex
      · obtain ⟨r, hr, hid⟩ := hex
        exact absurd hid (hnone r hr)
      · exact hscope
  case merge.ok same rule =>
    cases hact
    exact iff_of_true (h.merge same rule) rfl
  case dropOwn.ok repo =>
    cases hact
    exact iff_of_true (h.drop repo) rfl
  all_goals
    cases hact
    exact iff_of_true h rfl

variable {pc pc' : MovePc}

theorem transferAct_follows (hact : transferAct s rq pc a = some (s', pc')) :
    Follows s' ↔ keepsScopes s (.transfer rq pc) a = true := by
  cases pc <;> cases a <;> simp only [transferAct, reduceCtorEq] at hact
  case commit.ok =>
    cases hact
    cases hcommits : transferCommits s rq with
    | false => exact iff_of_true h (by simp [keepsScopes, hcommits])
    | true =>
      simp only [if_true, keepsScopes, hcommits, Bool.not_true, Bool.false_or]
      exact h.transfer hcommits
  all_goals
    cases hact
    exact iff_of_true h rfl

theorem renameAct_follows {rq : RenameRequest}
  (hact : renameAct s rq pc a = some (s', pc')) : Follows s' := by
  cases pc <;> cases a <;> simp only [renameAct, reduceCtorEq] at hact
  case commit.ok =>
    cases hact
    split
    · exact h.rename rq
    · exact h
  all_goals
    cases hact
    exact h

/-- After a statement the rows follow if and only if it met its condition. -/
theorem taskAct_follows {i : Nat} {t t' : Task} (hact : taskAct s i t a = some (s', t'))
    : Follows s' ↔ keepsScopes s t a = true := by
  cases t with
  | save rq pc =>
    obtain ⟨out, hsave, heq⟩ := Option.map_eq_some_iff.mp hact
    cases heq
    exact saveAct_follows h hsave
  | transfer rq pc =>
    obtain ⟨out, htransfer, heq⟩ := Option.map_eq_some_iff.mp hact
    cases heq
    exact transferAct_follows h htransfer
  | rename rq pc =>
    obtain ⟨out, hrename, heq⟩ := Option.map_eq_some_iff.mp hact
    cases heq
    exact iff_of_true (renameAct_follows h hrename) (by cases pc <;> rfl)

end

end steps

/-- The repository's own settings are the same in both states. -/
structure SameOwn (repo : RepoId) (s s' : Settings) : Prop where
  retention : (s'.ownRetentionPolicy repo).map (·.value) = (s.ownRetentionPolicy repo).map (·.value)
  rows : ∀ org org', s.organizationOf repo = some org → s'.organizationOf repo = some org' →
    ownInForce s'.tagRules org' repo = ownInForce s.tagRules org repo ∧
    ownInForce s'.signingKeysTrusted org' repo = ownInForce s.signingKeysTrusted org repo ∧
    ownInForce s'.signingIdentitiesTrusted org' repo =
      ownInForce s.signingIdentitiesTrusted org repo ∧
    ownInForce s'.vulnerabilityExceptions org' repo = ownInForce s.vulnerabilityExceptions org repo

theorem RowsFollow.ownInForce {β : Type} {f : RepoId → Option OrgId} {rows : List (Scoped β)}
    {repo : RepoId} {org : OrgId} (h : RowsFollow f rows) (horg : f repo = some org) :
    ownInForce rows org repo = madeFor rows repo := by
  apply ownInForce_eq_madeFor
  intro row hrow hscope
  exact (Option.some.inj (horg.symm.trans (h row hrow repo hscope))).symm

theorem Follows.sameOwn {s : Settings} (h : Follows s) (h' : Follows (transferRepository s rq)) :
    SameOwn rq.repositoryId s (transferRepository s rq) where
  retention := by
    have hfind : (transferRepository s rq).ownRetentionPolicy rq.repositoryId =
        (s.ownRetentionPolicy rq.repositoryId).map
          fun r => { r with organizationId := rq.targetOrganizationId } :=
      find_update_self fun r => by rfl
    rw [hfind, Option.map_map]
    rfl
  rows := by
    intro org org' horg horg'
    rw [h.tagRules.ownInForce horg, h'.tagRules.ownInForce horg',
      h.signingKeysTrusted.ownInForce horg, h'.signingKeysTrusted.ownInForce horg',
      h.signingIdentitiesTrusted.ownInForce horg, h'.signingIdentitiesTrusted.ownInForce horg',
      h.vulnerabilityExceptions.ownInForce horg, h'.vulnerabilityExceptions.ownInForce horg']
    exact ⟨madeFor_reassign, rfl, rfl, rfl⟩

/-! ## Histories -/

section histories

def keeps (p : Pool Settings Task) : Move Task Answer Removal → Bool
  | .act i a =>
    match p.tasks[i]? with
    | some t => keepsScopes p.shared t a
    | none => true
  | _ => true

abbrev Keeps (p : Pool Settings Task) (m : Move Task Answer Removal) : Prop := keeps p m = true

def Transfers (p : Pool Settings Task) (m : Move Task Answer Removal) (repo : RepoId) : Prop :=
  ∃ i a rq, m = .act i a ∧ p.tasks[i]? = some (.transfer rq .commit) ∧ rq.repositoryId = repo

variable {p p' : Pool Settings Task} {m : Move Task Answer Removal}

theorem step_follows (h : Follows p.shared) (hstep : settingsProgram.step p m = some p') :
    Follows p'.shared ↔ Keeps p m := by
  rcases Program.step_cases hstep with ⟨t, rfl, -, rfl⟩ | ⟨i, a, t, s', t', rfl, ht, hact, rfl⟩ |
      ⟨e, s', rfl, henv, rfl⟩
  · exact iff_of_true h rfl
  · have hkeeps : keeps p (.act i a) = keepsScopes p.shared t a := by
      simp only [keeps, ht]
    show Follows s' ↔ keeps p (.act i a) = true
    rw [hkeeps]
    exact taskAct_follows (i := i) h hact
  · cases henv
    exact iff_of_true (h.remove e) rfl

theorem step_sameOwn (h : Follows p.shared) (hstep : settingsProgram.step p m = some p')
    (h' : Follows p'.shared) {repo : RepoId} (htransfers : Transfers p m repo) :
    SameOwn repo p.shared p'.shared := by
  obtain ⟨i, a, rq, rfl, hi, rfl⟩ := htransfers
  rcases Program.step_cases hstep with ⟨t, hm, -, -⟩ | ⟨j, a', t, s', t', hm, ht, hact, rfl⟩ |
      ⟨e, s', hm, -, -⟩
  · cases hm
  · cases hm
    rw [hi] at ht
    cases ht
    obtain ⟨out, htransfer, heq⟩ := Option.map_eq_some_iff.mp hact
    cases heq
    have hsame : SameOwn rq.repositoryId p.shared p.shared :=
      ⟨rfl, fun org org' ho ho' => by
        rw [ho] at ho'
        cases ho'
        exact ⟨rfl, rfl, rfl, rfl⟩⟩
    cases a <;> simp only [transferAct, reduceCtorEq, Option.some.injEq] at htransfer
    case ok =>
      subst htransfer
      split
      · rename_i hcommits
        rw [if_pos hcommits] at h'
        exact h.sameOwn h'
      · exact hsame
    case refused =>
      subst htransfer
      exact hsame
  · cases hm

end histories

/-- **Settings follow their repository** as long as every step meets its condition, and the
first step that does not meet it ends that. -/
theorem settings_follow_repository {p : Pool Settings Task}
    (hrun : settingsProgram.machine.Run Keeps p) :
    Follows p.shared ∧ ∀ m p', settingsProgram.step p m = some p' →
      ((Follows p'.shared ∧ ∀ repo, Transfers p m repo → SameOwn repo p.shared p'.shared) ↔
        Keeps p m) := by
  have hfollows : Follows p.shared := by
    induction hrun with
    | init hinit => exact hinit.1
    | step _ hkeeps hstep ih => exact (step_follows ih hstep).mpr hkeeps
  refine ⟨hfollows, fun m p' hstep => ?_⟩
  constructor
  · intro h'
    exact (step_follows hfollows hstep).mp h'.1
  · intro hkeeps
    have h' := (step_follows hfollows hstep).mpr hkeeps
    exact ⟨h', fun repo => step_sameOwn hfollows hstep h'⟩

def twoOrganizations : Settings :=
  { organizations := ["o1", "o2"]
    repositories := [⟨"r1", "o1", "app", .private⟩]
    tagRules := [⟨"t1", "o1", some "r1", ⟨"v*", true, false⟩⟩] }

theorem twoOrganizations_init : settingsProgram.machine.init ⟨twoOrganizations, []⟩ := by
  have hrule : RowsFollow twoOrganizations.organizationOf twoOrganizations.tagRules := by
    intro row hrow repo hrepo
    cases mem_singleton.mp hrow
    cases hrepo
    rfl
  have hnone {β : Type} : RowsFollow twoOrganizations.organizationOf ([] : List (Scoped β)) :=
    nofun
  exact ⟨⟨hrule, hnone, hnone, hnone, hnone⟩, rfl⟩

def transferAway : List (Move Task Answer Removal) :=
  [.spawn (.transfer ⟨"r1", "o2"⟩ .plan), .act 0 .ok, .act 0 .ok]

theorem settings_follow_repository_tagRule :
    ∃ p : Pool Settings Task, settingsProgram.machine.Run Keeps p ∧
      p.shared.tagRules = [⟨"t1", "o2", some "r1", ⟨"v*", true, false⟩⟩] ∧ Follows p.shared := by
  have hfacts : (settingsProgram.machine.replay Keeps ⟨twoOrganizations, []⟩ transferAway).map
      (fun p => p.shared.tagRules) = some [⟨"t1", "o2", some "r1", ⟨"v*", true, false⟩⟩] := by
    decide +kernel
  obtain ⟨p, hp, hrules⟩ := Option.map_eq_some_iff.mp hfacts
  have hrun := Machine.run_of_replay (M := settingsProgram.machine) twoOrganizations_init hp
  exact ⟨p, hrun, hrules, (settings_follow_repository hrun).1⟩

def releaseKey : TrustedKey := ⟨"release", "pem", "f1", "Ed25519"⟩

def keyAndTransfer : List (Move Task Answer Removal) :=
  [.spawn (.save ⟨"o1", some "r1", .trustedKey releaseKey⟩ .check), .act 0 .ok, .act 0 .ok,
    .act 0 (.fresh "k1"), .spawn (.transfer ⟨"r1", "o2"⟩ .plan), .act 1 .ok, .act 1 .ok]

theorem key_left_behind :
    ¬ ∀ p : Pool Settings Task, settingsProgram.machine.Reachable p → Follows p.shared := by
  intro hall
  have hfacts : (settingsProgram.machine.replay (fun _ _ => True) ⟨twoOrganizations, []⟩
      keyAndTransfer).map (fun p => (p.shared.signingKeysTrusted, p.shared.organizationOf "r1")) =
        some ([⟨"k1", "o1", some "r1", releaseKey⟩], some "o2") := by
    decide +kernel
  obtain ⟨p, hp, hpair⟩ := Option.map_eq_some_iff.mp hfacts
  obtain ⟨hkeys, horg⟩ := Prod.mk.inj hpair
  have hreach := Machine.run_of_replay (M := settingsProgram.machine) twoOrganizations_init hp
  have hfollow := (hall p hreach).signingKeysTrusted ⟨"k1", "o1", some "r1", releaseKey⟩
    (by rw [hkeys]; exact mem_singleton.mpr rfl) "r1" rfl
  rw [horg] at hfollow
  exact absurd (Option.some.inj hfollow) (by decide)

end Chicoree.RepoMoves
