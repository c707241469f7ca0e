import Chicoree.Web.OrgLimits
import Chicoree.Web.RepoLimits

/-! # What limited tokens are admitted to

Every request a token limited to an organization, or to a list of its repositories, can
make: which stay inside the limits, and which do not. -/

namespace Chicoree.Web

open List Except

section token

variable {sv : Services} {db : Database} {u : UserCaller} {rs : TokenRestriction}
  (hrs : u.restriction = some rs) {d : Done}
include hrs

/-! ## Under /repos/{org}/{repo} -/

variable {org repo : String}

theorem repo_inside_iff {request : RepoRequest}
    (h : repoRoute sv db.toTables (.user u) org repo request = .ok d) :
    Inside db.toTables rs d ↔ StaysInside db.toTables u rs (.repo org repo request) := by
  simp only [repoRoute, bind_eq_ok] at h
  obtain ⟨a, ha, ⟨⟩, -, h⟩ := h
  obtain ⟨hmem, ho, hin⟩ := loadRepo_restriction ha hrs
  have hone : ∀ x ∈ [a.repo.resource], rs.MayShow x := by simpa using hin
  have hshares : (∀ a', loadRepo db.toTables (.user u) org repo = .ok a' →
      SharesInside db.toTables rs a'.repo) ↔ SharesInside db.toTables rs a.repo := by
    simp [ha]
  cases request with
  | get document =>
    by_cases hdocument : document = .repository
    · subst hdocument
      cases h
      rw [inside_answer, mayShow_repoDetail hin]
      exact hshares.symm
    · have hstays : StaysInside db.toTables u rs (.repo org repo (.get document)) := by
        cases document <;> trivial
      exact iff_of_true (repoGet_inside ho hin h hdocument) hstays
  | patch body => exact (repoPatch_inside hmem hin h).trans hshares.symm
  | delete => exact iff_of_true (repoDelete_inside hmem hin h) trivial
  | policiesPatch body => exact iff_of_true (repoPoliciesPatch_inside hmem ho hin h) trivial
  | accessGet =>
    cases h
    exact iff_of_true (inside_answer.mpr hone) trivial
  | accessPut subjectType subjectId body =>
    exact iff_of_true (accessPut_inside hmem hin h) trivial
  | accessDelete subjectType subjectId =>
    exact iff_of_true (accessDelete_inside hmem hin h) trivial
  | webhooks request => exact iff_of_true (repoWebhooks_inside hmem hin h) trivial
  | manifestDelete digest => exact iff_of_true (manifestDelete_inside hmem hin h) trivial
  | tagPut name body => exact iff_of_true (tagPut_inside hmem hin h) trivial
  | tagDelete name moveLatest => exact iff_of_true (tagDelete_inside hmem hin h) trivial
  | tagCopy name body id =>
    simp only [RepoRequest.plan, tagCopy, bind_eq_ok] at h
    obtain ⟨row, -, b, -, h⟩ := h
    exact iff_of_true (copyImage_inside hrs hin h) trivial
  | manifestCopy digest body id =>
    simp only [RepoRequest.plan, manifestCopy, bind_eq_ok] at h
    obtain ⟨digest, -, b, -, -, -, h⟩ := h
    exact iff_of_true (copyImage_inside hrs hin h) trivial

theorem star_inside {starred : Bool}
    (h : star db.toTables (.user u) org repo starred = .ok d) : Inside db.toTables rs d := by
  simp only [star, bind_eq_ok] at h
  obtain ⟨u', -, -, -, a, ha, h⟩ := h
  obtain ⟨hmem, -, hin⟩ := loadRepo_restriction ha hrs
  cases h
  refine inside_repo hmem hin (by simpa using hin) fun w hw => ?_
  split at hw
  · rw [mem_singleton.mp hw]
    rfl
  · rw [mem_singleton.mp hw]
    rfl
  · cases hw

theorem scanPost_inside {digest : Body String}
    (h : scanPost sv db.toTables (.user u) org repo digest = .ok d) :
    Inside db.toTables rs d := by
  simp only [scanPost, bind_eq_ok] at h
  obtain ⟨⟨⟩, -, a, ha, digest, -, ⟨⟩, -, h⟩ := h
  cases h
  exact inside_answer.mpr (by simpa using (loadRepo_restriction ha hrs).2.2)

/-! ## Under /orgs/{org} -/

theorem org_inside_iff {request : OrgRequest}
    (h : orgRoute sv db.toTables (.user u) org request = .ok d) :
    Inside db.toTables rs d ↔ StaysInside db.toTables u rs (.org org request) := by
  simp only [orgRoute, bind_eq_ok] at h
  obtain ⟨a, ha, ⟨⟩, hcheck, h⟩ := h
  have ho := loadOrg_restriction db.toTables ha hrs
  have hone : ∀ x ∈ [Resource.organization a.org.id], rs.MayShow x := by simpa using ho
  have hteam : ∀ {team}, teamGet db.toTables a team = .ok d → Inside db.toTables rs d := by
    intro team h
    simp only [teamGet, bind_eq_ok, ok.injEq] at h
    obtain ⟨-, -, rfl⟩ := h
    exact inside_answer.mpr hone
  cases request with
  | orgGet =>
    cases h
    rw [inside_answer, orgDetail, ho]
    exact mayShow_wholeOrganization
  | reposGet =>
    cases h
    refine iff_of_true (inside_answer.mpr ?_) trivial
    simp only [forall_mem_cons, forall_mem_map, mem_filter, repoFilter, hrs,
      Option.all_some, Bool.and_eq_true]
    exact ⟨ho, fun r hr => withinList_mayShow hr.2.2⟩
  | membersGet | teamsGet | policiesGet =>
    cases h
    exact iff_of_true (inside_answer.mpr hone) trivial
  | teamGet team | teamMembersGet team => exact iff_of_true (hteam h) trivial
  | reposPost body id =>
    simp only [OrgRequest.plan, reposPost, bind_eq_ok, ok.injEq] at h
    obtain ⟨b, -, ⟨⟩, -, ⟨⟩, -, ⟨⟩, -, ⟨⟩, hfresh, rfl⟩ := h
    rw [refuseIf_eq_ok] at hfresh
    refine iff_of_true (inside_new (r := {
      id := id, organizationId := a.org.id, name := b.name
      visibility := b.visibility.getD (defaultVisibility sv db.toTables a.org.id (some u.userId))
      description := b.description }) hrs ha hcheck rfl
      (Option.not_isSome_iff_eq_none.mp hfresh) ?_ ?_) trivial
    · simp
    · simp

theorem orgLimits_inside_iff {request : OrgLimitsRequest}
    (h : orgLimits db.toTables (.user u) org request = .ok d) :
    Inside db.toTables rs d ↔ StaysInside db.toTables u rs (.orgLimits org request) := by
  simp only [orgLimits, bind_eq_ok] at h
  obtain ⟨⟨⟩, -, a, ha, h⟩ := h
  have ho := loadOrg_restriction db.toTables ha hrs
  cases request with
  | get =>
    cases h
    exact iff_of_true (inside_answer.mpr (by simpa using ho)) trivial
  | patch body =>
    simp only [OrgLimitsRequest.plan, orgLimitsPatch, bind_eq_ok, ok.injEq] at h
    obtain ⟨next, -, rfl⟩ := h
    refine inside_upsert (by simp [ho]) ?_ (by simp [ho]) (by simp)
    intro _ old _ hp
    simp only [decide_eq_true_eq] at hp
    simp [hp, ho]
  | delete =>
    cases h
    have hdeletes : ∀ w ∈ db.toTables.deleteWhere .organizationLimits (fun l =>
        decide (l.organizationId = a.org.id)), DeletesOf db.toTables rs.organizationId w := by
      simp only [forall_mem_deleteWhere, decide_eq_true_eq]
      exact fun l _ hl => ⟨_, l, rfl, by simp [hl, ho]⟩
    constructor
    · intro hin
      cases hrow : getOrgLimitsRow db.toTables rs.organizationId with
      | none => exact .inr hrow
      | some l =>
        have hl := find?_some hrow
        simp only [decide_eq_true_eq] at hl
        refine .inl (hin.none_of_writes (w := .delete .organizationLimits l) ?_ (by simp [hl]))
        simp only [Tables.deleteWhere, mem_map, mem_filter, decide_eq_true_eq]
        exact ⟨l, ⟨mem_of_find?_eq_some hrow, by rw [hl, ho]⟩, rfl⟩
    · rintro (hnone | hrow)
      · exact (inside_iff_within hnone).mpr (within_of_deletes (by simp [ho]) hdeletes)
      · refine (inside_of_no_writes ?_).mpr (by simp [ho])
        simp only [getOrgLimitsRow, find?_eq_none, decide_eq_true_eq] at hrow
        simp only [Tables.deleteWhere, map_eq_nil_iff, filter_eq_nil_iff, decide_eq_true_eq, ho]
        exact hrow

/-! ## Everything else -/

omit hrs in
theorem users_inside_iff {request : UserRequest} (h : users db.toTables (.user u) request = .ok d) :
    Inside db.toTables rs d ↔ StaysInside db.toTables u rs (.users request) := by
  have hno : ∀ {userId rest}, d.shows = .account userId :: rest → ¬ Inside db.toTables rs d := by
    intro userId rest hd hin
    exact hin.shows (.account userId) (hd ▸ mem_cons_self)
  simp only [users, bind_eq_ok] at h
  obtain ⟨⟨⟩, -, h⟩ := h
  cases request with
  | list =>
    cases h
    rw [inside_answer]
    simp [StaysInside, eq_nil_iff_forall_not_mem]
  | get userId | organizationsGet userId | limitsGet userId | limitsDelete userId =>
    simp only [UserRequest.plan, bind_eq_ok, ok.injEq] at h
    obtain ⟨user, -, rfl⟩ := h
    exact iff_of_false (hno rfl) id
  | usageGet userId month =>
    simp only [UserRequest.plan, bind_eq_ok, ok.injEq] at h
    obtain ⟨user, -, -, -, rfl⟩ := h
    exact iff_of_false (hno rfl) id
  | limitsPatch userId body =>
    simp only [UserRequest.plan, limitsPatch, bind_eq_ok, ok.injEq] at h
    obtain ⟨user, -, next, -, rfl⟩ := h
    exact iff_of_false (hno rfl) id

theorem orgsGet_inside : Inside db.toTables rs (.answer ((db.organizations.filter
    (orgFilter db.toTables (.user u))).flatMap fun o => .organization o.id ::
      ((organizationRepositories db.toTables o.id).filter
        (repoFilter db.toTables (.user u))).map Repository.resource)) := by
  rw [inside_answer]
  simp only [forall_mem_flatMap, mem_filter, orgFilter, hrs, Bool.and_eq_true,
    decide_eq_true_eq, forall_mem_cons, forall_mem_map, repoFilter, Option.all_some]
  exact fun o ho => ⟨ho.2, fun r hr => withinList_mayShow hr.2.2⟩

theorem meStarred_inside (h : meStarred db.toTables (.user u) = .ok d) :
    Inside db.toTables rs d := by
  simp only [meStarred, bind_eq_ok, requireUser_user, ok.injEq] at h
  obtain ⟨_, rfl, rfl⟩ := h
  rw [inside_answer]
  simp only [forall_mem_map, mem_filter, hrs, Option.all_some, Bool.and_eq_true,
    decide_eq_true_eq, Option.all_eq_true]
  exact fun r hr => ⟨hr.2.1, fun ids hids => contains_iff_mem.mp (hr.2.2 ids hids)⟩

end token

/-- `acme/app` only. -/
def appOnly : TokenRestriction :=
  { organizationId := "o1", repositoryIds := some ["r1"], listed := by decide }

def adaApp : UserCaller :=
  { userId := "ada", patScope := some .write, restriction := some appOnly }

end Chicoree.Web
