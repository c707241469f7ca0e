import Chicoree.Web.Limits

/-! # The limits of a token under /orgs/{org} -/

namespace Chicoree.Web

open List Except

/-! ## What goes with an organization -/

variable {x : Resource}

theorem of_orgDetail {t : Tables} {a : OrgAccess} (hx : x ∈ orgDetail t a) : x.Of a.org.id := by
  rcases mem_cons.mp hx with rfl | hx
  · rfl
  · obtain ⟨r, hr, rfl⟩ := mem_map.mp hx
    simp only [organizationRepositories, mem_filter, decide_eq_true_eq] at hr
    exact hr.2

variable {team : Team}

theorem deletesOf_seat {db : Database} (hmem : team ∈ db.teams) {o : Id}
    (ho : team.organizationId = o) {seat : TeamMember} (hseat : seat.teamId = team.id) :
    DeletesOf db.toTables o (.delete .teamMember seat) := by
  refine ⟨_, _, rfl, fun x hx => ?_⟩
  obtain ⟨team', hmem', hid, rfl⟩ := mem_teamResources.mp hx
  rw [hseat] at hid
  rw [db.team_ids.eq_of_key hmem' hmem hid]
  exact ho

theorem deletesOf_repositoryRows {db : Database} {r : Repository} (hr : r ∈ db.repositories) :
    ∀ w ∈ repositoryRows db.toTables r, DeletesOf db.toTables r.organizationId w := by
  have hof : ∀ x ∈ repositoryResources db.repositories r.id, x.Of r.organizationId := by
    intro x hx
    rw [(mem_repositoryResources_key hr).mp hx]
    rfl
  simp only [repositoryRows, forall_mem_append, forall_mem_deleteWhere,
    forall_mem_singleton, decide_eq_true_eq]
  refine ⟨⟨⟨⟨⟨?_, ?_⟩, ?_⟩, ?_⟩, ?_⟩, ⟨_, _, rfl, fun x hx => ?_⟩⟩
  case refine_6 =>
    rw [mem_singleton.mp hx]
    rfl
  all_goals
    intro row _ hrow
    exact ⟨_, _, rfl, by simpa [hrow] using hof⟩

/-- What goes with an organization is its own. -/
theorem deletesOf_organizationRows {db : Database} (o : Organization) :
    ∀ w ∈ organizationRows db.toTables o, DeletesOf db.toTables o.id w := by
  have hown : ∀ {k : Kind} {row : k.Row}, rowResources db.repositories db.teams k row =
      [.organization o.id] → DeletesOf db.toTables o.id (.delete k row) := by
    intro k row hrow
    exact ⟨k, row, rfl, by simp [-rowResources, hrow]⟩
  simp only [organizationRows, forall_mem_append, forall_mem_deleteWhere,
    forall_mem_singleton, decide_eq_true_eq, forall_mem_flatMap]
  refine ⟨⟨⟨⟨⟨⟨⟨⟨⟨⟨⟨?_, ?_⟩, ?_⟩, ?_⟩, ?_⟩, ?_⟩, ?_⟩, ?_⟩, ?_⟩, ?_⟩, ?_⟩, hown rfl⟩
  · intro r hr
    simp only [organizationRepositories, mem_filter, decide_eq_true_eq] at hr
    exact hr.2 ▸ deletesOf_repositoryRows hr.1
  · intro team hteam
    simp only [mem_filter, decide_eq_true_eq] at hteam
    exact fun seat _ hseat => deletesOf_seat hteam.1 hteam.2 hseat
  all_goals exact fun row _ ho => hown (by simp [ho])

/-! ## Owners and admins -/

section managed

variable {sv : Services} {db : Database} {c : Caller} {a : OrgAccess} {rs : TokenRestriction}
  {d : Done} (ha : a.org.id = rs.organizationId)
include ha

variable {id : Id} {tokenHash : String}

theorem serviceAccountsPost_inside {body : Body ServiceAccountBody}
    (h : serviceAccountsPost sv db.toTables c a body id tokenHash = .ok d) :
    Inside db.toTables rs d ↔ rs.repositoryIds = none := by
  simp only [serviceAccountsPost, bind_eq_ok, ok.injEq] at h
  obtain ⟨u, -, b, -, ids, hids, -, -, rfl⟩ := h
  refine inside_statement ?_ ?_ ?_ ?_
  · intro x hx
    rcases mem_cons.mp hx with rfl | hx
    · exact ha
    · exact ha ▸ listedRepositories_of db hids x hx
  · simp [ha]
  · simp
  · intro _ x hx
    exact ha ▸ mem_listReach hx

theorem serviceAccountDelete_inside (h : serviceAccountDelete db.toTables a id = .ok d) :
    Inside db.toTables rs d ↔ rs.repositoryIds = none := by
  simp only [serviceAccountDelete, bind_eq_ok, ok.injEq] at h
  obtain ⟨sa, hsa, rfl⟩ := h
  have ho := (found_where hsa).2
  simp only [decide_eq_true_eq, ha] at ho
  apply inside_statement <;> simp [ha, ho]

theorem serviceAccountRotate_inside
    (h : serviceAccountRotate sv db.toTables a id tokenHash = .ok d) :
    Inside db.toTables rs d ↔ rs.repositoryIds = none ∧
      ∀ sa, serviceAccountById db.toTables rs.organizationId id = .ok sa →
        NamesInside db.toTables rs sa.repositoryIds := by
  simp only [serviceAccountRotate, bind_eq_ok, ok.injEq] at h
  obtain ⟨sa, hsa, expiresAt, -, rfl⟩ := h
  have ho := (found_where hsa).2
  simp only [decide_eq_true_eq, ha] at ho
  have hnames : (∀ x ∈ serviceAccountRows db.toTables a [sa], rs.MayShow x) ↔
      NamesInside db.toTables rs sa.repositoryIds := by
    simp [serviceAccountRows, mayShow_namedRepositories, ha]
  rw [ha] at hsa
  constructor
  · intro hin
    refine ⟨hin.none_of_writes (mem_singleton_self _) (by simp [ho]), ?_⟩
    intro sa' hsa'
    rw [hsa] at hsa'
    cases hsa'
    exact hnames.mp hin.shows
  · rintro ⟨hnone, hin⟩
    refine (inside_statement ?_ ?_ ?_ ?_).mpr hnone
    · exact fun x hx => MayShow.of (hnames.mpr (hin sa hsa) x hx)
    · simp [ho]
    · simp
    · intro _ x hx
      exact ho.2 ▸ mem_listReach hx

theorem ciIdentitiesPost_inside {body : Body CiIdentityBody}
    (h : ciIdentitiesPost db.toTables c a body id = .ok d) :
    Inside db.toTables rs d ↔ rs.repositoryIds = none := by
  simp only [ciIdentitiesPost, bind_eq_ok, ok.injEq] at h
  obtain ⟨b, -, ids, hids, rfl⟩ := h
  refine inside_statement ?_ ?_ ?_ ?_
  · intro x hx
    rcases mem_cons.mp hx with rfl | hx
    · exact ha
    · exact ha ▸ listedRepositories_of db hids x hx
  · simp [ha]
  · simp
  · intro _ x hx
    exact ha ▸ mem_listReach hx

theorem ciIdentityDelete_inside (h : ciIdentityDelete db.toTables a id = .ok d) :
    Inside db.toTables rs d ↔ rs.repositoryIds = none := by
  simp only [ciIdentityDelete, bind_eq_ok, ok.injEq] at h
  obtain ⟨ci, hci, rfl⟩ := h
  have ho := (found_where hci).2
  simp only [decide_eq_true_eq, ha] at ho
  apply inside_statement <;> simp [ha, ho]

theorem invitationsPost_inside {body : Body InvitationBody}
    (h : invitationsPost sv db.toTables c a body id = .ok d) :
    Inside db.toTables rs d ↔ rs.repositoryIds = none := by
  simp only [invitationsPost, bind_eq_ok, ok.injEq] at h
  obtain ⟨-, -, -, -, -, -, -, -, -, -, -, -, rfl⟩ := h
  apply inside_statement <;> simp [ha]

theorem invitationDelete_inside (h : invitationDelete db.toTables a id = .ok d) :
    Inside db.toTables rs d ↔ rs.repositoryIds = none := by
  simp only [invitationDelete, bind_eq_ok, found_eq_ok, Option.filter_eq_some_iff,
    ok.injEq] at h
  obtain ⟨i, ⟨hi, -⟩, rfl⟩ := h
  have ho := find?_some hi
  simp only [decide_eq_true_eq, ha] at ho
  apply inside_statement <;> simp [ha, ho]

variable {userId : Id}

theorem memberPatch_inside {body : Body (Option OrgRole)}
    (h : memberPatch db.toTables c a userId body = .ok d) :
    Inside db.toTables rs d ↔ rs.repositoryIds = none ∨
      ∃ m, target db.toTables rs.organizationId userId = .ok m ∧ body = .ok (some m.role) := by
  simp only [memberPatch, bind_eq_ok, given_eq_ok, ok.injEq] at h
  obtain ⟨m, hm, _, hbody, role, rfl, -, -, -, -, rfl⟩ := h
  rw [ha] at hm
  have ho := target_where hm
  by_cases hrole : m.role = role
  · subst hrole
    refine iff_of_true ?_ (.inr ⟨m, hm, hbody⟩)
    simp [inside_of_no_writes, ha]
  · have hstatement : Inside db.toTables rs
        { shows := [.organization a.org.id]
          writes := [.update .member m { m with role := role }] } ↔
        rs.repositoryIds = none := by
      apply inside_statement <;> simp [ha, ho]
    rw [if_pos hrole, hstatement]
    refine ⟨.inl, ?_⟩
    rintro (hnone | ⟨m', hm', hbody'⟩)
    · exact hnone
    · rw [hm] at hm'
      cases hm'
      rw [hbody] at hbody'
      cases hbody'
      exact absurd rfl hrole

theorem memberDelete_inside (h : memberDelete db.toTables c a userId = .ok d) :
    Inside db.toTables rs d ↔ rs.repositoryIds = none := by
  simp only [memberDelete, bind_eq_ok, ok.injEq] at h
  obtain ⟨m, hm, -, -, -, -, rfl⟩ := h
  have ho := target_where hm
  rw [ha] at ho
  apply inside_statement <;> simp [ha, ho]

theorem policiesPatch_inside {body : Body OrgPoliciesBody}
    (h : policiesPatch db.toTables a body = .ok d) :
    Inside db.toTables rs d ↔ rs.repositoryIds = none := by
  simp only [policiesPatch, bind_eq_ok, ok.injEq] at h
  obtain ⟨b, -, -, -, rfl⟩ := h
  have hstored : ((db.settingsOf a.org.id).getD
      { organizationId := a.org.id }).organizationId = rs.organizationId := by
    cases hs : db.settingsOf a.org.id with
    | none => exact ha
    | some s => exact (Table.find_some hs).2.trans ha
  refine inside_upsert (by simp [ha]) ?_ ?_ ?_
  · intro _ old _ hp
    simp only [decide_eq_true_eq] at hp
    simp [hp, ha]
  · simp [OrgPoliciesBody.set, hstored]
  · simp

theorem teamsPost_inside {body : Body TeamBody} (h : teamsPost db.toTables a body id = .ok d) :
    Inside db.toTables rs d ↔ rs.repositoryIds = none := by
  simp only [teamsPost, bind_eq_ok, ok.injEq] at h
  obtain ⟨b, -, -, -, rfl⟩ := h
  apply inside_statement <;> simp [ha]

omit ha in
theorem teamResources_team (hmem : team ∈ db.teams) (ho : team.organizationId = rs.organizationId) :
    x ∈ teamResources db.teams team.id ↔ x = .organization rs.organizationId := by
  rw [mem_teamResources]
  constructor
  · rintro ⟨team', hmem', hid, rfl⟩
    rw [db.team_ids.eq_of_key hmem' hmem hid, ho]
  · rintro rfl
    exact ⟨team, hmem, rfl, by rw [ho]⟩

omit ha in
theorem teamResources_ne_nil (hmem : team ∈ db.teams) : teamResources db.teams team.id ≠ [] :=
  ne_nil_of_mem (mem_teamResources.mpr ⟨team, hmem, rfl, rfl⟩)

variable {idOrSlug : String}

theorem teamPatch_inside {body : Team → Body TeamBody}
    (h : teamPatch db.toTables a idOrSlug body = .ok d) :
    Inside db.toTables rs d ↔ rs.repositoryIds = none := by
  simp only [teamPatch, bind_eq_ok, ok.injEq] at h
  obtain ⟨team, hteam, b, -, -, -, rfl⟩ := h
  have ho := (findTeam_where hteam).2
  rw [ha] at ho
  apply inside_statement <;> simp [ha, ho]

theorem teamDelete_inside (h : teamDelete db.toTables a idOrSlug = .ok d) :
    Inside db.toTables rs d ↔ rs.repositoryIds = none ∧
      ∀ x, findTeam db.toTables rs.organizationId idOrSlug = .ok x →
        GrantsInside db.toTables rs x := by
  simp only [teamDelete, bind_eq_ok, ok.injEq] at h
  obtain ⟨team, hteam, rfl⟩ := h
  rw [ha] at hteam
  obtain ⟨hmem, ho⟩ := findTeam_where hteam
  constructor
  · intro hin
    have hnone := hin.none_of_writes (w := .delete .team team) (by simp) (by simp [ho])
    refine ⟨hnone, fun x hx => ?_⟩
    rw [hteam] at hx
    cases hx
    intro g hg ht hs r hr hid
    refine ((inside_iff_within hnone).mp hin).writes (.delete .repositoryGrant g) ?_
      r.resource ?_
    · simp only [mem_append, Tables.deleteWhere, mem_map, mem_filter]
      exact .inl (.inl ⟨g, ⟨hg, by simp [ht, hs]⟩, rfl⟩)
    · exact mem_repositoryResources.mpr ⟨r, mem_append_left _ hr, hid, rfl⟩
  · rintro ⟨hnone, hgrants⟩
    refine (inside_iff_within hnone).mpr (within_of_deletes (by simp [ha]) ?_)
    simp only [forall_mem_append, forall_mem_deleteWhere, forall_mem_singleton, decide_eq_true_eq]
    refine ⟨⟨fun g hg hp => ⟨_, _, rfl, fun x hx => ?_⟩,
      fun seat _ hp => deletesOf_seat hmem ho hp⟩, ⟨_, _, rfl, by simp [ho]⟩⟩
    obtain ⟨r, hr, hid, rfl⟩ := mem_repositoryResources.mp hx
    exact hgrants team hteam g hg hp.1 hp.2 r hr hid

theorem teamMemberPut_inside (h : teamMemberPut db.toTables a idOrSlug userId = .ok d) :
    Inside db.toTables rs d ↔ ∀ x, findTeam db.toTables rs.organizationId idOrSlug = .ok x →
        { teamId := x.id, userId := userId } ∉ db.teamMembers →
          rs.repositoryIds = none ∧ GrantsInside db.toTables rs x := by
  simp only [teamMemberPut, bind_eq_ok, ok.injEq] at h
  obtain ⟨team, hteam, -, -, rfl⟩ := h
  rw [ha] at hteam
  obtain ⟨hmem, ho⟩ := findTeam_where hteam
  split
  · rename_i hseat
    refine iff_of_true (by simp [inside_of_no_writes, ha]) fun x hx hno => ?_
    rw [hteam] at hx
    cases hx
    exact absurd hseat hno
  · rename_i hseat
    have hreach : ∀ repositories, (∀ {r}, r ∈ repositories → r ∈ db.repositories) →
        GrantsInside db.toTables rs team →
        ∀ x ∈ teamReach db.toTables repositories team.id, x.Of rs.organizationId := by
      intro repositories hsub hgrants x hx
      obtain ⟨g, hg, ht, hs, hx⟩ := mem_teamReach.mp hx
      obtain ⟨r, hr, hid, rfl⟩ := mem_repositoryResources.mp hx
      exact hgrants g hg ht hs r (hsub hr) hid
    constructor
    · intro hin x hx _
      rw [hteam] at hx
      cases hx
      have hnone := hin.none_of_writes (mem_singleton_self _) ((teamResources_team hmem ho).mpr rfl)
      refine ⟨hnone, fun g hg ht hs r hr hid => ?_⟩
      refine ((inside_iff_within hnone).mp hin).credentials _ (mem_singleton_self _)
        r.resource ?_
      exact mem_teamReach.mpr ⟨g, hg, ht, hs,
        mem_repositoryResources.mpr ⟨r, mem_append_left _ hr, hid, rfl⟩⟩
    · intro hcond
      obtain ⟨hnone, hgrants⟩ := hcond team hteam hseat
      refine (inside_iff_within hnone).mpr ⟨by simp [ha], ?_, ?_⟩
      · intro w hw x hx
        rw [mem_singleton.mp hw] at hx
        rw [(teamResources_team hmem ho).mp hx]
        rfl
      · intro w hw x hx
        rw [mem_singleton.mp hw] at hx
        exact hreach _ (doneRepositories_old (by simp [Write.Leaves])) hgrants x hx

theorem teamMemberDelete_inside (h : teamMemberDelete db.toTables a idOrSlug userId = .ok d) :
    Inside db.toTables rs d ↔ rs.repositoryIds = none := by
  simp only [teamMemberDelete, bind_eq_ok, ok.injEq] at h
  obtain ⟨team, hteam, -, -, rfl⟩ := h
  rw [ha] at hteam
  obtain ⟨hmem, ho⟩ := findTeam_where hteam
  refine inside_statement (by simp [ha]) ?_ ?_ ?_
  · exact fun _ x hx => (teamResources_team hmem ho).mp hx
  · exact fun _ => teamResources_ne_nil hmem
  · simp

theorem orgPatch_inside {body : Body String} (h : orgPatch db.toTables c a body = .ok d) :
    Inside db.toTables rs d ↔ rs.repositoryIds = none := by
  simp only [orgPatch, bind_eq_ok, ok.injEq] at h
  obtain ⟨-, -, name, -, rfl⟩ := h
  apply inside_statement
  · exact fun x hx => ha ▸ of_orgDetail hx
  all_goals simp [ha]

theorem orgDelete_inside (h : orgDelete db.toTables c a = .ok d) :
    Inside db.toTables rs d ↔ rs.repositoryIds = none := by
  simp only [orgDelete, bind_eq_ok, ok.injEq] at h
  obtain ⟨-, -, -, -, rfl⟩ := h
  refine inside_iff_none (within_of_deletes (by simp [ha])
    (ha ▸ deletesOf_organizationRows a.org)) ⟨.delete .organization a.org, ?_, by simp [ha]⟩
  exact mem_append_right _ (mem_singleton_self _)

theorem orgWebhooks_inside {request : WebhookRequest}
    (h : webhookHandlers sv db.toTables (orgWebhookContext db.toTables a) request = .ok d) :
    Inside db.toTables rs d ↔ (ManagedRequest.webhooks request).StaysInside db.toTables rs := by
  have hscope : ∀ {id hook}, findScopedWebhook db.toTables (.organization a.org.id) id = .ok hook →
        hook.scope = .organization rs.organizationId := by
    intro id hook hhook
    have hp := (found_where hhook).2
    simp only [decide_eq_true_eq] at hp
    rw [hp.2, ha]
  cases request with
  | list =>
    simp only [webhookHandlers, webhooksList, ok.injEq] at h
    subst h
    exact iff_of_true (inside_answer.mpr (by simp [orgWebhookContext, ha])) trivial
  | get id =>
    simp only [webhookHandlers, webhooksGet, bind_eq_ok, ok.injEq] at h
    obtain ⟨hook, -, rfl⟩ := h
    exact iff_of_true (inside_answer.mpr (by simp [orgWebhookContext, ha])) trivial
  | create body id =>
    simp only [webhookHandlers, webhooksCreate, bind_eq_ok, ok.injEq] at h
    obtain ⟨values, -, -, -, rfl⟩ := h
    apply inside_statement <;> simp [orgWebhookContext, ha]
  | update id body =>
    simp only [webhookHandlers, webhooksUpdate, bind_eq_ok, ok.injEq] at h
    obtain ⟨hook, hhook, values, -, rfl⟩ := h
    apply inside_statement <;> simp [orgWebhookContext, ha, hscope hhook]
  | remove id =>
    simp only [webhookHandlers, webhooksRemove, bind_eq_ok, ok.injEq] at h
    obtain ⟨hook, hhook, rfl⟩ := h
    apply inside_statement <;> simp [orgWebhookContext, ha, hscope hhook]
  | test id =>
    simp only [webhookHandlers, webhooksTest, bind_eq_ok, ok.injEq] at h
    obtain ⟨hook, hhook, rfl⟩ := h
    apply inside_statement
    · exact fun x hx => ha ▸ of_orgDetail (a := a) hx
    all_goals simp [hscope hhook]

/-- What an owner or admin with a restricted token is admitted to stays inside exactly
where `StaysInside` says so. -/
theorem managed_inside_iff {request : ManagedRequest}
    (h : request.plan sv db.toTables c a = .ok d) :
    Inside db.toTables rs d ↔ request.StaysInside db.toTables rs := by
  cases request with
  | auditGet =>
    cases h
    rw [inside_answer, ha, mayShow_wholeOrganization]
    rfl
  | usageGet month =>
    simp only [ManagedRequest.plan, usageGet, bind_eq_ok, ok.injEq] at h
    obtain ⟨-, -, rfl⟩ := h
    rw [inside_answer, ha, mayShow_wholeOrganization]
    rfl
  | serviceAccountsGet =>
    cases h
    rw [inside_answer, ha]
    simp [serviceAccountRows, mayShow_namedRepositories, ManagedRequest.StaysInside, ha]
  | serviceAccountGet id =>
    simp only [ManagedRequest.plan, serviceAccountGet, bind_eq_ok, ok.injEq] at h
    obtain ⟨sa, hsa, rfl⟩ := h
    rw [ha] at hsa
    rw [inside_answer]
    simp [serviceAccountRows, mayShow_namedRepositories, ManagedRequest.StaysInside, ha, hsa]
  | ciIdentitiesGet =>
    cases h
    rw [inside_answer]
    simp only [forall_mem_cons, mayShow_organization, ha, true_and,
      mayShow_namedRepositories, forall_mem_map, mem_filter, decide_eq_true_eq,
      and_imp]
    rfl
  | invitationsGet =>
    cases h
    exact iff_of_true (inside_answer.mpr (by simp [ha])) trivial
  | serviceAccountsPost body id tokenHash => exact serviceAccountsPost_inside ha h
  | serviceAccountDelete id => exact serviceAccountDelete_inside ha h
  | serviceAccountRotate id tokenHash => exact serviceAccountRotate_inside ha h
  | ciIdentitiesPost body id => exact ciIdentitiesPost_inside ha h
  | ciIdentityDelete id => exact ciIdentityDelete_inside ha h
  | invitationsPost body id => exact invitationsPost_inside ha h
  | invitationDelete id => exact invitationDelete_inside ha h
  | memberPatch userId body => exact memberPatch_inside ha h
  | memberDelete userId => exact memberDelete_inside ha h
  | policiesPatch body => exact policiesPatch_inside ha h
  | teamsPost body id => exact teamsPost_inside ha h
  | teamPatch team body => exact teamPatch_inside ha h
  | teamDelete team => exact teamDelete_inside ha h
  | teamMemberPut team userId => exact teamMemberPut_inside ha h
  | teamMemberDelete team userId => exact teamMemberDelete_inside ha h
  | webhooks request => exact orgWebhooks_inside ha h
  | orgPatch body => exact orgPatch_inside ha h
  | orgDelete => exact orgDelete_inside ha h

end managed

end Chicoree.Web
