import Chicoree.Web.RepoHandlers

/-! # Restricted tokens

A token limited to an organization, and possibly to a list of its repositories: what
the requests it is admitted to show, what they write, and the credentials they leave
behind, against the limits. -/

namespace Chicoree.Web

open List

/-! ## Inside the limits -/

def TokenRestriction.Lists (rs : TokenRestriction) (repositoryId : Id) : Prop :=
  ∀ ids, rs.repositoryIds = some ids → repositoryId ∈ ids

/-- What the token may be shown: its organization, and there the listed repositories. -/
def TokenRestriction.MayShow (rs : TokenRestriction) : Resource → Prop
  | .organization o => o = rs.organizationId
  | .repository o r => o = rs.organizationId ∧ rs.Lists r
  | .account _ => False

/-- What the token may change: the listed repositories; without a list, also the
organization itself. -/
def TokenRestriction.MayChange (rs : TokenRestriction) : Resource → Prop
  | .organization o => o = rs.organizationId ∧ rs.repositoryIds = none
  | .repository o r => o = rs.organizationId ∧ rs.Lists r
  | .account _ => False

section resources

variable {rs : TokenRestriction} {o r : Id}

@[simp] theorem mayShow_organization : rs.MayShow (.organization o) ↔ o = rs.organizationId :=
  Iff.rfl

@[simp] theorem mayShow_account : ¬ rs.MayShow (.account o) := id

end resources

variable (t : Tables)

def Done.repositories (d : Done) : List Repository :=
  t.repositories ++ (t.applyAll d.writes).repositories

/-- A request stays inside the limits of its token. -/
structure Inside (rs : TokenRestriction) (d : Done) : Prop where
  shows : ∀ x ∈ d.shows, rs.MayShow x
  writes : ∀ w ∈ d.writes, ∀ x ∈ w.resources (d.repositories t) t.teams, rs.MayChange x
  /-- A credential it leaves behind reaches no further. -/
  credentials : ∀ w ∈ d.writes, ∀ x ∈ w.reach t (d.repositories t), rs.MayChange x

/-! ## Requests that stay inside -/

def Covers (rs : TokenRestriction) : Prop :=
  ∀ r ∈ t.repositories, r.organizationId = rs.organizationId → rs.Lists r.id

def NamesInside (rs : TokenRestriction) (repositoryIds : Option (List Id)) : Prop :=
  ∀ r ∈ t.repositories, ∀ ids, repositoryIds = some ids → r.id ∈ ids → rs.MayShow r.resource

def SharesInside (rs : TokenRestriction) (repo : Repository) : Prop :=
  ∀ r ∈ t.repositories, ∀ b ∈ t.repositoryBlobs, ∀ c ∈ t.repositoryBlobs,
    b.repositoryId = r.id → c.repositoryId = repo.id → c.blobDigest = b.blobDigest →
      rs.MayShow r.resource

def GrantsInside (rs : TokenRestriction) (team : Team) : Prop :=
  ∀ g ∈ t.repositoryGrants, g.subjectType = .team → g.subjectId = team.id →
    ∀ r ∈ t.repositories, r.id = g.repositoryId → r.organizationId = rs.organizationId

/-- For owners and admins. With a list, what writes the organization's rows stays
inside only where it has nothing to write. -/
def ManagedRequest.StaysInside (rs : TokenRestriction) : ManagedRequest → Prop
  | .auditGet | .usageGet _ => Covers t rs
  | .serviceAccountsGet =>
    ∀ sa ∈ serviceAccountsOf t rs.organizationId, NamesInside t rs sa.repositoryIds
  | .serviceAccountGet id => ∀ sa, serviceAccountById t rs.organizationId id = .ok sa →
      NamesInside t rs sa.repositoryIds
  | .serviceAccountRotate id _ => rs.repositoryIds = none ∧
      ∀ sa, serviceAccountById t rs.organizationId id = .ok sa → NamesInside t rs sa.repositoryIds
  | .ciIdentitiesGet => ∀ ci ∈ t.ciIdentities, ci.organizationId = rs.organizationId →
      NamesInside t rs ci.repositoryIds
  | .invitationsGet => True
  | .memberPatch userId body => rs.repositoryIds = none ∨
      ∃ m, target t rs.organizationId userId = .ok m ∧ body = .ok (some m.role)
  | .teamDelete team => rs.repositoryIds = none ∧
      ∀ x, findTeam t rs.organizationId team = .ok x → GrantsInside t rs x
  | .teamMemberPut team userId => ∀ x, findTeam t rs.organizationId team = .ok x →
      { teamId := x.id, userId := userId } ∉ t.teamMembers →
        rs.repositoryIds = none ∧ GrantsInside t rs x
  | .webhooks .list | .webhooks (.get _) => True
  | _ => rs.repositoryIds = none

def StaysInside (u : UserCaller) (rs : TokenRestriction) : Request → Prop
  | .managed _ request => request.StaysInside t rs
  | .org _ .orgGet => Covers t rs
  | .orgLimits _ (.patch _) => rs.repositoryIds = none
  | .orgLimits _ .delete =>
    rs.repositoryIds = none ∨ getOrgLimitsRow t rs.organizationId = none
  | .repo org repo (.get .repository) | .repo org repo (.patch _) =>
    ∀ a, loadRepo t (.user u) org repo = .ok a → SharesInside t rs a.repo
  | .users .list => t.users = []
  | .users _ => False
  | .me => NamesInside t rs rs.repositoryIds
  | .meUsage _ => False
  | _ => True

/-! ## Without a list

What belongs to the organization is then inside. -/

def Resource.Of (organizationId : Id) : Resource → Prop
  | .organization o => o = organizationId
  | .repository o _ => o = organizationId
  | .account _ => False

@[simp] theorem of_organization {o p : Id} : (Resource.organization o).Of p ↔ o = p := Iff.rfl

/-- Everything a request shows and writes belongs to the organization. -/
structure Within (organizationId : Id) (d : Done) : Prop where
  shows : ∀ x ∈ d.shows, x.Of organizationId
  writes : ∀ w ∈ d.writes, ∀ x ∈ w.resources (d.repositories t) t.teams, x.Of organizationId
  credentials : ∀ w ∈ d.writes, ∀ x ∈ w.reach t (d.repositories t), x.Of organizationId

variable {w : Write}

section limits

variable {t} {rs : TokenRestriction} {d : Done}

section

variable (hnone : rs.repositoryIds = none)
include hnone

theorem lists_of_none (id : Id) : rs.Lists id := by
  intro ids hids
  rw [hnone] at hids
  cases hids

theorem mayShow_iff_of (x : Resource) : rs.MayShow x ↔ x.Of rs.organizationId := by
  cases x <;> simp [TokenRestriction.MayShow, Resource.Of, lists_of_none hnone]

theorem mayChange_iff_of (x : Resource) : rs.MayChange x ↔ x.Of rs.organizationId := by
  cases x <;> simp [TokenRestriction.MayChange, Resource.Of, lists_of_none hnone, hnone]

theorem inside_iff_within : Inside t rs d ↔ Within t rs.organizationId d := by
  constructor
  · intro h
    exact ⟨fun x hx => (mayShow_iff_of hnone x).mp (h.shows x hx),
      fun w hw x hx => (mayChange_iff_of hnone x).mp (h.writes w hw x hx),
      fun w hw x hx => (mayChange_iff_of hnone x).mp (h.credentials w hw x hx)⟩
  · intro h
    exact ⟨fun x hx => (mayShow_iff_of hnone x).mpr (h.shows x hx),
      fun w hw x hx => (mayChange_iff_of hnone x).mpr (h.writes w hw x hx),
      fun w hw x hx => (mayChange_iff_of hnone x).mpr (h.credentials w hw x hx)⟩

end

theorem Inside.none_of_writes (h : Inside t rs d) (hw : w ∈ d.writes)
    (hx : .organization rs.organizationId ∈ w.resources (d.repositories t) t.teams) :
    rs.repositoryIds = none :=
  (h.writes w hw _ hx).2

theorem inside_iff_none (hwithin : Within t rs.organizationId d) (hwrites : ∃ w ∈ d.writes,
      .organization rs.organizationId ∈ w.resources (d.repositories t) t.teams) :
    Inside t rs d ↔ rs.repositoryIds = none := by
  obtain ⟨w, hw, hx⟩ := hwrites
  constructor
  · intro h
    exact h.none_of_writes hw hx
  · intro hnone
    exact (inside_iff_within hnone).mpr hwithin

theorem inside_of_no_writes (hd : d.writes = []) : Inside t rs d ↔ ∀ x ∈ d.shows, rs.MayShow x := by
  constructor
  · intro h
    exact h.shows
  · intro h
    exact ⟨h, by simp [hd], by simp [hd]⟩

theorem inside_answer {resources : List Resource} :
    Inside t rs (.answer resources) ↔ ∀ x ∈ resources, rs.MayShow x :=
  inside_of_no_writes rfl

variable {r : Repository}

theorem mem_doneRepositories (h : r ∈ d.repositories t) :
    r ∈ t.repositories ∨ ∃ w ∈ d.writes, w.Leaves .repository r := by
  rcases mem_append.mp h with h | h
  · exact .inl h
  · exact mem_rows_applyAll (k := .repository) h

theorem doneRepositories_old (hd : ∀ w ∈ d.writes, ∀ r, ¬ w.Leaves .repository r)
    (h : r ∈ d.repositories t) : r ∈ t.repositories := by
  rcases mem_doneRepositories h with h | ⟨w, hw, hleaves⟩
  · exact h
  · exact absurd hleaves (hd w hw r)

end limits

section statements

variable {t : Tables} {rs : TokenRestriction} {d : Done}

variable {shows : List Resource}

theorem inside_statement (hshows : ∀ x ∈ shows, x.Of rs.organizationId)
    (hresources : ∀ repositories, ∀ x ∈ w.resources repositories t.teams,
      x = .organization rs.organizationId)
    (hsome : ∀ repositories, w.resources repositories t.teams ≠ [])
    (hreach : ∀ repositories, ∀ x ∈ w.reach t repositories, x.Of rs.organizationId) :
    Inside t rs { shows := shows, writes := [w] } ↔ rs.repositoryIds = none := by
  refine inside_iff_none ⟨hshows, ?_, ?_⟩ ⟨w, mem_singleton_self w, ?_⟩
  · intro w' hw x hx
    rw [mem_singleton.mp hw] at hx
    rw [hresources _ x hx]
    rfl
  · intro w' hw x hx
    rw [mem_singleton.mp hw] at hx
    exact hreach _ x hx
  · obtain ⟨x, hx⟩ := exists_mem_of_ne_nil _ (hsome _)
    rwa [← hresources _ x hx]

theorem inside_upsert {k : Kind} {p : k.Row → Bool}
    {new : k.Row} (hshows : ∀ x ∈ shows, x.Of rs.organizationId)
    (hold : ∀ repositories, ∀ old ∈ t.rows k, p old = true →
      rowResources repositories t.teams k old = [.organization rs.organizationId])
    (hnew : ∀ repositories,
      rowResources repositories t.teams k new = [.organization rs.organizationId])
    (hreach : ∀ repositories, rowReach t repositories k new = []) :
    Inside t rs { shows := shows, writes := [t.upsertWrite k p new] } ↔
      rs.repositoryIds = none := by
  unfold Tables.upsertWrite
  split
  · rename_i old hfind
    have hres := fun repositories =>
      hold repositories old (mem_of_find?_eq_some hfind) (find?_some hfind)
    refine inside_statement hshows ?_ ?_ ?_ <;> simp [-rowResources, -rowReach, hres, hnew, hreach]
  · refine inside_statement hshows ?_ ?_ ?_ <;> simp [-rowResources, -rowReach, hnew, hreach]

def DeletesOf (t : Tables) (organizationId : Id) (w : Write) : Prop :=
  ∃ k row, w = .delete k row ∧ ∀ x ∈ rowResources t.repositories t.teams k row, x.Of organizationId

variable {organizationId : Id}

theorem within_of_deletes (hshows : ∀ x ∈ d.shows, x.Of organizationId)
    (hwrites : ∀ w ∈ d.writes, DeletesOf t organizationId w) : Within t organizationId d := by
  have hold : ∀ {r}, r ∈ d.repositories t → r ∈ t.repositories := by
    refine doneRepositories_old fun w hw r hleaves => ?_
    obtain ⟨k, row, rfl, -⟩ := hwrites w hw
    exact leaves_delete hleaves
  refine ⟨hshows, fun w hw x hx => ?_, fun w hw x hx => ?_⟩
  · obtain ⟨k, row, rfl, hrow⟩ := hwrites w hw
    exact hrow x (rowResources_subset hold hx)
  · obtain ⟨k, row, rfl, -⟩ := hwrites w hw
    cases hx

/-! ### Answers -/

theorem mayShow_wholeOrganization :
    (∀ x ∈ wholeOrganization t rs.organizationId, rs.MayShow x) ↔ Covers t rs := by
  simp only [wholeOrganization, organizationRepositories, forall_mem_cons,
    forall_mem_map, mem_filter, decide_eq_true_eq]
  constructor
  · rintro ⟨-, h⟩ r hr ho
    exact (h r ⟨hr, ho⟩).2
  · intro h
    exact ⟨rfl, fun r hr => ⟨hr.2, h r hr.1 hr.2⟩⟩

variable {lists : List (Option (List Id))} {x : Resource}

theorem mem_namedRepositories :
    x ∈ namedRepositories t lists ↔
      ∃ r ∈ t.repositories, (∃ ids, some ids ∈ lists ∧ r.id ∈ ids) ∧ r.resource = x := by
  simp only [namedRepositories, mem_map, mem_filter, any_eq_true,
    Option.any_eq_true, contains_iff_mem]
  grind

theorem mayShow_namedRepositories :
    (∀ x ∈ namedRepositories t lists, rs.MayShow x) ↔ ∀ ids ∈ lists, NamesInside t rs ids := by
  simp only [mem_namedRepositories]
  constructor
  · rintro h _ hlist r hr ids rfl hid
    exact h _ ⟨r, hr, ⟨ids, hlist, hid⟩, rfl⟩
  · rintro h _ ⟨r, hr, ⟨ids, hlist, hid⟩, rfl⟩
    exact h _ hlist r hr ids rfl hid

theorem MayShow.of (h : rs.MayShow x) : x.Of rs.organizationId := by
  cases x with
  | organization o | account u => exact h
  | repository o r => exact h.1

theorem mem_listReach {repositoryIds : Option (List Id)}
    (h : x ∈ listReach organizationId repositoryIds) : x.Of organizationId := by
  cases repositoryIds with
  | none =>
    rw [mem_singleton.mp h]
    rfl
  | some ids =>
    obtain ⟨id, -, rfl⟩ := mem_map.mp h
    rfl

theorem listedRepositories_of (db : Database) {names : Option (List String)}
    {ids : Option (List Id)} (h : listedRepositories db.toTables organizationId names = .ok ids) :
    ∀ x ∈ namedRepositories db.toTables [ids], x.Of organizationId := by
  intro x hx
  obtain ⟨r, hr, ⟨l, hl, hid⟩, rfl⟩ := mem_namedRepositories.mp hx
  have hl := mem_singleton.mp hl
  subst hl
  unfold listedRepositories at h
  split at h
  · cases h
  · dsimp only at h
    split at h
    · cases h
      obtain ⟨r', hr', he⟩ := mem_map.mp hid
      simp only [mem_filter, Bool.and_eq_true, decide_eq_true_eq] at hr'
      rw [← db.repository_ids.eq_of_key hr'.1 hr he]
      exact hr'.2.1
    · cases h

end statements

end Chicoree.Web
