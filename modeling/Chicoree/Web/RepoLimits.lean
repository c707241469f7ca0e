import Chicoree.Web.Limits

/-! # The limits of a token under /repos/{org}/{repo}

What these handlers write are rows of the one repository the request is about, or of
the one an image is copied into. -/

namespace Chicoree.Web

open List Except

/-! ## Rows of one repository -/

/-- A row of the repository: its own, or one that goes with it. -/
@[simp] def RowOf (r : Repository) : (k : Kind) → k.Row → Prop
  | .repository, row => row.resource = r.resource
  | .repositoryGrant, row => row.repositoryId = r.id
  | .repositoryStar, row => row.repositoryId = r.id
  | .repositoryBlob, row => row.repositoryId = r.id
  | .tag, row => row.repositoryId = r.id
  | .webhook, row => row.scope = .repository r.id
  | _, _ => False

/-- The statement names rows of the repository only. -/
@[simp] def WritesOf (r : Repository) : Write → Prop
  | .insert k row => RowOf r k row
  | .update k old new => RowOf r k old ∧ RowOf r k new
  | .delete k row => RowOf r k row

variable {k : Kind} {t : Tables} {w : Write} {rs : TokenRestriction} {r : Repository}

section rows

variable {r : Repository} {repositories : List Repository}
  (hkey : ∀ r' ∈ repositories, r'.id = r.id → r'.resource = r.resource)
include hkey

variable {x : Resource}

theorem repositoryResources_of_key
    (hx : x ∈ repositoryResources repositories r.id) : x = r.resource := by
  obtain ⟨r', hr', hid, rfl⟩ := mem_repositoryResources.mp hx
  exact hkey r' hr' hid

variable {teams : List Team}

theorem RowOf.resources {row : k.Row} (h : RowOf r k row)
    (hx : x ∈ rowResources repositories teams k row) : x = r.resource := by
  cases k with
  | repository => exact (mem_singleton.mp hx).trans h
  | webhook | repositoryGrant | repositoryStar | repositoryBlob | tag =>
    simp only [RowOf] at h
    simp only [rowResources, h] at hx
    exact repositoryResources_of_key hkey hx
  | _ => exact h.elim

theorem RowOf.reach {row : k.Row} (h : RowOf r k row)
    (hx : x ∈ rowReach t repositories k row) : x = r.resource := by
  cases k with
  | repositoryGrant =>
    simp only [RowOf] at h
    simp only [rowReach, h] at hx
    exact repositoryResources_of_key hkey hx
  | repository | webhook | repositoryStar | repositoryBlob | tag => cases hx
  | _ => exact h.elim

theorem WritesOf.resources (h : WritesOf r w)
    (hx : x ∈ w.resources repositories teams) : x = r.resource := by
  cases w with
  | insert k row | delete k row => exact RowOf.resources hkey h hx
  | update k old new =>
    rcases mem_append.mp hx with hx | hx
    · exact RowOf.resources hkey h.1 hx
    · exact RowOf.resources hkey h.2 hx

theorem WritesOf.reach (h : WritesOf r w) (hx : x ∈ w.reach t repositories) : x = r.resource := by
  cases w with
  | insert k row => exact RowOf.reach hkey h hx
  | update k old new => exact RowOf.reach hkey h.2 hx
  | delete k row => cases hx

end rows

theorem WritesOf.leaves {r r' : Repository} (h : WritesOf r w)
    (hleaves : w.Leaves .repository r') : r'.resource = r.resource := by
  rcases hleaves with rfl | ⟨old, rfl⟩
  · exact h
  · exact h.2

theorem writesOf_upsert {p : k.Row → Bool} {new : k.Row}
    (hold : ∀ old, p old = true → RowOf r k old) (hnew : RowOf r k new) :
    WritesOf r (t.upsertWrite k p new) := by
  unfold Tables.upsertWrite
  split
  · rename_i old hfind
    exact ⟨hold old (find?_some hfind), hnew⟩
  · exact hnew

theorem writesOf_setTag (t : Tables) (r : Repository) (name digest : String) :
    WritesOf r (setTag t r.id name digest) :=
  writesOf_upsert (by simp +contextual) rfl

theorem writesOf_repositoryRows (t : Tables) (r : Repository) :
    ∀ w ∈ repositoryRows t r, WritesOf r w := by
  simp only [repositoryRows, forall_mem_append, forall_mem_deleteWhere,
    forall_mem_singleton, decide_eq_true_eq, WritesOf, RowOf]
  simp

/-- A request that shows what the token may be shown and writes rows of one repository
inside the limits. -/
theorem inside_of_writesOf {d : Done}
    (hkey : ∀ r' ∈ t.repositories, r'.id = r.id → r'.resource = r.resource)
    (hr : rs.MayShow r.resource) (hshows : ∀ x ∈ d.shows, rs.MayShow x)
    (hwrites : ∀ w ∈ d.writes, WritesOf r w) : Inside t rs d := by
  have hall : ∀ r' ∈ d.repositories t, r'.id = r.id → r'.resource = r.resource := by
    intro r' hr' hid
    rcases mem_doneRepositories hr' with hold | ⟨w, hw, hleaves⟩
    · exact hkey r' hold hid
    · exact (hwrites w hw).leaves hleaves
  refine ⟨hshows, fun w hw x hx => ?_, fun w hw x hx => ?_⟩
  · rw [(hwrites w hw).resources hall hx]
    exact hr
  · rw [(hwrites w hw).reach hall hx]
    exact hr

/-! ## Under /repos/{org}/{repo} -/

theorem withinList_mayShow (h : withinList rs.organizationId rs.repositoryIds r = true) :
    rs.MayShow r.resource := by
  simp only [withinList, Bool.and_eq_true, decide_eq_true_eq] at h
  refine ⟨h.1, fun ids hids => ?_⟩
  have hlist := h.2
  simp only [hids, Option.all_some, Bool.or_eq_true, List.isEmpty_iff, contains_iff_mem] at hlist
  rcases hlist with hnil | hid
  · exact absurd (hids.trans (congrArg some hnil)) rs.listed
  · exact hid

variable {org : String}

theorem loadRepo_restriction {db : Database} {u : UserCaller} {repo : String} {a : RepoAccess}
    (h : loadRepo db.toTables (.user u) org repo = .ok a) (hrs : u.restriction = some rs) :
    a.repo ∈ db.repositories ∧ a.org.id = a.repo.organizationId ∧ rs.MayShow a.repo.resource := by
  simp only [loadRepo] at h
  split at h
  · cases h
  · rename_i row hrow
    split at h
    · cases h
    · rename_i o horg
      cases h
      obtain ⟨named, hnamed, hid⟩ := Option.bind_eq_some_iff.mp hrow
      obtain ⟨hmem, hkey⟩ := Table.find_some hid
      have hfilter := find?_some hnamed
      rw [← db.repository_ids.eq_of_key hmem (mem_of_find?_eq_some hnamed) hkey] at hfilter
      simp only [repoFilter, hrs, Option.all_some, Bool.and_eq_true] at hfilter
      exact ⟨hmem, (Table.find_some horg).2, withinList_mayShow hfilter.2.2⟩

theorem mayShow_repoDetail (hr : rs.MayShow r.resource) :
    (∀ x ∈ repoDetail t r, rs.MayShow x) ↔ SharesInside t rs r := by
  simp only [repoDetail, forall_mem_cons, hr, true_and, forall_mem_map, mem_filter,
    any_eq_true, Bool.and_eq_true, decide_eq_true_eq]
  constructor
  · intro h r' hr' b hb c hc hb' hc' he
    exact h r' ⟨hr', b, hb, hb', c, hc, hc', he⟩
  · rintro h r' ⟨hr', b, hb, hb', c, hc, hc', he⟩
    exact h r' hr' b hb c hc hb' hc' he

theorem mayShow_policies {a : RepoAccess} (ho : a.org.id = a.repo.organizationId)
    (hin : rs.MayShow a.repo.resource) :
    ∀ x ∈ [a.repo.resource, .organization a.org.id], rs.MayShow x := by
  simp only [forall_mem_cons]
  exact ⟨hin, ho.trans hin.1, by simp⟩

variable {name : String}

section repo

variable {sv : Services} {db : Database} {u : UserCaller} {a : RepoAccess}
  {rs : TokenRestriction} {d : Done} (hmem : a.repo ∈ db.repositories)
  (ho : a.org.id = a.repo.organizationId) (hin : rs.MayShow a.repo.resource)
include hmem hin

theorem inside_repo (hshows : ∀ x ∈ d.shows, rs.MayShow x)
    (hwrites : ∀ w ∈ d.writes, WritesOf a.repo w) : Inside db.toTables rs d := by
  refine inside_of_writesOf (fun r' hr' hid => ?_) hin hshows hwrites
  rw [db.repository_ids.eq_of_key hr' hmem hid]

theorem repoPatch_inside {body : Body RepoBody} (h : repoPatch sv db.toTables a body = .ok d) :
    Inside db.toTables rs d ↔ SharesInside db.toTables rs a.repo := by
  simp only [repoPatch, bind_eq_ok, ok.injEq] at h
  obtain ⟨b, -, -, -, -, -, rfl⟩ := h
  have hshown : (∀ x ∈ repoDetail db.toTables { a.repo with
      description := b.description.getD a.repo.description
      visibility := b.visibility.getD a.repo.visibility }, rs.MayShow x) ↔
        SharesInside db.toTables rs a.repo := mayShow_repoDetail hin
  constructor
  · intro h
    exact hshown.mp h.shows
  · intro h
    exact inside_repo hmem hin (hshown.mpr h) (by simp [Repository.resource])

theorem repoDelete_inside (h : repoDelete db.toTables a = .ok d) : Inside db.toTables rs d := by
  cases h
  exact inside_repo hmem hin (by simpa using hin) (writesOf_repositoryRows db.toTables a.repo)

variable {subjectType : Option SubjectType} {subjectId : Id}

theorem accessPut_inside {body : Body RepoPermission}
    (h : accessPut db.toTables a subjectType subjectId body = .ok d) :
    Inside db.toTables rs d := by
  simp only [accessPut, bind_eq_ok, ok.injEq] at h
  obtain ⟨permission, -, type, -, -, -, rfl⟩ := h
  refine inside_repo hmem hin (by simpa using hin) ?_
  simp only [forall_mem_singleton]
  exact writesOf_upsert (by simp +contextual [isGrantOf]) rfl

theorem accessDelete_inside (h : accessDelete db.toTables a subjectType subjectId = .ok d) :
    Inside db.toTables rs d := by
  simp only [accessDelete, bind_eq_ok, ok.injEq] at h
  obtain ⟨type, -, -, -, rfl⟩ := h
  refine inside_repo hmem hin (by simpa using hin) ?_
  simp +contextual [forall_mem_deleteWhere, isGrantOf]

theorem manifestDelete_inside {digest : Body String}
    (h : manifestDelete sv db.toTables a digest = .ok d) : Inside db.toTables rs d := by
  simp only [manifestDelete, bind_eq_ok, ok.injEq] at h
  obtain ⟨-, -, -, -, rfl⟩ := h
  refine inside_repo hmem hin (by simpa using hin) ?_
  simp +contextual [forall_mem_deleteWhere]

theorem tagPut_inside {body : Body String}
    (h : tagPut sv db.toTables a name body = .ok d) : Inside db.toTables rs d := by
  simp only [tagPut, bind_eq_ok, ok.injEq] at h
  obtain ⟨digest, -, -, -, rfl⟩ := h
  refine inside_repo hmem hin (by simpa using hin) ?_
  intro w hw
  split at hw
  · cases hw
  · rw [mem_singleton.mp hw]
    exact writesOf_setTag db.toTables a.repo name digest

theorem tagDelete_inside {moveLatest : Bool}
    (h : tagDelete sv db.toTables a name moveLatest = .ok d) : Inside db.toTables rs d := by
  have hremoved : ∀ n, ∀ w ∈ db.toTables.deleteWhere .tag (fun x =>
      decide (x.repositoryId = a.repo.id ∧ x.name = n)), WritesOf a.repo w := by
    intro n
    simp +contextual [forall_mem_deleteWhere]
  have hshows : ∀ x ∈ [a.repo.resource], rs.MayShow x := by simpa using hin
  simp only [tagDelete, bind_eq_ok] at h
  obtain ⟨outcome, -, h⟩ := h
  split at h <;> cases h
  · exact inside_repo hmem hin (by simp) (hremoved name)
  · exact inside_repo hmem hin hshows (hremoved name)
  · exact inside_repo hmem hin hshows
      (forall_mem_append.mpr ⟨hremoved name, hremoved "latest"⟩)
  · refine inside_repo hmem hin hshows (forall_mem_append.mpr ⟨hremoved name, ?_⟩)
    simpa using writesOf_setTag db.toTables a.repo "latest" _

theorem repoWebhooks_inside {request : WebhookRequest}
    (h : webhookHandlers sv db.toTables (repoWebhookContext a) request = .ok d) :
    Inside db.toTables rs d := by
  have hscope : ∀ {id hook}, findScopedWebhook db.toTables (.repository a.repo.id) id = .ok hook →
        hook.scope = .repository a.repo.id := by
    intro id hook hhook
    have hp := (found_where hhook).2
    simp only [decide_eq_true_eq] at hp
    exact hp.2
  cases request with
  | list =>
    cases h
    exact inside_answer.mpr (by simpa [repoWebhookContext] using hin)
  | get id =>
    simp only [webhookHandlers, webhooksGet, bind_eq_ok, ok.injEq] at h
    obtain ⟨hook, -, rfl⟩ := h
    exact inside_answer.mpr (by simpa [repoWebhookContext] using hin)
  | create body id =>
    simp only [webhookHandlers, webhooksCreate, bind_eq_ok, ok.injEq] at h
    obtain ⟨values, -, -, -, rfl⟩ := h
    exact inside_repo hmem hin (by simpa [repoWebhookContext] using hin)
      (by simp [repoWebhookContext])
  | update id body =>
    simp only [webhookHandlers, webhooksUpdate, bind_eq_ok, ok.injEq] at h
    obtain ⟨hook, hhook, values, -, rfl⟩ := h
    exact inside_repo hmem hin (by simpa [repoWebhookContext] using hin) (by simp [hscope hhook])
  | remove id =>
    simp only [webhookHandlers, webhooksRemove, bind_eq_ok, ok.injEq] at h
    obtain ⟨hook, hhook, rfl⟩ := h
    exact inside_repo hmem hin (by simpa [repoWebhookContext] using hin) (by simp [hscope hhook])
  | test id =>
    simp only [webhookHandlers, webhooksTest, bind_eq_ok, ok.injEq] at h
    obtain ⟨hook, hhook, rfl⟩ := h
    exact inside_repo hmem hin (by simpa [repoWebhookContext] using hin) (by simp [hscope hhook])

include ho

theorem repoPoliciesPatch_inside {body : Body RepoPoliciesBody}
    (h : repoPoliciesPatch a body = .ok d) : Inside db.toTables rs d := by
  simp only [repoPoliciesPatch, bind_eq_ok, ok.injEq] at h
  obtain ⟨b, -, -, -, rfl⟩ := h
  exact inside_repo hmem hin (mayShow_policies ho hin) (by simp [Repository.resource])

omit hmem in
theorem repoGet_inside {document : RepoDocument}
    (h : repoGet sv db.toTables a document = .ok d) (hdocument : document ≠ .repository) :
    Inside db.toTables rs d := by
  have hone : Inside db.toTables rs (.answer [a.repo.resource]) :=
    inside_answer.mpr (by simpa using hin)
  have htag : ∀ {name}, tagDocument sv db.toTables a name = .ok d → Inside db.toTables rs d := by
    intro name h
    simp only [tagDocument, bind_eq_ok, ok.injEq] at h
    obtain ⟨-, -, -, -, rfl⟩ := h
    exact hone
  have himage : ∀ {digest}, imageDocument sv a digest = .ok d → Inside db.toTables rs d := by
    intro digest h
    simp only [imageDocument, bind_eq_ok, ok.injEq] at h
    obtain ⟨-, -, -, -, rfl⟩ := h
    exact hone
  cases document with
  | repository => exact absurd rfl hdocument
  | policies =>
    cases h
    exact inside_answer.mpr (mayShow_policies ho hin)
  | tags | untagged | sizeHistory =>
    cases h
    exact hone
  | tag name | chart name => exact htag h
  | manifest digest | vulnerabilities digest | artifacts digest | packages digest
  | scan digest => exact himage h

end repo

/-! ### Copies -/

theorem copyDestination_where {c : Caller} {dest : OrgAccess}
    {access : Option RepoAccess} (h : copyDestination t c dest name = .ok access) :
    (∃ x, access = some x ∧ ∃ org repo, loadRepo t c org repo = .ok x) ∨
      (access = none ∧ ∃ what, requireOrgWriter c dest what = .ok ()) := by
  unfold copyDestination at h
  split at h
  · simp only [bind_eq_ok] at h
    obtain ⟨x, hx, ⟨⟩, -, h⟩ := h
    cases h
    exact .inl ⟨x, rfl, _, _, hx⟩
  · simp only [bind_eq_ok] at h
    obtain ⟨⟨⟩, hwriter, h⟩ := h
    cases h
    exact .inr ⟨rfl, _, hwriter⟩

section token

variable {sv : Services} {db : Database} {u : UserCaller} {rs : TokenRestriction}
  (hrs : u.restriction = some rs) {d : Done}
include hrs

variable {what : String}

theorem requireOrgWriter_none {a : OrgAccess}
    (h : requireOrgWriter (.user u) a what = .ok ()) : rs.repositoryIds = none := by
  simp only [requireOrgWriter, hrs] at h
  split at h
  · cases h
  · split at h
    · cases h
    · rename_i hno
      exact Option.not_isSome_iff_eq_none.mp (not_or.mp hno).2

theorem inside_new {a : OrgAccess} (hdest : loadOrg db.toTables (.user u) org = .ok a)
    (hwriter : requireOrgWriter (.user u) a what = .ok ()) (hro : r.organizationId = a.org.id)
    (hfresh : db.toTables.repositoryById r.id = none)
    (hshows : ∀ x ∈ d.shows, rs.MayShow x ∨ x = r.resource)
    (hwrites : ∀ w ∈ d.writes, WritesOf r w) : Inside db.toTables rs d := by
  have hr : rs.MayShow r.resource :=
    ⟨hro.trans (loadOrg_restriction db.toTables hdest hrs),
      lists_of_none (requireOrgWriter_none hrs hwriter) r.id⟩
  refine inside_of_writesOf (fun r' hr' hid => ?_) hr (fun x hx => ?_) hwrites
  · exact absurd hid (Table.find_none hfresh hr')
  · rcases hshows x hx with hx | rfl
    · exact hx
    · exact hr

theorem copyImage_inside {source : RepoAccess} {digest : String} {sourceTag : Option String}
    {b : CopyBody} {id : Id} (hsource : rs.MayShow source.repo.resource)
    (h : copyImage sv db.toTables (.user u) source digest sourceTag b id = .ok d) :
    Inside db.toTables rs d := by
  simp only [copyImage, bind_eq_ok] at h
  obtain ⟨⟨⟩, -, h⟩ := h
  split at h
  · cases h
  · cases h
  · simp only [bind_eq_ok] at h
    obtain ⟨⟨⟩, -, dest, hdest, ⟨⟩, -, ⟨⟩, -, existing, hexisting, h⟩ := h
    rcases copyDestination_where hexisting with ⟨access, rfl, org, repo, haccess⟩ |
      ⟨rfl, what, hwriter⟩
    · obtain ⟨hmem, -, hin⟩ := loadRepo_restriction haccess hrs
      simp only [bind_eq_ok, ok.injEq] at h
      obtain ⟨-, -, -, -, -, -, -, -, rfl⟩ := h
      refine inside_repo hmem hin (by simpa using ⟨hsource, hin⟩) ?_
      simp only [copiedTags, forall_mem_map]
      exact fun x _ => writesOf_setTag db.toTables access.repo x.1 x.2
    · simp only [bind_eq_ok, ok.injEq, refuseIf_eq_ok] at h
      obtain ⟨-, -, -, -, -, -, -, hfresh, rfl⟩ := h
      refine inside_new hrs hdest hwriter (r := {
        id := id, organizationId := dest.org.id, name := b.repository
        visibility := defaultVisibility sv db.toTables dest.org.id (some u.userId) }) rfl
        (Option.not_isSome_iff_eq_none.mp hfresh) ?_ ?_
      · simp only [forall_mem_cons]
        exact ⟨.inl hsource, .inr rfl, by simp⟩
      · simp only [copiedTags, forall_mem_cons, forall_mem_map]
        exact ⟨rfl, fun x _ => writesOf_setTag db.toTables _ x.1 x.2⟩

end token

end Chicoree.Web
