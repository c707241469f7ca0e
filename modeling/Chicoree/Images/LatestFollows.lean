import Chicoree.Images.LatestRuns
import Chicoree.PullBlocks.Refresh

/-! # Where `latest` ends

A deletion that nothing else interferes with. The tags that remain are ranked with the
attached artifacts among them and by doubles, so `latest` ends on the newest image where each
artifact is below one and the doubles tell the images apart. -/

namespace Chicoree.Images

open Transition List Table
open Registryd (Digest RepoId Repository Time)

/-! ## A deletion alone -/

/-- The tags `latest` may follow. -/
def remainingTags (s : Tables) (a : TagRemoval) : List TagRow :=
  (s.repositoryTags a.repositoryId).filter
    fun t => decide (t.name ≠ a.tagName ∧ t.name ≠ "latest")

/-- The tag names an image, and not an artifact that is attached to one. Manifests have the
media type and the payload that `stored` gives. -/
def isImage (stored : Digest → String × Option JsonDoc) (s : Tables) (t : TagRow) : Bool :=
  let row := s.manifests.find?
    fun m => decide (m.repositoryId = t.repositoryId ∧ m.digest = t.manifestDigest)
  !row.any fun m =>
    PullBlocks.looksLikeArtifact
      ⟨m.digest, (stored m.digest).1, (stored m.digest).2, m.subjectDigest⟩
      (s.tagsForDigest t.repositoryId t.manifestDigest) == some true

/-- The deletion has `latest` follow: it names the same image, and no rule locks it. -/
structure Moves (localeCompare : String → String → Ordering) (s : Tables) (a : TagRemoval) :
    Prop where
  moveLatest : a.moveLatest = true
  other : a.tagName ≠ "latest"
  same : s.resolveTag a.repositoryId "latest" = s.resolveTag a.repositoryId a.tagName
  unlocked : ∀ r, s.findRepository a.repositoryId = some r →
    tagFlags (effectiveTagRules localeCompare s r.orgId r.id) "latest" = {}

/-- `latest` names the newest of the images, or nothing where there is none. -/
def EndsOnNewest (s : Tables) (a : TagRemoval) (images : List TagRow)
    (built : List (Digest × Time)) : Prop :=
  (images = [] ↔ s.resolveTag a.repositoryId "latest" = none) ∧
    (images ≠ [] → ∃ newest, NewestAmong images built newest ∧
      s.resolveTag a.repositoryId "latest" = some newest.manifestDigest)

/-! ## What it knows on the way -/

section alone

variable {localeCompare : String → String → Ordering} {s₀ s s' : Tables} {a : TagRemoval}
  {k : TagContext} {built : List (Digest × Time)} {pc' : TagAdminPc} {reply : Reply}
  {call : RegistryCall}

structure ReadAt (localeCompare : String → String → Ordering) (s₀ : Tables) (a : TagRemoval)
    (k : TagContext) : Prop where
  found : s₀.findRepository a.repositoryId = some k.repository
  located : s₀.getRepository k.orgSlug k.repository.name = some k.repository
  target : s₀.findTag a.repositoryId a.tagName = some k.target
  latest : s₀.findTag a.repositoryId "latest" = k.latest
  rules : effectiveTagRules localeCompare s₀ k.repository.orgId k.repository.id = k.rules

theorem ReadAt.id (h : ReadAt localeCompare s₀ a k) : k.repository.id = a.repositoryId :=
  (find_some h.found).2

abbrev untagged (s₀ : Tables) (a : TagRemoval) : Tables := s₀.deleteTag a.repositoryId a.tagName

def AloneAt (localeCompare : String → String → Ordering) (s₀ : Tables) (a : TagRemoval)
    (built : List (Digest × Time)) (s : Tables) : TagAdminPc → Prop
  | .repository => s = s₀
  | .organization r => s = s₀ ∧ s₀.findRepository a.repositoryId = some r
  | .load r orgSlug q =>
    s = s₀ ∧ s₀.findRepository a.repositoryId = some r ∧ s₀.getRepository orgSlug r.name = some r ∧
      (∀ row, q.target = some row → s₀.findTag a.repositoryId a.tagName = row) ∧
      (∀ row, q.latest = some row → s₀.findTag a.repositoryId "latest" = row) ∧
      ∀ rules, q.rules = some rules → effectiveTagRules localeCompare s₀ r.orgId r.id = rules
  | .registryDelete k call =>
    ReadAt localeCompare s₀ a k ∧ ServesDelete k.orgSlug k.repository a.tagName call ∧
      (s = s₀ ∧ StillThere s₀ k.repository a.tagName call ∨
        s = untagged s₀ a ∧ call = .answered 202 "")
  | .remaining k => ReadAt localeCompare s₀ a k ∧ s = untagged s₀ a
  | .deleteLatest k call =>
    ReadAt localeCompare s₀ a k ∧ remainingTags s₀ a = [] ∧
      ServesDelete k.orgSlug k.repository "latest" call ∧
      (s = untagged s₀ a ∧ StillThere s k.repository "latest" call ∨
        s.resolveTag a.repositoryId "latest" = none ∧ call = .answered 202 "")
  | .pickNewest k remaining =>
    ReadAt localeCompare s₀ a k ∧ s = untagged s₀ a ∧ remaining = remainingTags s₀ a ∧
      remaining ≠ []
  | .fetchManifest k pick =>
    ReadAt localeCompare s₀ a k ∧ s = untagged s₀ a ∧
      pickNewest (remainingTags s₀ a) built = some pick
  | .putLatest k pick call =>
    k.repository.id = a.repositoryId ∧
      s.getRepository k.orgSlug k.repository.name = some k.repository ∧
      pickNewest (remainingTags s₀ a) built = some pick ∧
      ServesPut k.orgSlug k.repository "latest" pick.manifestDigest call ∧
      ((∀ message, call ≠ .answered 201 message) ∨
        s.resolveTag a.repositoryId "latest" = some pick.manifestDigest)
  | .done (.ok _) =>
    remainingTags s₀ a = [] ∧ s.resolveTag a.repositoryId "latest" = none ∨
      ∃ pick, pickNewest (remainingTags s₀ a) built = some pick ∧
        s.resolveTag a.repositoryId "latest" = some pick.manifestDigest
  | .done (.error _) => True

theorem remainingTags_untagged : ((untagged s₀ a).repositoryTags a.repositoryId).filter
      (fun t => decide (t.name ≠ a.tagName ∧ t.name ≠ "latest")) = remainingTags s₀ a := by
  show ((s₀.tags.filter _).filter _).filter _ = (s₀.tags.filter _).filter _
  rw [filter_filter, filter_filter, filter_filter]
  refine filter_congr fun t _ => ?_
  rw [Bool.eq_iff_iff]
  simp only [Bool.and_eq_true, decide_eq_true_eq, ne_eq]
  constructor
  · rintro ⟨⟨hnames, hrepo⟩, -⟩
    exact ⟨hnames, hrepo⟩
  · rintro ⟨hnames, hrepo⟩
    exact ⟨⟨hnames, hrepo⟩, fun hkey => hnames.1 (congrArg Prod.snd hkey)⟩

theorem findTag_deleteTag_ne {name other : String} (h : name ≠ other) (t : Tables)
    (repo : RepoId) : (t.deleteTag repo other).findTag repo name = t.findTag repo name := by
  have hkey : (repo, name) ≠ (repo, other) := fun heq => h (congrArg Prod.snd heq)
  exact find_filter_ne hkey t.tags

theorem resolveTag_deleteTag_self (t : Tables) (repo : RepoId) (name : String) :
    (t.deleteTag repo name).resolveTag repo name = none := by
  unfold Tables.resolveTag
  rw [Option.map_eq_none_iff]
  cases hfind : (t.deleteTag repo name).findTag repo name with
  | none => rfl
  | some row =>
    obtain ⟨hmem, hkey⟩ := find_some hfind
    exact absurd hkey (of_decide_eq_true (mem_filter.mp hmem).2)

theorem deleted_of_moves (hm : Moves localeCompare s₀ a) (hread : ReadAt localeCompare s₀ a k)
    (status : Nat) (message : String) :
    (∃ e, a.deleted k status message = .done (.error e)) ∨
      status = 202 ∧ a.deleted k status message = .remaining k := by
  have hsame : k.latest.map (·.manifestDigest) = some k.target.manifestDigest := by
    have hboth := hm.same
    unfold Tables.resolveTag at hboth
    rw [hread.latest, hread.target] at hboth
    exact hboth
  have hflags := hm.unlocked _ hread.found
  rw [hread.rules] at hflags
  unfold TagRemoval.deleted
  split
  · exact .inl ⟨_, rfl⟩
  · split
    · exact .inl ⟨_, rfl⟩
    · split
      · exact .inl ⟨_, rfl⟩
      · rename_i h202
        refine .inr ⟨not_not.mp h202, ?_⟩
        rw [if_neg, if_neg]
        · rw [hflags]
          simp
        · simp [hm.moveLatest, hm.other, hsame]

theorem aloneAt_organization {r : Repository} (hv : s.Valid)
    (hk : AloneAt localeCompare s₀ a built s (.organization r))
    (h : tagAdminAct localeCompare s a (.organization r) reply = some (s', pc')) :
    AloneAt localeCompare s₀ a built s' pc' := by
  obtain ⟨rfl, hfound⟩ := hk
  simp only [tagAdminAct] at h
  split at h
  · cases h
    trivial
  · split at h
    · cases h
      trivial
    · rename_i _ ho
      cases h
      refine ⟨rfl, hfound, getRepository_of_find hv hfound ho, fun row hrow => ?_,
        fun row hrow => ?_, fun rules hrules => ?_⟩
      · cases hrow
      · cases hrow
      · cases hrules

/-- The rows that the deletion reads at the start. -/
theorem aloneAt_load {r : Repository} {orgSlug : String} {q : TagQueries}
    (hk : AloneAt localeCompare s₀ a built s (.load r orgSlug q))
    (h : tagAdminAct localeCompare s a (.load r orgSlug q) reply = some (s', pc')) :
    AloneAt localeCompare s₀ a built s' pc' := by
  obtain ⟨rfl, hfound, hlocated, htarget, hlatest, hrules⟩ := hk
  have hid : r.id = a.repositoryId := (find_some hfound).2
  simp only [tagAdminAct] at h
  split at h
  · rename_i n
    cases h
    cases n with
    | zero =>
      refine ⟨rfl, hfound, hlocated, fun row hrow => ?_, hlatest, hrules⟩
      rw [← hid]
      exact Option.some.inj hrow
    | succ n =>
      cases n with
      | zero =>
        refine ⟨rfl, hfound, hlocated, htarget, fun row hrow => ?_, hrules⟩
        rw [← hid]
        exact Option.some.inj hrow
      | succ n =>
        exact ⟨rfl, hfound, hlocated, htarget, hlatest, fun rules heq => Option.some.inj heq⟩
  · split at h
    · rename_i target latest rules hqt hql hqr
      cases h
      unfold TagRemoval.check
      cases target with
      | none => trivial
      | some row =>
        simp only
        split
        · trivial
        · refine ⟨⟨hfound, hlocated, htarget _ hqt, hlatest _ hql, hrules _ hqr⟩,
            ⟨rfl, rfl, rfl⟩, .inl ⟨rfl, fun status message heq => ?_⟩⟩
          cases heq
    · cases h
  · cases h
    trivial
  · cases h

/-- The delete of the tag goes through, or the deletion ends in an error. -/
theorem aloneAt_registryDelete (hm : Moves localeCompare s₀ a)
    (hk : AloneAt localeCompare s₀ a built s (.registryDelete k call))
    (h : tagAdminAct localeCompare s a (.registryDelete k call) reply = some (s', pc')) :
    AloneAt localeCompare s₀ a built s' pc' := by
  obtain ⟨hread, hserves, hstate⟩ := hk
  have hid := hread.id
  rcases call_cases (.inl rfl) h with ⟨status, message, rfl⟩ | ⟨hno, call', hact, rfl⟩
  · cases h
    rcases deleted_of_moves hm hread status message with
      ⟨e, herror⟩ | ⟨rfl, hgoes⟩
    · rw [herror]
      trivial
    · rw [hgoes]
      rcases hstate with ⟨rfl, hstill⟩ | ⟨rfl, -⟩
      · exact absurd rfl (hstill 202 message rfl).1
      · exact ⟨hread, rfl⟩
  · rcases hstate with ⟨rfl, -⟩ | ⟨-, rfl⟩
    · obtain ⟨hserves', heffect⟩ := servesDelete_step hread.located hserves hact
      refine ⟨hread, hserves', ?_⟩
      rcases heffect with ⟨rfl, hstill⟩ | ⟨-, -, rfl, hanswer⟩
      · exact .inl ⟨rfl, hstill⟩
      · rw [hid]
        exact .inr ⟨rfl, hanswer⟩
    · cases hno

theorem aloneAt_remaining (hk : AloneAt localeCompare s₀ a built s (.remaining k))
    (h : tagAdminAct localeCompare s a (.remaining k) reply = some (s', pc')) :
    AloneAt localeCompare s₀ a built s' pc' := by
  obtain ⟨hread, rfl⟩ := hk
  simp only [tagAdminAct] at h
  split at h
  · cases h
    trivial
  · rw [hread.id, remainingTags_untagged] at h
    split at h
    · rename_i hempty
      cases h
      refine ⟨hread, isEmpty_iff.mp hempty, ⟨rfl, rfl, rfl⟩,
        .inl ⟨rfl, fun status message heq => ?_⟩⟩
      cases heq
    · rename_i hsome
      cases h
      exact ⟨hread, rfl, rfl, fun hnil => hsome (by rw [hnil]; rfl)⟩

/-- Where no tag remains, `latest` goes. -/
theorem aloneAt_deleteLatest (hk : AloneAt localeCompare s₀ a built s (.deleteLatest k call))
    (h : tagAdminAct localeCompare s a (.deleteLatest k call) reply = some (s', pc')) :
    AloneAt localeCompare s₀ a built s' pc' := by
  obtain ⟨hread, hempty, hserves, hstate⟩ := hk
  have hid := hread.id
  rcases call_cases (.inr (.inl rfl)) h with ⟨status, message, rfl⟩ | ⟨hno, call', hact, rfl⟩
  · cases h
    unfold TagRemoval.latestDeleted
    split
    · trivial
    · split
      · trivial
      · rename_i hother
        refine .inl ⟨hempty, ?_⟩
        rcases hstate with ⟨rfl, hstill⟩ | ⟨hnone, -⟩
        · obtain ⟨hnot, h404⟩ := hstill status message rfl
          have hstatus : status = 404 := by
            by_contra hne
            exact hother ⟨hnot, hne⟩
          rw [← hid]
          exact h404 hstatus
        · exact hnone
  · rcases hstate with ⟨rfl, -⟩ | ⟨-, rfl⟩
    · have hlocated : (untagged s₀ a).getRepository k.orgSlug k.repository.name =
          some k.repository := hread.located
      obtain ⟨hserves', heffect⟩ := servesDelete_step hlocated hserves hact
      refine ⟨hread, hempty, hserves', ?_⟩
      rcases heffect with ⟨rfl, hstill⟩ | ⟨-, -, rfl, hanswer⟩
      · exact .inl ⟨rfl, hstill⟩
      · rw [hid]
        exact .inr ⟨resolveTag_deleteTag_self .., hanswer⟩
    · cases hno

theorem aloneAt_pickNewest {remaining : List TagRow} (hm : Moves localeCompare s₀ a)
    (hbuilt : ∀ dates, reply = .built dates → dates = built)
    (hk : AloneAt localeCompare s₀ a built s (.pickNewest k remaining))
    (h : tagAdminAct localeCompare s a (.pickNewest k remaining) reply = some (s', pc')) :
    AloneAt localeCompare s₀ a built s' pc' := by
  obtain ⟨hread, rfl, rfl, hsome⟩ := hk
  simp only [tagAdminAct] at h
  split at h
  · rename_i dates
    cases h
    rw [hbuilt dates rfl]
    unfold TagRemoval.follow
    obtain ⟨pick, hpick⟩ : ∃ pick, pickNewest (remainingTags s₀ a) built = some pick :=
      pickNewest_isSome hsome
    rw [hpick]
    simp only
    split
    · rename_i hthere
      -- another tag still names the image `latest` names
      refine .inr ⟨pick, hpick, ?_⟩
      unfold Tables.resolveTag
      rw [findTag_deleteTag_ne (Ne.symm hm.other), hread.latest]
      exact hthere
    · exact ⟨hread, rfl, hpick⟩
  · cases h
    trivial
  · cases h

theorem aloneAt_putLatest {pick : TagRow}
    (hk : AloneAt localeCompare s₀ a built s (.putLatest k pick call))
    (h : tagAdminAct localeCompare s a (.putLatest k pick call) reply = some (s', pc')) :
    AloneAt localeCompare s₀ a built s' pc' := by
  obtain ⟨hid, hlocated, hpick, hserves, hstate⟩ := hk
  rcases call_cases (.inr (.inr ⟨pick, rfl⟩)) h with ⟨status, message, rfl⟩ | ⟨-, call', hact, rfl⟩
  · simp only [tagAdminAct] at h
    split at h
    · cases h
      trivial
    · rename_i h201
      cases h
      rcases hstate with hnot | hnames
      · rw [not_not.mp h201] at hnot
        exact absurd rfl (hnot message)
      · exact .inr ⟨pick, hpick, hnames⟩
  · have hgoes : Goes ⟨s, []⟩ (LatestState.to ⟨s, []⟩ s') :=
      registryChange_goes (registryAct_change hact)
    obtain ⟨hserves', heffect⟩ := servesPut_step hlocated hserves hact
    refine ⟨hid, hgoes.located _ _ _ hlocated, hpick, hserves', ?_⟩
    rcases heffect with ⟨-, hnot⟩ | ⟨-, rfl⟩
    · exact .inl hnot
    · rw [hid]
      exact .inr (resolveTag_writeTag ..)

theorem aloneAt_step {pc pc' : TagAdminPc} (hv : s.Valid) (hm : Moves localeCompare s₀ a)
    (hbuilt : ∀ dates, reply = .built dates → dates = built)
    (hk : AloneAt localeCompare s₀ a built s pc)
    (h : tagAdminAct localeCompare s a pc reply = some (s', pc')) :
    AloneAt localeCompare s₀ a built s' pc' := by
  cases pc with
  | done result => cases h
  | repository =>
    have hs : s = s₀ := hk
    subst hs
    simp only [tagAdminAct] at h
    split at h
    · cases h
      trivial
    · split at h
      · cases h
        trivial
      · rename_i _ hr
        cases h
        exact ⟨rfl, hr⟩
  | organization r => exact aloneAt_organization hv hk h
  | load r orgSlug q => exact aloneAt_load hk h
  | registryDelete k call => exact aloneAt_registryDelete hm hk h
  | remaining k => exact aloneAt_remaining hk h
  | deleteLatest k call => exact aloneAt_deleteLatest hk h
  | pickNewest k remaining => exact aloneAt_pickNewest hm hbuilt hk h
  | fetchManifest k pick =>
    obtain ⟨hread, rfl, hpick⟩ := hk
    simp only [tagAdminAct] at h
    split at h
    · rename_i m hstored
      cases h
      obtain ⟨row, -, hdigest⟩ := Option.map_eq_some_iff.mp hstored
      exact ⟨hread.id, hread.located, hpick, ⟨rfl, rfl, m, by rw [← hdigest], rfl⟩,
        .inl fun message heq => by cases heq⟩
    · cases h
      trivial
  | putLatest k pick call => exact aloneAt_putLatest hk h

theorem aloneAt_run {replies : List Reply} {pc pc' : TagAdminPc} (hv : s.Valid)
    (hm : Moves localeCompare s₀ a) (hbuilt : ∀ dates, .built dates ∈ replies → dates = built)
    (hk : AloneAt localeCompare s₀ a built s pc)
    (h : alone (tagAdminAct localeCompare · a) s pc replies = some (s', pc')) :
    AloneAt localeCompare s₀ a built s' pc' := by
  induction replies generalizing s pc with
  | nil =>
    cases h
    exact hk
  | cons reply replies ih =>
    unfold alone at h
    cases hact : tagAdminAct localeCompare s a pc reply with
    | none =>
      rw [hact] at h
      cases h
    | some out =>
      obtain ⟨t, pc₁⟩ := out
      rw [hact] at h
      have hvalid : t.Valid := (tagAdmin_goes (s := ⟨s, []⟩) hv hact).2
      refine ih hvalid (fun dates hmem => hbuilt dates (mem_cons_of_mem _ hmem)) ?_ h
      exact aloneAt_step hv hm (fun dates heq => hbuilt dates (heq ▸ mem_cons_self ..)) hk
        hact

/-- A deletion alone leaves `latest` on the newest image, where the ranking puts one first. -/
theorem alone_follows (stored : Digest → String × Option JsonDoc) {replies : List Reply}
    {outcome : DeleteTagOutcome} (hv : s₀.Valid) (hm : Moves localeCompare s₀ a)
    (hbuilt : ∀ dates, .built dates ∈ replies → dates = built)
    (hranks : RanksImages (isImage stored (untagged s₀ a)) (remainingTags s₀ a) built)
    (h : alone (tagAdminAct localeCompare · a) s₀ .repository replies =
      some (s', .done (.ok outcome))) :
    EndsOnNewest s' a ((remainingTags s₀ a).filter (isImage stored (untagged s₀ a))) built := by
  have hstart : AloneAt localeCompare s₀ a built s₀ .repository := rfl
  have hend := aloneAt_run hv hm hbuilt hstart h
  obtain ⟨hempty, hnone⟩ | ⟨pick, hpick, hnames⟩ := hend
  · rw [hempty]
    exact ⟨⟨fun _ => hnone, fun _ => rfl⟩, fun hne => absurd rfl hne⟩
  · have hnewest := pickNewest_newest hranks hpick
    refine ⟨⟨fun hnil => ?_, fun hnone => ?_⟩, fun _ => ⟨pick, hnewest, hnames⟩⟩
    · exact absurd hnil (ne_nil_of_mem hnewest.1)
    · rw [hnames] at hnone
      cases hnone

end alone

/-- A repository with an image under two tags, and another image under a third. -/
def taggedApp (other : String) : Tables where
  organizations := [⟨"o1", "acme"⟩]
  repositories := [⟨"r1", "o1", "app", .«private»⟩]
  issued := ["r1"]
  manifests := [⟨"r1", "d1", none, 0⟩, ⟨"r1", "d2", none, 0⟩, ⟨"r1", "d3", none, 0⟩]
  tags := [⟨"r1", "v1", "d1", 0, 0, none⟩, ⟨"r1", "latest", "d1", 0, 0, none⟩,
    ⟨"r1", other, "d2", 0, 0, none⟩]

theorem taggedApp_init (localeCompare : String → String → Ordering) (other : String)
    (hother : other ≠ "v1" ∧ other ≠ "latest") :
    (latestMachine localeCompare).init ⟨⟨taggedApp other, []⟩, []⟩ := by
  refine ⟨⟨⟨?_, ?_, ?_, ?_, ?_, ?_⟩, rfl⟩, rfl⟩
  · exact nodup_singleton _
  · exact nodup_singleton _
  · exact nodup_singleton _
  · exact nodup_singleton _
  · show [("r1", "v1"), ("r1", "latest"), ("r1", other)].Nodup
    simp [hother.1.symm, hother.2.symm]
  · intro r hr
    obtain rfl : r = ⟨"r1", "o1", "app", .«private»⟩ := mem_singleton.mp hr
    exact mem_singleton_self _

def plainManifests (_ : Digest) : String × Option JsonDoc := ("", some (.obj []))

/-- The calls of the deletion of `v1`, up to the one that writes `latest`. -/
def followingCalls : List Reply :=
  [.ok, .ok, .query 0, .query 1, .query 2, .ok, .ok, .ok, .ok, .ok, .ok, .ok, .built [], .ok,
    .ok, .ok, .ok]

/-- The deletion of `v1` by its calls. -/
def removeV1 : List (Move LatestTask Reply Time) :=
  .spawn (.removal ⟨"r1", "v1", true⟩ .repository {}) :: followingCalls.map (.act 0)

def signatureTag : String := "sha256-" ++ String.ofList (List.replicate 64 'a') ++ ".sig"

/-- Before the deletion writes `latest`, a client points it at a newer image. -/
def pushBetween : List (Move LatestTask Reply Time) :=
  removeV1 ++ .spawn (.client (.resolve "acme" "app" (.put (some "latest") ⟨"d3", none, []⟩))) ::
    List.replicate 4 (.act 1 .ok)

def lateMove : LatestTask :=
  .removal ⟨"r1", "v1", true⟩
    (.putLatest
      ⟨⟨"r1", "o1", "app", .«private»⟩, "acme", ⟨"r1", "v1", "d1", 0, 0, none⟩,
        some ⟨"r1", "latest", "d1", 0, 0, none⟩, []⟩
      ⟨"r1", "v2", "d2", 0, 0, none⟩
      (.upsertTagGuarded ⟨"r1", "o1", "app", .«private»⟩ "latest" "d2"))
    ⟨0, 0, some ("d1", 0)⟩

end Chicoree.Images
