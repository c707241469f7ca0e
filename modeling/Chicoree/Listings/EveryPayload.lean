import Chicoree.Listings.Queries

/-! # One stored manifest and every listing

Pushes in any interleaving of their calls, on a registry that starts without manifests, next to
anything that stores no payload of its own. -/

namespace Chicoree.Listings

open Transition Registryd List Option
open Registryd (Digest Bytes PushTables PushTask Answer)

/-! ## Pushes -/

section pushes

variable (hash : Bytes → Digest) (text : Bytes → Option JsonText)

def jsonOf (payload : Bytes) : Option JsonDoc := (text payload).map JsonText.toDoc

def isNewPush : PushTask → Bool
  | .manifest _ .start => true
  | .commit _ .stat => true
  | _ => false

/-- What else happens to the tables, short of storing a payload: manifests and tags are
deleted, content is linked and collected, repositories come and go. -/
def otherChange (t t' : PushTables) : Option PushTables :=
  if t'.manifests.all fun m => t.manifests.any fun m' => decide (m'.payload = m.payload) then
    some t'
  else none

def pushProgram : Program PushTables PushTask Answer PushTables where
  init t := t.manifests = []
  fresh := isNewPush
  act t _ task a := pushCall hash (jsonOf text) t task a
  env := otherChange

end pushes

/-- **The condition on a step**: the payload that an accepted push stores has no escaped
NUL, no half of a surrogate pair and no number out of range, wherever it stands. -/
def storesClean (text : Bytes → Option JsonText) (pg : Postgres)
    (p : Pool PushTables PushTask) : Move PushTask Answer PushTables → Bool
  | .act i _ =>
    match p.tasks[i]? with
    | some (.manifest rq (.upsertManifest _ _)) =>
      (text rq.payload).any fun x => x.clean pg.inRange
    | _ => true
  | _ => true

abbrev StoresClean (text : Bytes → Option JsonText) (pg : Postgres)
    (p : Pool PushTables PushTask) (m : Move PushTask Answer PushTables) : Prop :=
  storesClean text pg p m = true

/-! ## What a call stores -/

section calls

variable {hash : Bytes → Digest} {json : Bytes → Option JsonDoc} {t t' : PushTables}

variable {d : Digest} {a : Answer}

theorem pushResolve_manifests {org name : String} {pc : ResolvePc} {out : Resolved}
    (h : pushResolve t org name d pc a = some (t', out)) :
    t'.manifests = t.manifests := by
  unfold pushResolve at h
  split at h
  · cases h
  · split at h <;> cases h <;> rfl

variable {task : PushTask}

theorem pushCommit_manifests {rq : CommitRequest} {pc : CommitPc}
    (h : pushCommit hash t rq pc a = some (t', task)) :
    t'.manifests = t.manifests := by
  unfold pushCommit at h
  split at h
  · split at h
    · cases h
    all_goals
      rename_i hresolve
      cases h
      exact pushResolve_manifests hresolve
  · split at h
    · cases h
    · obtain ⟨task', -, h⟩ := map_eq_some_iff.mp h
      cases h
      rfl

variable {m : Manifest}

/-- The rows after `UpsertManifest`: those that were there, with the payloads they had, and
the new one. -/
theorem upsertManifest_payloads {row : Manifest} {refs : List Digest}
    (h : t.upsertManifest row refs = some t') (hm : m ∈ t'.manifests) :
    m.payload = row.payload ∨ ∃ m' ∈ t.manifests, m'.payload = m.payload := by
  unfold PushTables.upsertManifest at h
  split at h <;> cases h
  unfold PushTables.upsertRow at hm
  split at hm
  · obtain ⟨m', hm', rfl⟩ := mem_map.mp hm
    refine .inr ⟨m', hm', ?_⟩
    split <;> rfl
  · rcases mem_append.mp hm with hm | hm
    · exact .inr ⟨m, hm, rfl⟩
    · rw [mem_singleton.mp hm]
      exact .inl rfl

theorem upsertTagGuarded_manifests {r : Repository} {tag : String}
    (h : t.upsertTagGuarded r tag d = .written t') : t'.manifests = t.manifests := by
  unfold PushTables.upsertTagGuarded at h
  split at h
  · cases h
  · split at h <;> cases h
    rfl

/-- A call of a push stores the payload of the push, when it is its `UpsertManifest`, and
no other. -/
theorem pushCall_payloads {task' : PushTask} (h : pushCall hash json t task a = some (t', task'))
    (hm : m ∈ t'.manifests) :
    (∃ m' ∈ t.manifests, m'.payload = m.payload) ∨
      ∃ rq p r, task = .manifest rq (.upsertManifest p r) ∧ m.payload = rq.payload := by
  have hsame : t'.manifests = t.manifests → (∃ m' ∈ t.manifests, m'.payload = m.payload) ∨
        ∃ rq p r, task = .manifest rq (.upsertManifest p r) ∧ m.payload = rq.payload := by
    intro heq
    exact .inl ⟨m, heq ▸ hm, rfl⟩
  cases task with
  | done status => simp [pushCall] at h
  | commit rq pc => exact hsame (pushCommit_manifests h)
  | manifest rq pc =>
    simp only [pushCall] at h
    cases pc with
    | start | checkTagImmutable p r =>
      cases a <;> simp only [pushManifest, reduceCtorEq] at h
      case failed =>
        cases h
        exact hsame rfl
      case ok => split at h <;> cases h <;> exact hsame rfl
    | resolve p pc =>
      simp only [pushManifest] at h
      split at h
      · cases h
      all_goals
        rename_i hresolve
        cases h
        exact hsame (pushResolve_manifests hresolve)
    | blobs p r todo | children p r todo =>
      cases todo <;> cases a <;> simp only [pushManifest, reduceCtorEq] at h
      case cons.ok => split at h <;> cases h <;> exact hsame rfl
      all_goals
        cases h
        exact hsame rfl
    | upsertManifest p r =>
      have hstored : ∀ t₁, t.upsertManifest (rq.row hash p r.id) p.references = some t₁ →
          t₁ = t' → (∃ m' ∈ t.manifests, m'.payload = m.payload) ∨
            ∃ rq' p' r', PushTask.manifest rq (.upsertManifest p r) =
              .manifest rq' (.upsertManifest p' r') ∧ m.payload = rq'.payload := by
        intro t₁ hup heq
        subst heq
        rcases upsertManifest_payloads hup hm with hnew | hold
        · exact .inr ⟨rq, p, r, rfl, hnew⟩
        · exact .inl hold
      cases a <;> simp only [pushManifest, reduceCtorEq] at h
      case failed =>
        cases h
        exact hsame rfl
      case ok =>
        split at h
        · rename_i t₁ hup
          exact hstored t₁ hup (Prod.mk.inj (Option.some.inj h)).1
        · cases h
          exact hsame rfl
      case lost =>
        obtain ⟨t₁, hup, h⟩ := map_eq_some_iff.mp h
        exact hstored t₁ hup (Prod.mk.inj h).1
    | upsertTagGuarded p r =>
      cases a <;> simp only [pushManifest, reduceCtorEq] at h
      case failed =>
        cases h
        exact hsame rfl
      case ok =>
        split at h <;> cases h
        · exact hsame rfl
        · exact hsame rfl
        · rename_i hwritten
          exact hsame (upsertTagGuarded_manifests hwritten)
      case lost =>
        split at h
        · rename_i hwritten
          cases h
          exact hsame (upsertTagGuarded_manifests hwritten)
        · cases h

end calls

section runs

variable {hash : Bytes → Digest} {text : Bytes → Option JsonText} {pg : Postgres}
  {t t' : PushTables}

theorem AllCast.of_payloads (hall : AllCast text pg t)
    (h : ∀ m ∈ t'.manifests, (∃ m' ∈ t.manifests, m'.payload = m.payload) ∨
      (text m.payload).any (fun x => x.clean pg.inRange) = true) : AllCast text pg t' := by
  intro m hm
  rcases h m hm with ⟨m', hm', hpayload⟩ | hclean
  · have hcast := hall m' hm'
    rw [castPayload_isSome, hpayload] at hcast
    rw [castPayload_isSome]
    exact hcast
  · rw [castPayload_isSome]
    exact hclean

theorem allCast_run {p : Pool PushTables PushTask}
    (hrun : (pushProgram hash text).machine.Run (StoresClean text pg) p) :
    AllCast text pg p.shared := by
  refine hrun.invariant (I := fun p => AllCast text pg p.shared) ?_ ?_
  · intro p hinit m hm
    have hnone : p.shared.manifests = [] := hinit.1
    rw [hnone] at hm
    cases hm
  · intro p m p' _ hall hclean hstep
    have hstep : (pushProgram hash text).step p m = some p' := hstep
    rcases Program.step_cases hstep with ⟨task, rfl, -, rfl⟩ |
      ⟨i, a, task, t', task', rfl, htask, hact, rfl⟩ | ⟨e, t', rfl, henv, rfl⟩
    · exact hall
    · refine hall.of_payloads ?_
      intro m hm
      rcases pushCall_payloads hact hm with hold | ⟨rq, parsed, r, rfl, hpayload⟩
      · exact .inl hold
      · have hrq : (text rq.payload).any (fun x => x.clean pg.inRange) = true := by
          simpa [StoresClean, storesClean, htask] using hclean
        rw [hpayload]
        exact .inr hrq
    · refine hall.of_payloads ?_
      intro m hm
      have henv : otherChange p.shared e = some t' := henv
      unfold otherChange at henv
      split at henv
      · rename_i hsame
        cases henv
        obtain ⟨m', hm', hpayload⟩ := any_eq_true.mp (all_eq_true.mp hsame m hm)
        exact .inl ⟨m', hm', of_decide_eq_true hpayload⟩
      · cases henv

/-- What the listings owe every reader. -/
structure Answers (text : Bytes → Option JsonText) (pg : Postgres) (t : PushTables) : Prop where
  casts : AllCast text pg t
  referrers : ∀ repo subject artifactType, ∃ rs,
    listReferrers text pg t repo subject artifactType = some rs ∧ rs.map (·.digest) =
      (t.manifests.filter (selectsReferrer repo subject artifactType)).map (·.digest)
  tags : ∀ repo hideArtifacts limit offset,
    (listRepoTags text pg t repo hideArtifacts limit offset).isSome = true
  repositories : ∀ shown, (repoListSelect text pg t shown).isSome = true
  untagged : ∀ repo, (listUntaggedManifests text pg t repo).isSome = true

theorem AllCast.answers (hall : AllCast text pg t) : Answers text pg t where
  casts := hall
  referrers repo subject artifactType := by
    have hsome : (listReferrers text pg t repo subject artifactType).isSome = true := by
      rw [listReferrers_isSome]
      intro m hm _
      exact hall m hm
    obtain ⟨rs, hrs⟩ := isSome_iff_exists.mp hsome
    exact ⟨rs, hrs, listReferrers_digests hrs⟩
  tags := listRepoTags_isSome hall
  repositories := repoListSelect_isSome hall
  untagged := listUntaggedManifests_isSome hall

/-- **The listings answer** in every state of a run whose accepted pushes store only what
the database can: every stored payload casts, `ListReferrers` answers the manifests of each
subject, and so do the listings of the web app. -/
theorem listings_answer {p : Pool PushTables PushTask}
    (hrun : (pushProgram hash text).machine.Run (StoresClean text pg) p) :
    Answers text pg p.shared :=
  (allCast_run hrun).answers

end runs

/-! ## A note on the empty object -/

def ascii (s : String) : Bytes := s.toList.map fun c => UInt8.ofNat c.toNat

def emptyObject : Digest :=
  "sha256:44136fa355b3678a1146ad16f7e8649e94fb4fc21fe77e8310c060f61caaff8a"

def notePayload (written : String) : Bytes :=
  ascii ("\x7b\"schemaVersion\":2,\"mediaType\":\"application/vnd.oci.image.index.v1+json\"," ++
    "\"manifests\":[],\"subject\":\x7b\"mediaType\":" ++
    "\"application/vnd.oci.image.manifest.v1+json\",\"digest\":\"" ++ emptyObject ++
    "\",\"size\":2\x7d,\"annotations\":\x7b\"note\":\"" ++ written ++ "\"\x7d\x7d")

def name (s : String) : CodePoints := .ofString s

def noteText (note : CodePoints) : JsonText :=
  .obj [(name "schemaVersion", .num { whole := [2] }),
    (name "mediaType", .str (name Manifest.mediaTypeOCIIndex)),
    (name "manifests", .arr []),
    (name "subject", .obj
      [(name "mediaType", .str (name Manifest.mediaTypeOCIManifest)),
        (name "digest", .str (name emptyObject)), (name "size", .num { whole := [2] })]),
    (name "annotations", .obj [(name "note", .str note)])]

def readsNote (written : String) (note : CodePoints) (payload : Bytes) : Option JsonText :=
  if payload = notePayload written then some (noteText note) else none

/-- Up to 131072 digits before the point of a number and 16383 behind it. -/
def numeric : Postgres where
  inRange n := decide (n.whole.length + n.exponent.getD 0 ≤ 131072 ∧
    n.fraction.length - n.exponent.getD 0 ≤ 16383)
  render _ := ""

def acmeTables : PushTables where
  storage := acme

def pushesNote (written : String) : List (Move PushTask Answer PushTables) :=
  .spawn (.manifest ⟨"acme", "app", "note", "", notePayload written, "bob"⟩ .start) ::
    List.replicate 9 (.act 0 .ok)

def draftNote : Bytes → Option JsonText := readsNote "draft" (name "draft")

def draftDigest : Digest :=
  "sha256:56c24b0ea19a39fe9aadc25490177265cdb876a2ecbceb18e61d452a04e05161"

theorem listings_answer_draft : ∃ p, (pushProgram (fun _ => draftDigest) draftNote).machine.Run
    (StoresClean draftNote numeric) p ∧
      p.tasks = [.done 201] ∧ (listReferrers draftNote numeric p.shared "r1" emptyObject
          "").map (fun rs => rs.map (·.annotations)) = some [some [("note", "draft")]] ∧
          Answers draftNote numeric p.shared := by
  have h : ((pushProgram (fun _ => draftDigest) draftNote).machine.replay
      (StoresClean draftNote numeric) ⟨acmeTables, []⟩
      (pushesNote "draft")).map (fun p => decide (p.tasks = [.done 201]) &&
        decide ((listReferrers draftNote numeric p.shared "r1"
          emptyObject "").map (fun rs => rs.map (·.annotations)) =
            some [some [("note", "draft")]])) = some true := by
    decide +kernel
  obtain ⟨p, hp, hfacts⟩ := map_eq_some_iff.mp h
  rw [Bool.and_eq_true, decide_eq_true_eq, decide_eq_true_eq] at hfacts
  have hrun := Machine.run_of_replay
    (M := (pushProgram (fun _ => draftDigest) draftNote).machine)
    (s := ⟨acmeTables, []⟩) ⟨rfl, rfl⟩ hp
  exact ⟨p, hrun, hfacts.1, hfacts.2, listings_answer hrun⟩

def nulNote : Bytes → Option JsonText := readsNote "\\u0000" [0]

def nulDigest : Digest :=
  "sha256:655151870396d5591eac76afa4190f062daae2117fa38c61943fd32906028908"

/-- An accepted push with an escaped NUL in an annotation: the referrers of its subject are
an error from then on. -/
theorem nul_breaks_referrers : ∃ p, (pushProgram (fun _ => nulDigest) nulNote).machine.Reachable p ∧
      p.tasks = [.done 201] ∧ (listReferrers nulNote numeric p.shared "r1" emptyObject
          "").isNone = true ∧ ¬ Answers nulNote numeric p.shared := by
  have h : ((pushProgram (fun _ => nulDigest) nulNote).machine.replay
      (fun _ _ => True) ⟨acmeTables, []⟩ (pushesNote "\\u0000")).map (fun p =>
        decide (p.tasks = [.done 201]) && (listReferrers nulNote numeric
          p.shared "r1" emptyObject "").isNone) = some true := by
    decide +kernel
  obtain ⟨p, hp, hfacts⟩ := map_eq_some_iff.mp h
  rw [Bool.and_eq_true, decide_eq_true_eq] at hfacts
  have hrun := Machine.run_of_replay
    (M := (pushProgram (fun _ => nulDigest) nulNote).machine) (s := ⟨acmeTables, []⟩)
    ⟨rfl, rfl⟩ hp
  refine ⟨p, hrun, hfacts.1, hfacts.2, ?_⟩
  intro hanswers
  obtain ⟨rs, hrs, -⟩ := hanswers.referrers "r1" emptyObject ""
  rw [hrs] at hfacts
  cases hfacts.2

end Chicoree.Listings
