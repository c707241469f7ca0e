import Chicoree.Registryd.CommittedBlob
import Chicoree.Registryd.PushEffects

/-! # What a failed push leaves

A push that answers an error has changed nothing unless it created its repository before,
stored its manifest before the tag failed, or reported an error for a call that took
effect. -/

namespace Chicoree.Registryd

open Transition Option

/-! ## How far a push has come -/

/-- The push has its repository, which was there before or has been created. -/
def Entered (t₀ t : PushTables) (org name : String) (r : Repository) : Prop :=
  (t₀.db.getRepository org name = some r ∧ Unwritten t₀ t) ∨
    (t₀.db.getRepository org name = none ∧ Grown t₀ t)

section pushes

variable {hash : Bytes → Digest} {json : Bytes → Option JsonDoc}

/-- What is known of the tables while a push runs alone from `t₀`. -/
def PushInv (hash : Bytes → Digest) (t₀ t : PushTables) : PushTask → Prop
  | .commit _ .stat | .manifest _ .start => Unwritten t₀ t
  | .commit rq (.resolve _ pc) => Unwritten t₀ t ∧ Known t.db rq.org rq.name pc
  | .manifest rq (.resolve _ pc) => Unwritten t₀ t ∧ Known t.db rq.org rq.name pc
  | .commit rq (.put r) | .commit rq (.upsertBlob r) => Entered t₀ t rq.org rq.name r
  | .manifest rq (.checkTagImmutable _ r) | .manifest rq (.blobs _ r _)
  | .manifest rq (.children _ r _) | .manifest rq (.upsertManifest _ r) =>
    Entered t₀ t rq.org rq.name r
  | .manifest rq (.upsertTagGuarded p r) =>
    (t₀.db.getRepository rq.org rq.name = some r ∧ ∃ t₁, Unwritten t₀ t₁ ∧
        t₁.upsertManifest (rq.row hash p r.id) p.references = some t) ∨
      (t₀.db.getRepository rq.org rq.name = none ∧ Grown t₀ t)
  | .done _ => True

variable {t t' t₀ : PushTables} {a : Answer}

variable {org name : String} {d : Digest} {pc : ResolvePc} {r : Repository}

theorem pushResolve_entered (hsame : Unwritten t₀ t) (hpc : Known t.db org name pc)
    (h : pushResolve t org name d pc a = some (t', .repo r)) : Entered t₀ t' org name r := by
  rcases pushResolve_cases hpc h with ⟨hread, -, hr⟩ | ⟨-, hnone, ⟨x, hx, hnew⟩, -⟩
  · refine .inl ⟨?_, hsame.trans hread⟩
    rw [← hsame.db, ← hread.db]
    exact hr
  · rw [hsame.db] at hnone hnew
    exact .inr ⟨hnone, x, hx, hnew⟩

theorem pushResolve_more {pc' : ResolvePc} (hsame : Unwritten t₀ t) (hpc : Known t.db org name pc)
    (h : pushResolve t org name d pc a = some (t', .more pc')) :
    Unwritten t₀ t' ∧ Known t'.db org name pc' := by
  rcases pushResolve_cases hpc h with ⟨hread, -, hknown⟩ | ⟨-, -, -, hmore⟩
  · exact ⟨hsame.trans hread, hknown⟩
  · exact absurd rfl (hmore pc')

variable {status : Nat}

theorem pushResolve_answered (hsame : Unwritten t₀ t) (hpc : Known t.db org name pc)
    (h : pushResolve t org name d pc a = some (t', .answered status)) :
    SameTables t₀ t' ↔ ∀ id acked, a ≠ .fresh id acked := by
  rcases pushResolve_cases hpc h with ⟨hread, ha, -⟩ | ⟨⟨id, acked, rfl⟩, -, hgrown, -⟩
  · exact ⟨fun _ => ha, fun _ => (hsame.trans hread).same⟩
  · obtain ⟨x, hx, hnew⟩ := hgrown
    rw [hsame.db] at hnew
    exact ⟨fun h => absurd h (Grown.not_same ⟨x, hx, hnew⟩), fun h => absurd rfl (h id acked)⟩

theorem Entered.trans
    (h : Entered t₀ t org name r) (hsame : Unwritten t t') : Entered t₀ t' org name r := by
  rcases h with ⟨hr, h⟩ | ⟨hnone, x, hx, hnew⟩
  · exact .inl ⟨hr, h.trans hsame⟩
  · exact .inr ⟨hnone, x, by rw [hsame.db]; exact hx, hnew⟩

theorem Entered.same_iff (h : Entered t₀ t org name r) (hsame : Unwritten t t') :
    SameTables t₀ t' ↔ (t₀.db.getRepository org name).isSome := by
  rcases h with ⟨hr, h⟩ | ⟨hnone, x, hx, hnew⟩
  · simp [hr, (h.trans hsame).same]
  · have hgrown : Grown t₀ t' := ⟨x, by rw [hsame.db]; exact hx, hnew⟩
    simp [hnone, hgrown.not_same]

/-! ## When a failed push changes nothing -/

/-- **The condition on the call that answers the error.** The repository was there, or the
push is refused before it is created; nothing took effect that reported an error, unless it
was there already; and where the tag fails, the manifest was recorded before as it is
pushed. -/
def Harmless (hash : Bytes → Digest) (t₀ : PushTables) : PushTask → Answer → Prop
  | .commit _ .stat, _ | .manifest _ .start, _ => True
  | .commit _ (.resolve _ _), a | .manifest _ (.resolve _ _), a =>
    ∀ id acked, a ≠ .fresh id acked
  | .commit rq (.put _), _ => (t₀.db.getRepository rq.org rq.name).isSome
  | .commit rq (.upsertBlob r), a =>
    (t₀.db.getRepository rq.org rq.name).isSome ∧
      (a = .lost → (∃ b ∈ t₀.db.blobs, b.digest = rq.expected) ∧
        ∃ l ∈ t₀.db.repositoryBlobs, l.repositoryId = r.id ∧ l.blobDigest = rq.expected)
  | .manifest rq (.checkTagImmutable _ _), _ | .manifest rq (.blobs _ _ _), _
  | .manifest rq (.children _ _ _), _ => (t₀.db.getRepository rq.org rq.name).isSome
  | .manifest rq (.upsertManifest p r), a =>
    (t₀.db.getRepository rq.org rq.name).isSome ∧
      (a = .lost → Recorded t₀ (rq.row hash p r.id) p.references)
  | .manifest rq (.upsertTagGuarded p r), a =>
    (t₀.db.getRepository rq.org rq.name).isSome ∧ Recorded t₀ (rq.row hash p r.id) p.references ∧
        (a = .lost → (∃ x ∈ t₀.tags, x.repositoryId = r.id ∧ x.name = rq.ref) ∧
          ∀ x ∈ t₀.tags, x.repositoryId = r.id → x.name = rq.ref →
            x = ⟨r.id, rq.ref, hash rq.payload, t₀.storage.now⟩)
  | .done _, _ => True

/-- What a call has to show: what is known goes on, and an error answered with it changed
nothing exactly under the condition. -/
def CallOk (hash : Bytes → Digest) (t₀ : PushTables) (task : PushTask) (a : Answer)
    (t' : PushTables) (task' : PushTask) : Prop :=
  PushInv hash t₀ t' task' ∧ ∀ status, task' = .done status → 400 ≤ status →
    (SameTables t₀ t' ↔ Harmless hash t₀ task a)

variable {task task' : PushTask}

theorem CallOk.more (h : PushInv hash t₀ t' task') (hmore : ∀ status, task' ≠ .done status) :
    CallOk hash t₀ task a t' task' :=
  ⟨h, fun status hdone => absurd hdone (hmore status)⟩

theorem CallOk.done (h : 400 ≤ status → (SameTables t₀ t' ↔ Harmless hash t₀ task a)) :
    CallOk hash t₀ task a t' (.done status) := by
  refine ⟨trivial, fun status' hdone hle => ?_⟩
  cases hdone
  exact h hle

theorem Unwritten.storage {storage : Storage} (h : storage.db = t.db)
    (hnow : storage.now = t.storage.now) : Unwritten t { t with storage := storage } :=
  ⟨h, rfl, rfl, rfl, rfl, hnow⟩

theorem sameTables_upsertBlob {repo : RepoId} {size : Nat}
    {now : Time} {db : Db} (hsame : Unwritten t₀ t)
    (h : t.db.upsertBlob repo d size now = some db) :
    SameTables t₀ (t.withDb db) ↔ (∃ b ∈ t₀.db.blobs, b.digest = d) ∧
        ∃ l ∈ t₀.db.repositoryBlobs, l.repositoryId = repo ∧ l.blobDigest = d := by
  unfold Db.upsertBlob at h
  split at h
  · cases h
    have hblobs := @sameRows_insertNew _ _ _ Blob.digest ⟨d, size, now⟩ t.db.blobs
    have hlinks := @sameRows_insertNew _ _ _
      (fun l : RepositoryBlob => (l.repositoryId, l.blobDigest)) ⟨repo, d, now⟩
      t.db.repositoryBlobs
    rw [hsame.db] at hblobs hlinks
    simp only [Prod.mk.injEq] at hlinks
    have hdb : (t.withDb ((t.db.insertBlob d size now).linkBlob repo d now)).db =
        (t₀.db.insertBlob d size now).linkBlob repo d now := by
      rw [← hsame.db]
      rfl
    constructor
    · intro h
      have hb := h.blobs
      have hl := h.repositoryBlobs
      rw [hdb] at hb hl
      exact ⟨hblobs.mp hb, hlinks.mp hl⟩
    · rintro ⟨hb, hl⟩
      refine ⟨?_, .of_eq hsame.repositoryRedirects, .of_eq hsame.organizationRedirects, ?_, ?_,
        .of_eq hsame.manifests, ?_, .of_eq hsame.tags⟩
      · rw [hdb]
        exact .of_eq rfl
      · rw [hdb]
        exact hblobs.mpr hb
      · rw [hdb]
        exact hlinks.mpr hl
      · rw [hdb]
        exact .of_eq rfl
  · contradiction

variable {rq : CommitRequest}

theorem pushCommit_call {pc : CommitPc} (hpc : ∀ found pc', pc ≠ .resolve found pc')
    (h : pushCommit hash t rq pc a = some (t', task')) :
    ∃ storage task, CommitCall hash t.storage rq pc a storage task ∧
      PushTask.ofBlobTask task = some task' ∧ { t with storage := storage } = t' := by
  unfold pushCommit at h
  split at h
  · exact absurd rfl (hpc _ _)
  · split at h
    · cases h
    · rename_i storage task hcall
      obtain ⟨task₁, htask, h⟩ := map_eq_some_iff.mp h
      cases h
      exact ⟨storage, task, commitUpload_call hcall, htask, rfl⟩

theorem pushCommit_ok {pc : CommitPc} (h : PushInv hash t₀ t (.commit rq pc))
    (hcall : pushCommit hash t rq pc a = some (t', task')) :
    CallOk hash t₀ (.commit rq pc) a t' task' := by
  cases pc with
  | resolve found pc =>
    obtain ⟨hsame, hpc⟩ := h
    simp only [pushCommit] at hcall
    cases hr : pushResolve t rq.org rq.name rq.expected pc a with
    | none => simp [hr] at hcall
    | some out =>
      obtain ⟨t₁, out⟩ := out
      rw [hr] at hcall
      cases out with
      | more pc' =>
        cases hcall
        exact .more (pushResolve_more hsame hpc hr) (by simp)
      | answered status =>
        cases hcall
        exact .done fun _ => pushResolve_answered hsame hpc hr
      | repo r =>
        have hentered := pushResolve_entered hsame hpc hr
        cases hcall
        cases found with
        | true | false => exact .more hentered (by simp)
  | stat =>
    have h : Unwritten t₀ t := h
    obtain ⟨storage, task, hcommit, htask, rfl⟩ := pushCommit_call (by simp) hcall
    cases hcommit <;> cases htask
    case answered.refl => exact .done fun _ => ⟨fun _ => trivial, fun _ => h.same⟩
    all_goals exact .more ⟨h, trivial⟩ (by simp)
  | put r =>
    have h : Entered t₀ t rq.org rq.name r := h
    obtain ⟨storage, task, hcommit, htask, rfl⟩ := pushCommit_call (by simp) hcall
    cases hcommit <;> cases htask
    case answered.refl => exact .done fun _ => h.same_iff (.refl t)
    case put.refl => exact .more (h.trans (.storage rfl rfl)) (by simp)
    case putLost.refl => exact .done fun _ => h.same_iff (.storage rfl rfl)
  | upsertBlob r =>
    have h : Entered t₀ t rq.org rq.name r := h
    obtain ⟨storage, task, hcommit, htask, rfl⟩ := pushCommit_call (by simp) hcall
    cases hcommit with
    | answered refused known =>
      cases htask
      exact .done fun _ => by simp [Harmless, known, h.same_iff (.refl t)]
    | upsert row =>
      cases htask
      exact .done fun hle => absurd hle (by decide)
    | @upsertLost _ db row =>
      cases htask
      refine .done fun _ => ?_
      rcases h with ⟨hr, h⟩ | ⟨hnone, x, hx, hnew⟩
      · simp only [Harmless, hr, isSome_some, true_and, forall_const]
        exact sameTables_upsertBlob h row
      · -- the repository the push created is there, whatever is recorded
        have hrepos : db.repositories = t.db.repositories := by
          unfold Db.upsertBlob at row
          split at row <;> cases row
          rfl
        have hgrown : Grown t₀ (t.withDb db) := ⟨x, hrepos ▸ hx, hnew⟩
        simp only [Harmless, hnone, isSome_none, Bool.false_eq_true, false_and, iff_false]
        exact hgrown.not_same

variable {row : Manifest} {refs : List Digest}

theorem Unwritten.upsertManifest
    (hsame : Unwritten t₀ t) (h : t.upsertManifest row refs = some t') :
    SameTables t₀ t' ↔ Recorded t₀ row refs := by
  have hrec : Recorded t row refs ↔ Recorded t₀ row refs := by
    constructor
    · intro hr
      obtain ⟨hp, hc, hrefs⟩ := hr
      unfold PushTables.manifestExists at hp
      rw [hsame.manifests] at hp hc
      rw [hsame.db] at hrefs
      exact ⟨hp, hc, hrefs⟩
    · intro hr
      obtain ⟨hp, hc, hrefs⟩ := hr
      unfold PushTables.manifestExists at hp
      rw [← hsame.manifests] at hp hc
      rw [← hsame.db] at hrefs
      exact ⟨hp, hc, hrefs⟩
  rw [← hrec, ← sameTables_upsertManifest h]
  exact ⟨fun hs => hsame.same.symm.trans hs, fun hs => hsame.same.trans hs⟩

theorem upsertTagGuarded_written {tag : String} (h : t.upsertTagGuarded r tag d = .written t') :
    t' = t.writeTag r.id tag d := by
  unfold PushTables.upsertTagGuarded at h
  split at h
  · cases h
  · split at h
    · cases h
      rfl
    · cases h

theorem sameTables_tags {tags : List Tag} (htags : t.tags = t₀.tags) :
    SameTables t₀ { t with tags := tags } ↔ SameTables t₀ t ∧ SameRows t₀.tags tags := by
  constructor
  · intro h
    exact ⟨⟨h.repositories, h.repositoryRedirects, h.organizationRedirects, h.blobs,
      h.repositoryBlobs, h.manifests, h.manifestRefs, .of_eq htags⟩, h.tags⟩
  · rintro ⟨h, htags'⟩
    exact ⟨h.repositories, h.repositoryRedirects, h.organizationRedirects, h.blobs,
      h.repositoryBlobs, h.manifests, h.manifestRefs, htags'⟩

theorem upsertManifest_keeps (h : t.upsertManifest row refs = some t') :
    t'.db.repositories = t.db.repositories ∧ t'.tags = t.tags ∧ t'.storage.now = t.storage.now := by
  unfold PushTables.upsertManifest at h
  split at h <;> cases h
  exact ⟨rfl, rfl, rfl⟩

theorem upsertTag_ok {rq : ManifestPush} {p : Manifest.Parsed}
    (h : PushInv hash t₀ t (.manifest rq (.upsertTagGuarded p r)))
    (hcall : pushManifest hash json t rq (.upsertTagGuarded p r) a = some (t', task')) :
    CallOk hash t₀ (.manifest rq (.upsertTagGuarded p r)) a t' task' := by
  have hkeep {b : Answer} (hb : b ≠ .lost) :
      SameTables t₀ t ↔ Harmless hash t₀ (.manifest rq (.upsertTagGuarded p r)) b := by
    rcases h with ⟨hr, t₁, hsame, hup⟩ | ⟨hnone, hgrown⟩
    · simp [Harmless, hb, hr, hsame.upsertManifest hup]
    · simp [Harmless, hnone, hgrown.not_same]
  cases a <;> simp only [pushManifest, reduceCtorEq] at hcall
  case failed =>
    cases hcall
    exact .done fun _ => hkeep (by simp)
  case ok =>
    split at hcall <;> cases hcall
    · exact .done fun _ => hkeep (by simp)
    · exact .done fun _ => hkeep (by simp)
    · exact .done fun hle => absurd hle (by decide)
  case lost =>
    split at hcall
    · rename_i t₂ hwritten
      cases hcall
      have ht' := upsertTagGuarded_written hwritten
      refine .done fun _ => ?_
      rcases h with ⟨hr, t₁, hsame, hup⟩ | ⟨hnone, x, hx, hnew⟩
      · obtain ⟨-, htags, hnow⟩ := upsertManifest_keeps hup
        have htags₀ : t.tags = t₀.tags := htags.trans hsame.tags
        have hnow₀ : t.storage.now = t₀.storage.now := hnow.trans hsame.now
        rw [ht', PushTables.writeTag, sameTables_tags htags₀, hsame.upsertManifest hup, htags₀, hnow₀,
          sameRows_upsert]
        simp only [Harmless, hr, isSome_some, true_and, forall_const, Prod.mk.injEq]
        refine and_congr Iff.rfl (and_congr Iff.rfl ?_)
        exact ⟨fun h x hx h₁ h₂ => h x hx ⟨h₁, h₂⟩, fun h x hx hk => h x hx hk.1 hk.2⟩
      · have hgrown : Grown t₀ t' := ⟨x, by rw [ht']; exact hx, hnew⟩
        simp only [Harmless, hnone, isSome_none, Bool.false_eq_true, false_and, iff_false]
        exact hgrown.not_same
    · contradiction

theorem pushManifest_ok {rq : ManifestPush} {pc : PushPc} (h : PushInv hash t₀ t (.manifest rq pc))
    (hcall : pushManifest hash json t rq pc a = some (t', task')) :
    CallOk hash t₀ (.manifest rq pc) a t' task' := by
  cases pc with
  | start =>
    have h : Unwritten t₀ t := h
    have hkeep : SameTables t₀ t ↔ Harmless hash t₀ (.manifest rq .start) a :=
      ⟨fun _ => trivial, fun _ => h.same⟩
    cases a <;> simp only [pushManifest, reduceCtorEq] at hcall
    case failed =>
      cases hcall
      exact .done fun _ => hkeep
    case ok =>
      split at hcall <;> cases hcall
      · exact .done fun _ => hkeep
      · exact .more ⟨h, trivial⟩ (by simp)
  | resolve p pc =>
    obtain ⟨hsame, hpc⟩ := h
    simp only [pushManifest] at hcall
    cases hr : pushResolve t rq.org rq.name (hash rq.payload) pc a with
    | none => simp [hr] at hcall
    | some out =>
      obtain ⟨t₁, out⟩ := out
      rw [hr] at hcall
      cases out with
      | more pc' =>
        cases hcall
        exact .more (pushResolve_more hsame hpc hr) (by simp)
      | answered status =>
        cases hcall
        exact .done fun _ => pushResolve_answered hsame hpc hr
      | repo r =>
        have hentered := pushResolve_entered hsame hpc hr
        cases hcall
        split <;> exact .more hentered (by simp)
  | checkTagImmutable p r =>
    have h : Entered t₀ t rq.org rq.name r := h
    cases a <;> simp only [pushManifest, reduceCtorEq] at hcall
    case failed =>
      cases hcall
      exact .done fun _ => h.same_iff (.refl t)
    case ok =>
      split at hcall <;> cases hcall
      · exact .done fun _ => h.same_iff (.refl t)
      · exact .more h (by simp)
  | blobs p r todo | children p r todo =>
    have h : Entered t₀ t rq.org rq.name r := h
    cases todo with
    | nil =>
      cases a <;> simp only [pushManifest, reduceCtorEq] at hcall
      cases hcall
      exact .more h (by simp)
    | cons d ds =>
      cases a <;> simp only [pushManifest, reduceCtorEq] at hcall
      case failed =>
        cases hcall
        exact .done fun _ => h.same_iff (.refl t)
      case ok =>
        split at hcall <;> cases hcall
        · exact .more h (by simp)
        · exact .done fun _ => h.same_iff (.refl t)
  | upsertManifest p r =>
    have h : Entered t₀ t rq.org rq.name r := h
    have hkeep {b : Answer} (hb : b ≠ .lost) :
        SameTables t₀ t ↔ Harmless hash t₀ (.manifest rq (.upsertManifest p r)) b := by
      simp [Harmless, hb, h.same_iff (.refl t)]
    cases a <;> simp only [pushManifest, reduceCtorEq] at hcall
    case failed =>
      cases hcall
      exact .done fun _ => hkeep (by simp)
    case ok =>
      split at hcall
      · rename_i t₁ hup
        cases hcall
        split
        · refine .more ?_ (by simp)
          rcases h with ⟨hr, h⟩ | ⟨hnone, x, hx, hnew⟩
          · exact .inl ⟨hr, t, h, hup⟩
          · exact .inr ⟨hnone, x, (upsertManifest_keeps hup).1 ▸ hx, hnew⟩
        · exact .done fun hle => absurd hle (by decide)
      · cases hcall
        exact .done fun _ => hkeep (by simp)
    case lost =>
      obtain ⟨t₁, hup, hcall⟩ := map_eq_some_iff.mp hcall
      cases hcall
      refine .done fun _ => ?_
      rcases h with ⟨hr, h⟩ | ⟨hnone, x, hx, hnew⟩
      · simp only [Harmless, hr, isSome_some, true_and, forall_const]
        exact h.upsertManifest hup
      · have hgrown : Grown t₀ t' := ⟨x, (upsertManifest_keeps hup).1 ▸ hx, hnew⟩
        simp only [Harmless, hnone, isSome_none, Bool.false_eq_true, false_and, iff_false]
        exact hgrown.not_same
  | upsertTagGuarded p r => exact upsertTag_ok h hcall

/-! ## The run -/

theorem pushCall_ok
    (h : PushInv hash t₀ t task) (hcall : pushCall hash json t task a = some (t', task')) :
    CallOk hash t₀ task a t' task' := by
  cases task with
  | commit rq pc => exact pushCommit_ok h hcall
  | manifest rq pc => exact pushManifest_ok h hcall
  | done status => simp [pushCall] at hcall

def PushTask.fresh : PushTask → Bool
  | .commit _ .stat | .manifest _ .start => true
  | _ => false

theorem PushInv.alone {start : PushTask} {answers : List Answer} (hstart : start.fresh = true)
    (hrun : pushAlone hash json t₀ start answers = some (t, task)) :
    PushInv hash t₀ t task := by
  refine alone_invariant (I := fun t task => PushInv hash t₀ t task) ?_ ?_ hrun
  · intro t task a t' task' hinv hcall
    exact (pushCall_ok hinv hcall).1
  · cases start with
    | commit rq pc | manifest rq pc =>
      cases pc <;> simp only [PushTask.fresh, Bool.false_eq_true] at hstart
      exact .refl t₀
    | done status => simp [PushTask.fresh] at hstart

/-- **A failed push changes nothing, exactly where it is harmless.** -/
theorem failed_push_changes_nothing {t₀ t t' : PushTables} {start task : PushTask}
    {answers : List Answer} {a : Answer} {status : Nat} (hstart : start.fresh = true)
    (hrun : pushAlone hash json t₀ start answers = some (t, task))
    (hlast : pushCall hash json t task a = some (t', .done status)) (herr : 400 ≤ status) :
    SameTables t₀ t' ↔ Harmless hash t₀ task a := by
  exact (pushCall_ok (PushInv.alone hstart hrun) hlast).2 status rfl herr

end pushes

/-- The repository app had another name before, which the cached redirects do not show
yet. -/
def renamedAcme : PushTables where
  storage := acme
  repositoryRedirects := [⟨"acme", "tool", "r1"⟩]

def wrongDigest (name : String) : CommitRequest :=
  ⟨"acme", name, sha256OfEmpty [1], ⟨[], 0⟩⟩

theorem failed_push_changes_nothing_acme :
    ∃ t t' task, pushAlone sha256OfEmpty (fun _ => none) renamedAcme
        (.commit (wrongDigest "app") .stat) (List.replicate 4 .ok) = some (t, task) ∧
      pushCall sha256OfEmpty (fun _ => none) t task .ok = some (t', .done 400) ∧
        SameTables renamedAcme t' := by
  obtain ⟨t, r, hrun⟩ : ∃ t r, pushAlone sha256OfEmpty (fun _ => none) renamedAcme
      (.commit (wrongDigest "app") .stat) (List.replicate 4 .ok) =
        some (t, .commit (wrongDigest "app") (.put r)) := ⟨_, _, rfl⟩
  obtain ⟨t', hlast⟩ : ∃ t', pushCall sha256OfEmpty (fun _ => none) t
      (.commit (wrongDigest "app") (.put r)) .ok = some (t', .done 400) := by
    cases hrun
    exact ⟨_, rfl⟩
  exact ⟨t, t', _, hrun, hlast, (failed_push_changes_nothing rfl hrun hlast (by decide)).mpr rfl⟩

/-- The calls of a first push, up to the one that creates the repository. -/
def creation : List Answer :=
  [.ok, .ok, .ok, .visibility .«private», .ok, .ok, .ok, .ok, .ok, .fresh "r2" true]

/-- A commit with a wrong digest answers 400, and has created the repository and dropped
the redirect of its name. -/
theorem refused_commit_creates_repository : ∃ t, pushAlone sha256OfEmpty (fun _ => none) renamedAcme
    (.commit (wrongDigest "tool") .stat) (.ok :: creation ++ [.ok]) = some (t, .done 400) ∧
      renamedAcme.db.getRepository "acme" "tool" = none ∧
        t.db.getRepository "acme" "tool" = some ⟨"r2", "o1", "tool", .«private»⟩ ∧
          t.repositoryRedirects = [] ∧ ¬ SameTables renamedAcme t := by
  obtain ⟨t, hrun, hrepo, hredirects⟩ : ∃ t, pushAlone sha256OfEmpty (fun _ => none)
      renamedAcme (.commit (wrongDigest "tool") .stat) (.ok :: creation ++ [.ok]) =
        some (t, .done 400) ∧
      t.db.getRepository "acme" "tool" = some ⟨"r2", "o1", "tool", .«private»⟩ ∧
        t.repositoryRedirects = [] := ⟨_, rfl, rfl, rfl⟩
  refine ⟨t, hrun, rfl, hrepo, hredirects, fun hsame => ?_⟩
  have hrow := (hsame.repositoryRedirects ⟨"acme", "tool", "r1"⟩).mpr
    (List.mem_singleton_self _)
  rw [hredirects] at hrow
  exact absurd hrow List.not_mem_nil

end Chicoree.Registryd
