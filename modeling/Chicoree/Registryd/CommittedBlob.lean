import Chicoree.Registryd.BlobContent

/-! # A committed blob is the blob

A commit that runs alone, from its first call to its answer: what a 201 leaves in driver
and tables, and what every other answer leaves. -/

namespace Chicoree.Registryd

open Transition List

section alone

variable {hash : Bytes → Digest}

abbrev callsAlone (hash : Bytes → Digest) :
    Storage → BlobTask → List Answer → Option (Storage × BlobTask) :=
  Transition.alone fun s t a => blobAct hash s 0 t a

structure StoredSound (hash : Bytes → Digest) (s : Storage) (d : Digest) : Prop where
  content : ∀ c, (d, c) ∈ s.driver → hash c = d
  size : ∀ b ∈ s.db.blobs, b.digest = d → ∃ c, hash c = d ∧ b.size = c.length

structure SameBlobs (s s' : Storage) : Prop where
  blobs : s'.db.blobs = s.db.blobs
  links : s'.db.repositoryBlobs = s.db.repositoryBlobs

/-- The content of the session is stored, recorded with its length and linked to the
repository of the request. -/
structure Committed (hash : Bytes → Digest) (rq : CommitRequest) (s : Storage) : Prop where
  stored : s.driver.stat rq.expected = true
  content : ∀ c, (rq.expected, c) ∈ s.driver → hash c = rq.expected ∧ c = rq.session.content
  recorded : ∃ b ∈ s.db.blobs, b.digest = rq.expected
  size : ∀ b ∈ s.db.blobs, b.digest = rq.expected → b.size = rq.session.content.length
  linked : ∃ r, s.db.getRepository rq.org rq.name = some r ∧
    ∃ l ∈ s.db.repositoryBlobs, l.repositoryId = r.id ∧ l.blobDigest = rq.expected

theorem SameBlobs.refl (s : Storage) : SameBlobs s s := ⟨rfl, rfl⟩

variable {s₀ s : Storage} {db : Db} {org name : String} {d : Digest} {a : Answer} {out : Resolved}

theorem SameBlobs.resolved (h : SameBlobs s₀ s) {pc : ResolvePc}
    (hstep : resolveStep s.db org name d pc a = some (db, out)) :
    SameBlobs s₀ { s with db := db } := by
  obtain ⟨repositories, rfl⟩ := resolveStep_rest hstep
  exact ⟨h.blobs, h.links⟩

/-! ## Resolving alone -/

/-- What is known of the tables while a repository is resolved. -/
def Resolving (db : Db) (org name : String) : ResolvePc → Prop
  | .orgHasBlob r | .storageQuota r => db.getRepository org name = some r
  | .ensureInsert o _ => db.orgIdBySlug org = some o
  | _ => True

theorem Db.getRepository_ensureRepository {o : OrgId}
    (ho : db.orgIdBySlug org = some o) (v : Visibility) (id : RepoId) :
    (db.ensureRepository o name v id).1.getRepository org name =
      some (db.ensureRepository o name v id).2 := by
  unfold Db.ensureRepository
  split
  · rename_i r hr
    simp only [Db.getRepository, ho, hr]
  · rename_i hnone
    have ho' : ({ db with repositories := db.repositories ++ [⟨id, o, name, v⟩] } :
        Db).orgIdBySlug org = some o := ho
    simp only [Db.getRepository, ho']
    unfold Table.find at hnone ⊢
    rw [find?_append, hnone]
    simp

/-- What an answer of the resolution says. -/
def Resolved.Ok (db : Db) (org name : String) : Resolved → Prop
  | .more pc => Resolving db org name pc
  | .repo r => db.getRepository org name = some r
  | .answered status => status ≠ 201

theorem ReadCall.resolving {pc : ResolvePc} (hpc : Resolving db org name pc)
    (h : ReadCall db org name d pc a out) : out.Ok db org name := by
  cases h with
  | answered refused => exact refused
  | known row | there row => exact row
  | held | lacking | room => exact hpc
  | ensureOrg slug => exact slug
  | _ => trivial

theorem resolveStep_resolving {db' : Db} {pc : ResolvePc} (hpc : Resolving db org name pc)
    (h : resolveStep db org name d pc a = some (db', out)) : out.Ok db' org name := by
  cases resolveStep_call h with
  | read reads => exact reads.resolving hpc
  | @insert o v id acked fresh =>
    cases acked with
    | true => exact Db.getRepository_ensureRepository hpc v id
    | false => exact (by decide : (500 : Nat) ≠ 201)

structure ContentOk (hash : Bytes → Digest) (rq : CommitRequest) : Prop where
  digest : hash rq.session.content = rq.expected
  length : rq.session.content.length = rq.session.offset

/-- The driver while the blob is recorded: the object was there, or has just been
published. -/
def Published (s₀ s : Storage) (rq : CommitRequest) : Prop :=
  (s₀.driver.stat rq.expected = true ∧ s.driver = s₀.driver) ∨ (s₀.driver.stat rq.expected = false ∧
      s.driver = s₀.driver.put rq.expected rq.session.content)

/-- How far a commit that runs alone from `s₀` has come. -/
def Progress (hash : Bytes → Digest) (s₀ s : Storage) (rq : CommitRequest) : CommitPc → Prop
  | .stat => s = s₀
  | .resolve found pc => SameBlobs s₀ s ∧ s.driver = s₀.driver ∧
      s₀.driver.stat rq.expected = found ∧ (found = true → ContentOk hash rq) ∧
        Resolving s.db rq.org rq.name pc
  | .put r => SameBlobs s₀ s ∧ s.driver = s₀.driver ∧ s₀.driver.stat rq.expected = false ∧
      s.db.getRepository rq.org rq.name = some r
  | .upsertBlob r => SameBlobs s₀ s ∧ Published s₀ s rq ∧ ContentOk hash rq ∧
      s.db.getRepository rq.org rq.name = some r

variable {pc : CommitPc} {rq : CommitRequest}

theorem Progress.same (h : Progress hash s₀ s rq pc) : SameBlobs s₀ s := by
  cases pc with
  | stat => exact h ▸ .refl s₀
  | resolve found pc | put r | upsertBlob r => exact h.1

variable {s' : Storage} {rq' : CommitRequest} {pc' : CommitPc}

theorem Progress.step (h : Progress hash s₀ s rq pc)
    (hcall : commitUpload hash s rq pc a = some (s', .commit rq' pc')) :
    rq' = rq ∧ Progress hash s₀ s' rq pc' := by
  cases commitUpload_call hcall with
  | found stat digest length =>
    have hs : s = s₀ := h
    subst hs
    exact ⟨rfl, .refl s, rfl, stat, fun _ => ⟨digest, length⟩, trivial⟩
  | missing stat =>
    have hs : s = s₀ := h
    subst hs
    exact ⟨rfl, .refl s, rfl, stat, by simp, trivial⟩
  | more resolve =>
    obtain ⟨hsame, hdriver, hstat, hok, hpc⟩ := h
    have hout : Resolving _ _ _ _ := resolveStep_resolving hpc resolve
    exact ⟨rfl, hsame.resolved resolve, hdriver, hstat, hok, hout⟩
  | @resolved found _ _ _ _ resolve =>
    obtain ⟨hsame, hdriver, hstat, hok, hpc⟩ := h
    have hout : Db.getRepository _ _ _ = some _ := resolveStep_resolving hpc resolve
    cases found with
    | true => exact ⟨rfl, hsame.resolved resolve, .inl ⟨hstat, hdriver⟩, hok rfl, hout⟩
    | false => exact ⟨rfl, hsame.resolved resolve, hdriver, hstat, hout⟩
  | put digest length =>
    obtain ⟨hsame, hdriver, hstat, hr⟩ := h
    exact ⟨rfl, ⟨hsame.blobs, hsame.links⟩, .inr ⟨hstat, by rw [hdriver]⟩, ⟨digest, length⟩, hr⟩

theorem blobAct_commit {t : BlobTask} {i : Nat}
    (h : blobAct hash s i t a = some (s', .commit rq pc)) :
    ∃ rq₀ pc₀, t = .commit rq₀ pc₀ := by
  cases t with
  | commit rq₀ pc₀ => exact ⟨rq₀, pc₀, rfl⟩
  | blobDelete org name d pc₀ => cases handleBlobDelete_call h
  | gc grace pc₀ =>
    simp only [blobAct] at h
    cases pc₀ with
    | erase ds => cases ds <;> cases a <;> simp [handleGC] at h
    | unlinkGarbage | deleteOrphans cutoff => cases a <;> simp [handleGC] at h
  | done status => simp [blobAct] at h

theorem Progress.alone {answers : List Answer} (h : Progress hash s₀ s rq pc)
    (hrun : callsAlone hash s (.commit rq pc) answers = some (s', .commit rq' pc')) :
    rq' = rq ∧ Progress hash s₀ s' rq pc' := by
  have hall : ∀ rq₁ pc₁, BlobTask.commit rq' pc' = .commit rq₁ pc₁ →
      rq₁ = rq ∧ Progress hash s₀ s' rq pc₁ := by
    refine alone_invariant (I := fun s t => ∀ rq₁ pc₁, t = .commit rq₁ pc₁ →
      rq₁ = rq ∧ Progress hash s₀ s rq pc₁) ?_ ?_ hrun
    · intro s t a s₁ t₁ hinv hcall rq₁ pc₁ ht₁
      subst ht₁
      obtain ⟨rq₀, pc₀, rfl⟩ := blobAct_commit hcall
      obtain ⟨rfl, hprogress⟩ := hinv rq₀ pc₀ rfl
      exact hprogress.step hcall
    · intro rq₁ pc₁ ht
      cases ht
      exact ⟨rfl, h⟩
  exact hall rq' pc' rfl

/-! ## The last call -/

theorem Driver.mem_put {dr : Driver} {c c' : Bytes} (h : (d, c') ∈ dr.put d c) : c' = c := by
  unfold Driver.put Table.upsert at h
  split at h
  · obtain ⟨o, -, ho⟩ := mem_map.mp h
    split at ho
    · cases ho
      rfl
    · rename_i hne
      exact absurd (by rw [ho] : o.1 = d) hne
  · rename_i hnone
    rcases mem_append.mp h with h | h
    · exact absurd (any_eq_true.mpr ⟨_, h, by simp⟩) hnone
    · simpa using h

theorem Progress.committed {r : Repository}
    (h : Progress hash s₀ s rq (.upsertBlob r)) (hinj : Function.Injective hash)
    (hs₀ : StoredSound hash s₀ rq.expected)
    (hdb : s.db.upsertBlob r.id rq.expected rq.session.offset s.now = some db) :
    Committed hash rq { s with db := db } := by
  obtain ⟨hsame, hpub, hok, hr⟩ := h
  have hcontent : ∀ c, (rq.expected, c) ∈ s.driver → c = rq.session.content := by
    intro c hc
    rcases hpub with ⟨-, hdriver⟩ | ⟨-, hdriver⟩
    · have hhash := hs₀.content c (hdriver ▸ hc)
      exact hinj (hhash.trans hok.digest.symm)
    · exact Driver.mem_put (hdriver ▸ hc)
  have hstored : s.driver.stat rq.expected = true := by
    rcases hpub with ⟨hstat, hdriver⟩ | ⟨-, hdriver⟩
    · rw [hdriver]
      exact hstat
    · rw [hdriver]
      exact Driver.stat_put_self _ _ _
  unfold Db.upsertBlob at hdb
  split at hdb
  · cases hdb
    refine ⟨hstored, fun c hc => ?_, ?_, fun b hb hbd => ?_, r, hr, ?_⟩
    · have hceq := hcontent c hc
      exact ⟨hceq ▸ hok.digest, hceq⟩
    · exact @Table.exists_key_insertNew _ _ _ Blob.digest
        ⟨rq.expected, rq.session.offset, s.now⟩ _
    · have hb : b ∈ Table.insertNew Blob.digest ⟨rq.expected, rq.session.offset, s.now⟩
          s.db.blobs := hb
      rcases Table.mem_of_mem_insertNew hb with hb | hb
      · obtain ⟨c, hc, hsize⟩ := hs₀.size b (hsame.blobs ▸ hb) hbd
        have hceq : c = rq.session.content := hinj (hc.trans hok.digest.symm)
        exact hceq ▸ hsize
      · rw [hb]
        exact hok.length.symm
    · obtain ⟨l, hl, hkey⟩ := @Table.exists_key_insertNew _ _ _
        (fun l : RepositoryBlob => (l.repositoryId, l.blobDigest))
        ⟨r.id, rq.expected, s.now⟩ s.db.repositoryBlobs
      simp only [Prod.mk.injEq] at hkey
      exact ⟨l, hl, hkey.1, hkey.2⟩
  · contradiction

/-- What a refused or failed call leaves: everything as before, except that content
already published when the tables fail stays as verified content. -/
structure Refused (hash : Bytes → Digest) (rq : CommitRequest) (pc : CommitPc)
    (s₀ s : Storage) : Prop where
  rows : SameBlobs s₀ s
  objects : s.driver = s₀.driver ∨ (∃ r, pc = .upsertBlob r) ∧ s₀.driver.stat rq.expected = false ∧
      hash rq.session.content = rq.expected ∧
        s.driver = s₀.driver.put rq.expected rq.session.content

theorem Progress.answered {status : Nat} (h : Progress hash s₀ s rq pc)
    (hcall : commitUpload hash s rq pc a = some (s', .done status)) :
    (status = 201 ∧ ∃ r db, pc = .upsertBlob r ∧
        s.db.upsertBlob r.id rq.expected rq.session.offset s.now = some db ∧
          s' = { s with db := db }) ∨
      (status ≠ 201 ∧ (a = .lost → hash rq.session.content = rq.expected) ∧
        (a ≠ .lost → Refused hash rq pc s₀ s')) := by
  have hsame := h.same
  cases commitUpload_call hcall with
  | answered refused known =>
    refine .inr ⟨refused, fun ha => absurd ha known, fun _ => ⟨hsame, ?_⟩⟩
    cases pc with
    | stat => exact .inl (congrArg Storage.driver (h : s = s₀))
    | resolve found pc | put r => exact .inl h.2.1
    | upsertBlob r =>
      obtain ⟨-, hpub, hok, -⟩ := h
      rcases hpub with ⟨-, hdriver⟩ | ⟨hstat, hdriver⟩
      · exact .inl hdriver
      · exact .inr ⟨⟨r, rfl⟩, hstat, hok.digest, hdriver⟩
  | @resolveAnswered _ pc _ _ _ resolve =>
    obtain ⟨-, hdriver, -, -, hpc⟩ := h
    have hout : status ≠ 201 := resolveStep_resolving hpc resolve
    refine .inr ⟨hout, ?_, fun _ => ⟨hsame.resolved resolve, .inl hdriver⟩⟩
    -- no call of the resolution is lost: its only write answers with `fresh`
    rintro rfl
    cases resolveStep_call resolve with
    | read reads =>
      cases reads with
      | answered _ plain => simp at plain
  | putLost digest => exact .inr ⟨by decide, fun _ => digest, by simp⟩
  | @upsert r db row => exact .inl ⟨rfl, r, db, rfl, row, rfl⟩
  | upsertLost row => exact .inr ⟨by decide, fun _ => h.2.2.1.digest, by simp⟩

/-- **A committed blob is the blob.** A commit that runs alone, from a state in which what
is stored and recorded under the digest is that digest's content. -/
theorem committed_blob_is_the_blob (hinj : Function.Injective hash) {s₀ s s' : Storage}
    {rq rq' : CommitRequest} {pc : CommitPc} {answers : List Answer} {a : Answer}
    {status : Nat} (hs₀ : StoredSound hash s₀ rq.expected)
    (hrun : callsAlone hash s₀ (.commit rq .stat) answers = some (s, .commit rq' pc))
    (hlast : blobAct hash s 0 (.commit rq' pc) a = some (s', .done status)) :
    (status = 201 → Committed hash rq s') ∧ (status ≠ 201 → a ≠ .lost → Refused hash rq pc s₀ s') ∧
        (hash rq.session.content ≠ rq.expected →
          status ≠ 201 ∧ SameBlobs s₀ s' ∧ s'.driver = s₀.driver) := by
  have hstart : Progress hash s₀ s₀ rq .stat := rfl
  obtain ⟨rfl, h⟩ := hstart.alone hrun
  rcases h.answered hlast with ⟨rfl, r, db, rfl, hdb, rfl⟩ | ⟨hstatus, hlost, hrefused⟩
  · refine ⟨fun _ => h.committed hinj hs₀ hdb, by simp, fun hne => ?_⟩
    exact absurd h.2.2.1.digest hne
  · refine ⟨fun h201 => absurd h201 hstatus, fun _ => hrefused, fun hne => ?_⟩
    have hno : Refused hash rq' pc s₀ s' := hrefused fun ha => hne (hlost ha)
    refine ⟨hstatus, hno.rows, ?_⟩
    rcases hno.objects with hsame | ⟨-, -, hok, -⟩
    · exact hsame
    · exact absurd hok hne

/-- Everything stored is verified, and every row has the length of its content. -/
structure StoredInv (hash : Bytes → Digest) (s : Storage) : Prop where
  verified : s.driver.Verified hash
  sizes : ∀ b ∈ s.db.blobs, ∃ c, hash c = b.digest ∧ b.size = c.length

def ContentChecked (hash : Bytes → Digest) (_ : Storage) (_ : Nat) : BlobTask → Prop
  | .commit rq (.resolve true _) | .commit rq (.upsertBlob _) => ContentOk hash rq
  | _ => True

theorem StoredInv.upserted {rq : CommitRequest} {r : Repository} {db : Db}
    (h : StoredInv hash s) (hok : ContentOk hash rq)
    (hdb : s.db.upsertBlob r.id rq.expected rq.session.offset s.now = some db) :
    StoredInv hash { s with db := db } := by
  refine ⟨h.verified, fun b hb => ?_⟩
  unfold Db.upsertBlob at hdb
  split at hdb <;> cases hdb
  have hb : b ∈ Table.insertNew Blob.digest ⟨rq.expected, rq.session.offset, s.now⟩ s.db.blobs := hb
  rcases Table.mem_of_mem_insertNew hb with hb | rfl
  · exact h.sizes b hb
  · exact ⟨rq.session.content, hok.digest, hok.length.symm⟩

theorem StoredInv.fewer {s' : Storage} (h : StoredInv hash s) (hdriver : s'.driver.Verified hash)
    (hrows : ∀ b ∈ s'.db.blobs, b ∈ s.db.blobs) : StoredInv hash s' :=
  ⟨hdriver, fun b hb => h.sizes b (hrows b hb)⟩

theorem storedOutline (hash : Bytes → Digest) :
    (blobProgram hash).Outline (fun _ _ => True) (StoredInv hash) (ContentChecked hash) where
  init s h := by
    obtain ⟨hb, -, hd⟩ := h
    exact ⟨fun o ho => by simp [hd] at ho, fun b hb' => by simp [hb] at hb'⟩
  spawn p t _ _ hf := by
    cases t with
    | commit rq pc => cases pc <;> simp_all [blobProgram, BlobTask.fresh, ContentChecked]
    | _ => trivial
  act p i a t s' t' h _ ht ha := by
    have hdriver := (blobAct_effect i ha).verified h.shared.verified
    have hchecked := h.tasks i t ht
    cases t with
    | commit rq pc =>
      cases commitUpload_call ha with
      | found _ digest length => exact ⟨h.shared, digest, length⟩
      | missing | answered => exact ⟨h.shared, trivial⟩
      | @more found _ _ _ _ resolve | @resolved found _ _ _ _ resolve =>
        obtain ⟨repositories, rfl⟩ := resolveStep_rest resolve
        refine ⟨h.shared.fewer hdriver fun b hb => hb, ?_⟩
        cases found
        · trivial
        · exact hchecked
      | resolveAnswered resolve =>
        obtain ⟨repositories, rfl⟩ := resolveStep_rest resolve
        exact ⟨h.shared.fewer hdriver fun b hb => hb, trivial⟩
      | put digest length => exact ⟨h.shared.fewer hdriver fun b hb => hb, digest, length⟩
      | putLost => exact ⟨h.shared.fewer hdriver fun b hb => hb, trivial⟩
      | upsert row | upsertLost row =>
        -- what was checked when the content was found or put is what is recorded
        exact ⟨h.shared.upserted hchecked row, trivial⟩
    | blobDelete org name d pc =>
      cases handleBlobDelete_call ha with
      | unlinkLast _ row | unlink _ row =>
        exact ⟨h.shared.fewer hdriver fun b hb => Db.mem_blobs_unlinkBlob row hb, trivial⟩
      | answered | looked | free | erase =>
        exact ⟨h.shared.fewer hdriver fun b hb => hb, trivial⟩
    | gc grace pc =>
      cases handleGC_call ha with
      | orphans | orphansLost =>
        exact ⟨h.shared.fewer hdriver fun b hb => Db.mem_blobs_deleteOrphans hb, trivial⟩
      | _ => exact ⟨h.shared.fewer hdriver fun b hb => hb, trivial⟩
    | done status => simp [blobProgram, blobAct] at ha
  interfere p i a t s' t' h _ ht ha j q _ hq := h.tasks j q hq
  env p e s' h _ he := by
    obtain ⟨hdriver, hblobs⟩ := blobEnv_effect he
    exact ⟨h.shared.fewer (hdriver ▸ h.shared.verified) fun b hb => hblobs ▸ hb, h.tasks⟩

/-- Whatever commits, deletes and collections do to one another, and whichever of their answers
are lost, every object is stored under the digest of its content, and every blob has the length
of a content with its digest. -/
theorem stored_is_verified (hash : Bytes → Digest) {p : Pool Storage BlobTask}
    (h : (blobProgram hash).machine.Reachable p) : StoredInv hash p.shared :=
  ((storedOutline hash).run h).shared

def zeroRequest (hash : Bytes → Digest) : CommitRequest := ⟨"acme", "app", hash [0], ⟨[0], 1⟩⟩

/-- Two commits of one octet: the second finds the object of the first. -/
def zeroTwice : List (Move BlobTask Answer Surrounding) :=
  .spawn (.commit (zeroRequest sha256OfEmpty) .stat) :: calls 0 6 ++
    .spawn (.commit (zeroRequest sha256OfEmpty) .stat) :: calls 1 4

theorem stored_is_verified_acme : ∃ p, (blobProgram sha256OfEmpty).machine.Reachable p ∧
    p.shared.db.blobs.map (·.size) = [1] ∧ StoredInv sha256OfEmpty p.shared := by
  obtain ⟨p, hp⟩ : ∃ p, (blobProgram sha256OfEmpty).machine.replay (fun _ _ => True)
      ⟨acme, []⟩ zeroTwice = some p := ⟨_, rfl⟩
  have hrun : (blobProgram sha256OfEmpty).machine.Reachable p :=
    Machine.run_of_replay ⟨⟨rfl, rfl, rfl⟩, rfl⟩ hp
  refine ⟨p, hrun, ?_, stored_is_verified sha256OfEmpty hrun⟩
  cases hp
  rfl

end alone

/-! ## Two commits alone -/

/-- A collision-free digest with sha256's value on the empty content. -/
def contentDigest : Bytes → Digest
  | [] => sha256OfEmpty []
  | c => String.ofList ('x' :: c.map Char.ofUInt8)

theorem contentDigest_injective : Function.Injective contentDigest := by
  have hx : ∀ b c, String.ofList ('x' :: List.map Char.ofUInt8 (b :: c)) ≠ sha256OfEmpty [] := by
    intro b c h
    have h' := congrArg String.toList h
    simp [sha256OfEmpty] at h'
  intro c c' h
  cases c with
  | nil =>
    cases c' with
    | nil => rfl
    | cons b' c' => exact absurd h.symm (hx b' c')
  | cons b c =>
    cases c' with
    | nil => exact absurd h (hx b c)
    | cons b' c' =>
      have h' := String.ofList_injective h
      have hchar : Function.Injective Char.ofUInt8 := by
        intro a b hab
        have hval : a.toUInt32 = b.toUInt32 := congrArg Char.val hab
        have hnat := congrArg UInt32.toNat hval
        simp only [UInt8.toNat_toUInt32] at hnat
        exact UInt8.toNat_inj.mp hnat
      exact map_injective_iff.mpr hchar (List.cons.inj h').2

def emptyRequest : CommitRequest :=
  ⟨"acme", "app", sha256OfEmpty [], ⟨[], 0⟩⟩

/-- The organization's registry with the object stored, and no row for it. -/
def storedAcme : Storage :=
  { acme with driver := [(contentDigest [0], [0])] }

theorem committed_blob_is_the_blob_acme :
    ∃ s s' r, callsAlone contentDigest storedAcme (.commit (zeroRequest contentDigest) .stat)
        (List.replicate 4 .ok) =
          some (s, .commit (zeroRequest contentDigest) (.upsertBlob r)) ∧
      blobAct contentDigest s 0 (.commit (zeroRequest contentDigest) (.upsertBlob r)) .ok =
        some (s', .done 201) ∧ Committed contentDigest (zeroRequest contentDigest) s' := by
  obtain ⟨s, r, hrun⟩ : ∃ s r, callsAlone contentDigest storedAcme
      (.commit (zeroRequest contentDigest) .stat) (List.replicate 4 .ok) =
        some (s, .commit (zeroRequest contentDigest) (.upsertBlob r)) :=
    ⟨_, _, rfl⟩
  obtain ⟨s', hlast⟩ : ∃ s', blobAct contentDigest s 0
      (.commit (zeroRequest contentDigest) (.upsertBlob r)) .ok = some (s', .done 201) := by
    cases hrun
    exact ⟨_, rfl⟩
  have hsound : StoredSound contentDigest storedAcme (zeroRequest contentDigest).expected :=
    ⟨fun _ hc => by rw [(Prod.mk.inj (mem_singleton.mp hc)).2]; rfl, by simp [storedAcme, acme]⟩
  exact ⟨s, s', r, hrun, hlast,
    (committed_blob_is_the_blob contentDigest_injective hsound hrun hlast).1 rfl⟩

/-- The organization's registry with a damaged object under the digest of the empty
content. -/
def damagedAcme : Storage :=
  { acme with driver := [(sha256OfEmpty [], [0])] }

/-- Over a damaged object a commit answers 201; and where the tables fail after the object
was published, the commit answers 500 and the object stays. -/
theorem commit_over_damage_and_failed_record :
    (∃ s, callsAlone contentDigest damagedAcme (.commit emptyRequest .stat)
        (List.replicate 5 .ok) = some (s, .done 201) ∧
      ∃ c, (emptyRequest.expected, c) ∈ s.driver ∧ contentDigest c ≠ emptyRequest.expected) ∧
    (∃ s, callsAlone contentDigest acme (.commit emptyRequest .stat)
        (List.replicate 5 .ok ++ [.failed]) = some (s, .done 500) ∧
      acme.driver.stat emptyRequest.expected = false ∧
        s.driver.stat emptyRequest.expected = true) := by
  refine ⟨⟨_, rfl, [0], ?_, ?_⟩, ⟨_, rfl, rfl, rfl⟩⟩
  · exact mem_singleton_self _
  · intro h
    have h' := congrArg String.toList h
    simp [contentDigest, emptyRequest, sha256OfEmpty] at h'

end Chicoree.Registryd
