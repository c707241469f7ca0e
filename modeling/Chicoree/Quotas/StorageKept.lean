import Chicoree.Quotas.StorageRuns

/-! # Storage limits hold

Runs of the handlers that write content keep every limit that held, and an accepted run
adds exactly the content that was new to its organization. A run links one blob at most,
after its check found room for it. -/

namespace Chicoree.Quotas

open Registryd List Option Table

/-! ## Resolving -/

/-- What is known of the room for `n` bytes of a digest while a repository is resolved. -/
def Room (a : Accounts) (db : Db) (org name : String) (d : Digest) (n : Nat) : ResolvePc → Prop
  | .getRepository | .moved | .orgIdBySlug => True
  | .orgHasBlob r | .storageQuota r => db.getRepository org name = some r
  | .defaultVisibility o | .repositoryQuota o _ | .newOrgHasBlob o _ | .newStorageQuota o _ =>
    db.orgIdBySlug org = some o
  | .ensureGet _ | .ensureOrgId _ => ∃ o, db.orgIdBySlug org = some o ∧ Cleared a db o d n
  | .ensureInsert o _ => db.orgIdBySlug org = some o ∧ Cleared a db o d n

/-- A resolved repository is the one of the name, and its organization has room. -/
def Cleared.InRepository (a : Accounts) (db : Db) (org name : String) (d : Digest) (n : Nat)
    (r : Repository) : Prop :=
  db.getRepository org name = some r ∧ Cleared a db r.orgId d n

/-- What is known of the outcome of a call. -/
def ResolvedRoom (a : Accounts) (db : Db) (org name : String) (d : Digest) (n : Nat) :
    Resolved → Prop
  | .more pc => Room a db org name d n pc
  | .repo r => Cleared.InRepository a db org name d n r
  | .answered status => status ≠ 201

variable {pc : ResolvePc} {ans : Answer} {out : Resolved}

section resolve

variable {a : Accounts} {db db' : Db} {org name : String} {d : Digest} {n : Nat}

theorem getRepository_orgId {r : Repository} (h : db.getRepository org name = some r) :
    db.orgIdBySlug org = some r.orgId := by
  unfold Db.getRepository at h
  cases ho : db.orgIdBySlug org with
  | none => simp [ho] at h
  | some o =>
    simp only [ho] at h
    have hkey : (r.orgId, r.name) = (o, name) := (find_some h).2
    have horg : r.orgId = o := congrArg Prod.fst hkey
    rw [horg]

theorem getRepository_congr (ho : db'.organizations = db.organizations)
    (hr : db'.repositories = db.repositories) :
    db'.getRepository org name = db.getRepository org name := by
  unfold Db.getRepository Db.orgIdBySlug
  rw [ho, hr]

variable {s s' : Registry}

theorem Room.later (h : Room a s.db org name d n pc)
    (hquiet : Quiet s s') (hs : Consistent s.db) (hs' : Consistent s'.db) :
    Room a s'.db org name d n pc := by
  have hget : s'.db.getRepository org name = s.db.getRepository org name :=
    getRepository_congr hquiet.organizations hquiet.repositories
  have hslug : s'.db.orgIdBySlug org = s.db.orgIdBySlug org := by
    unfold Db.orgIdBySlug
    rw [hquiet.organizations]
  cases pc with
  | getRepository | moved | orgIdBySlug => trivial
  | orgHasBlob r | storageQuota r => exact hget.trans h
  | defaultVisibility o | repositoryQuota o v | newOrgHasBlob o v | newStorageQuota o v =>
    exact hslug.trans h
  | ensureGet v | ensureOrgId v =>
    obtain ⟨o, ho, hclear⟩ := h
    exact ⟨o, hslug.trans ho, hclear.of_same hquiet.linked hs hs'⟩
  | ensureInsert o v => exact ⟨hslug.trans h.1, h.2.of_same hquiet.linked hs hs'⟩

theorem Cleared.InRepository.later {r : Repository}
    (h : Cleared.InRepository a s.db org name d n r) (hquiet : Quiet s s')
    (hs : Consistent s.db) (hs' : Consistent s'.db) :
    Cleared.InRepository a s'.db org name d n r :=
  ⟨(getRepository_congr hquiet.organizations hquiet.repositories).trans h.1,
    h.2.of_same hquiet.linked hs hs'⟩

theorem resolveRead_room (hpc : Room a db org name d n pc)
    (hasks : ∀ o, asksStorage pc = some o → ans = .ok → Store.checkContentQuota a db o n = none)
    (h : ReadCall db org name d pc ans out) : ResolvedRoom a db org name d n out := by
  cases h with
  | answered refused => exact refused
  | known row => exact row
  | held held => exact ⟨hpc, .inl held⟩
  | @room r => exact ⟨hpc, .inr (hasks r.orgId rfl rfl)⟩
  | org slug => exact slug
  | @newHeld o v held => exact ⟨o, hpc, .inl held⟩
  | @newRoom o v => exact ⟨o, hpc, .inr (hasks o rfl rfl)⟩
  | there row =>
    obtain ⟨o, ho, hclear⟩ := hpc
    have horg : o = _ := Option.some.inj (ho.symm.trans (getRepository_orgId row))
    exact ⟨row, horg ▸ hclear⟩
  | ensureOrg slug =>
    obtain ⟨o, ho, hclear⟩ := hpc
    have horg : o = _ := Option.some.inj (ho.symm.trans slug)
    exact ⟨slug, horg ▸ hclear⟩
  | unknown | stayed => trivial
  | lacking | visibility | allowed | newLacking | missing => exact hpc

theorem resolveStep_same (hdb : Consistent db)
    (h : resolveStep db org name d pc ans = some (db', out)) :
    Consistent db' ∧ SameLinked db db' := by
  cases resolveStep_call h with
  | read reads => exact ⟨hdb, .refl db⟩
  | insert fresh => exact ⟨hdb.ensureRepository fresh, sameLinked_ensureRepository hdb fresh⟩

theorem resolveStep_room (hdb : Consistent db) (hpc : Room a db org name d n pc)
    (hasks : ∀ o, asksStorage pc = some o → ans = .ok → Store.checkContentQuota a db o n = none)
    (h : resolveStep db org name d pc ans = some (db', out)) :
    ResolvedRoom a db' org name d n out := by
  obtain ⟨hdb', hsame⟩ := resolveStep_same hdb h
  cases resolveStep_call h with
  | read reads => exact resolveRead_room hpc hasks reads
  | @insert o v id acked fresh =>
    obtain ⟨ho, hclear⟩ := hpc
    cases acked with
    | true =>
      have hget : (db.ensureRepository o name v id).1.getRepository org name =
          some (db.ensureRepository o name v id).2 := Db.getRepository_ensureRepository ho v id
      have hslug : (db.ensureRepository o name v id).1.orgIdBySlug org = some o := by
        unfold Db.ensureRepository
        split <;> exact ho
      have horg : o = (db.ensureRepository o name v id).2.orgId :=
        Option.some.inj (hslug.symm.trans (getRepository_orgId hget))
      exact ⟨hget, horg ▸ hclear.of_same hsame hdb hdb'⟩
    | false => exact (by decide : (500 : Nat) ≠ 201)

end resolve

/-! ## Before and after the write -/

/-- Nothing was linked since the run began. -/
structure Before (s₀ s : Registry) : Prop where
  blobs : ∀ b ∈ s₀.db.blobs, b ∈ s.db.blobs
  linked : SameLinked s₀.db s.db

structure Deposited (a : Accounts) (s₀ s : Registry) (d : Digest) (r : Repository) (b : Blob) :
    Prop where
  deposit : Deposit a s₀.db s.db r b
  digest : b.digest = d
  blob : b ∈ s.db.blobs
  repository : r ∈ s.db.repositories

section writes

variable {hash : Bytes → Digest} {a : Accounts} {s₀ s s' : Registry} {db₀ db db' : Db}
  {r : Repository} {b : Blob} {d : Digest} {n : Nat} {now : Time}

theorem Before.refl (s : Registry) : Before s s := ⟨fun _ hb => hb, .refl s.db⟩

theorem Before.later (h : Before s₀ s) (hquiet : Quiet s s') : Before s₀ s' :=
  ⟨fun b hb => hquiet.blobs b (h.blobs b hb), h.linked.trans hquiet.linked⟩

theorem SameLinked.symm (h : SameLinked db db') : SameLinked db' db := fun x => (h x).symm

theorem Deposited.later (h : Deposited a s₀ s d r b) (hquiet : Quiet s s') :
    Deposited a s₀ s' d r b where
  deposit :=
    { rows := fun x => (hquiet.linked x).trans (h.deposit.rows x)
      unique := h.deposit.unique
      cleared := h.deposit.cleared }
  digest := h.digest
  blob := hquiet.blobs b h.blob
  repository := by
    rw [hquiet.repositories]
    exact h.repository

/-- Equal digests have contents of one length. -/
def FixedLength (hash : Bytes → Digest) : Prop := ∀ x y, hash x = hash y → x.length = y.length

theorem Sized.unique {m : Nat} (hlen : FixedLength hash) (h : Sized hash d n)
    (h' : Sized hash d m) : n = m := by
  obtain ⟨x, hx, rfl⟩ := h
  obtain ⟨y, hy, rfl⟩ := h'
  exact hlen x y (hx.trans hy.symm)

theorem deposit_linkBlob (hdb₀ : Consistent db₀) (hdb : Consistent db)
    (hblobs : ∀ x ∈ db₀.blobs, x ∈ db.blobs) (hsame : SameLinked db₀ db)
    (hr : r ∈ db.repositories) (hb : b ∈ db.blobs)
    (hclear : Cleared a db r.orgId b.digest b.size) :
    Deposit a db₀ (db.linkBlob r.id b.digest now) r b where
  rows x := (oneMore_linkBlob hdb hr hb x).trans (or_congr_left (hsame x))
  unique x hx hd := hdb.blobs.eq_of_key (hblobs x hx) hb hd
  cleared := hclear.of_same hsame.symm hdb hdb₀

theorem deposit_upsertBlob (hlen : FixedLength hash) (hs₀ : Consistent s₀.db)
    (hs : Sound hash s) (hbefore : Before s₀ s) (hr : r ∈ s.db.repositories)
    (hsized : Sized hash d n) (hclear : Cleared a s.db r.orgId d n)
    (h : s.db.upsertBlob r.id d n now = some db') :
    Sound hash (s.withDb db') ∧ db'.organizations = s.db.organizations ∧
      db'.repositories = s.db.repositories ∧ ∃ b, Deposited a s₀ (s.withDb db') d r b := by
  unfold Db.upsertBlob at h
  split at h
  · cases h
    obtain ⟨c, hc, hn⟩ := hsized
    obtain ⟨b, hb, hd, hsize⟩ := exists_insertBlob s.db d n now
    subst hd
    have hdb : Consistent (s.db.insertBlob b.digest n now) := hs.tables.insertBlob _ _ _
    have hrecorded : SameLinked s.db (s.db.insertBlob b.digest n now) :=
      sameLinked_insertBlob hs.tables _ _ _
    have hsizes : ∀ x ∈ (s.db.insertBlob b.digest n now).blobs, Sized hash x.digest x.size := by
      rw [← hn]
      exact hs.insertBlob hc now
    have hbn : b.size = n := by
      rcases hsize with hold | hnew
      · exact (hs.sizes b hold).unique hlen ⟨c, hc, hn⟩
      · exact hnew
    have hroom : Cleared a (s.db.insertBlob b.digest n now) r.orgId b.digest b.size := by
      rw [hbn]
      exact hclear.of_same hrecorded hs.tables hdb
    refine ⟨⟨hdb.linkBlob hr hb, hsizes, hs.downloads⟩, rfl, rfl, b, ?_, rfl, hb, hr⟩
    exact deposit_linkBlob hs₀ hdb (fun x hx => mem_insertBlob (hbefore.blobs x hx))
      (hbefore.linked.trans hrecorded) hr hb hroom
  · cases h

theorem deposit_mountBlob (hs₀ : Consistent s₀.db) (hs : Sound hash s) (hbefore : Before s₀ s)
    (hr : r ∈ s.db.repositories) (hb : b ∈ s.db.blobs)
    (hclear : Cleared a s.db r.orgId b.digest b.size)
    (h : s.db.mountBlob r.id b.digest now = some db') :
    Sound hash (s.withDb db') ∧ db'.organizations = s.db.organizations ∧
      db'.repositories = s.db.repositories ∧ Deposited a s₀ (s.withDb db') b.digest r b := by
  unfold Db.mountBlob at h
  split at h
  · cases h
    refine ⟨⟨hs.tables.linkBlob hr hb, hs.sizes, hs.downloads⟩, rfl, rfl, ?_, rfl, hb, hr⟩
    exact deposit_linkBlob hs₀ hs.tables hbefore.blobs hbefore.linked hr hb hclear
  · cases h

theorem Before.held (h : Before s₀ s) (hs₀ : Consistent s₀.db) (hs : Consistent s.db)
    (hlinked : (r, b) ∈ linkedBlobs s.db) : Deposited a s₀ s b.digest r b := by
  have hold : (r, b) ∈ linkedBlobs s₀.db := (h.linked _).mp hlinked
  obtain ⟨hb, hr, -⟩ := mem_linkedBlobs.mp hlinked
  refine ⟨⟨?_, ?_, ?_⟩, rfl, hb, hr⟩
  · intro x
    rw [h.linked x]
    constructor
    · exact .inl
    · rintro (hx | rfl)
      · exact hx
      · exact hold
  · intro x hx hd
    exact hs.blobs.eq_of_key (h.blobs x hx) hb hd
  · left
    rw [orgHasBlob_iff hs₀]
    exact ⟨b.size, Store.mem_orgStorageRows.mpr ⟨r, b, hold, rfl, rfl, rfl⟩⟩

end writes

/-! ## How far a handler has come -/

def CommitRoom (hash : Bytes → Digest) (a : Accounts) (db : Db) (rq : CommitRequest) :
    CommitPc → Prop
  | .stat => True
  | .resolve found pc => (found = true → ContentOk hash rq) ∧
      Room a db rq.org rq.name rq.expected rq.session.offset pc
  | .put r => Cleared.InRepository a db rq.org rq.name rq.expected rq.session.offset r
  | .upsertBlob r => ContentOk hash rq ∧
      Cleared.InRepository a db rq.org rq.name rq.expected rq.session.offset r

def MountRoom (a : Accounts) (db : Db) (rq : MountRequest) : MountPc → Prop
  | .getSource | .linkedBlobSize _ => True
  | .resolve pc => ∃ b ∈ db.blobs, b.digest = rq.digest ∧
      Room a db rq.org rq.name rq.digest b.size pc
  | .linkBlob r => ∃ b ∈ db.blobs, b.digest = rq.digest ∧
      Cleared.InRepository a db rq.org rq.name rq.digest b.size r
  | .done n => n ≠ 201

def GetRoom (hash : Bytes → Digest) (a : Accounts) (s : Registry) (rq : BlobGet) :
    BlobGetPc → Prop
  | .getRepository | .moved => True
  | .linked r | .referenced r _ | .blobExists r _ | .download r _ | .relinked r =>
    r ∈ s.db.repositories
  | .wait r i => r ∈ s.db.repositories ∧ s.callDigest i = some rq.digest
  | .storageQuota r n => r ∈ s.db.repositories ∧ Sized hash rq.digest n
  | .upsertBlob r n => r ∈ s.db.repositories ∧ Sized hash rq.digest n ∧
      Cleared a s.db r.orgId rq.digest n
  | .serve r => ∃ b, (r, b) ∈ linkedBlobs s.db ∧ b.digest = rq.digest
  | .done n => n = 200 → ∃ r b, (r, b) ∈ linkedBlobs s.db ∧ b.digest = rq.digest

/-- What follows the write of a blob GET. -/
def Serving : BlobGetPc → Prop
  | .relinked _ | .serve _ | .done _ => True
  | _ => False

/-- How far a request is that began as `t₀` in the state `s₀`. -/
inductive Stage (hash : Bytes → Digest) (a : Accounts) (s₀ s : Registry) : Task → Task → Prop
  | commit {rq : CommitRequest} {pc₀ pc : CommitPc} (before : Before s₀ s)
      (room : CommitRoom hash a s.db rq pc) :
      Stage hash a s₀ s (.content (.commit rq pc₀)) (.content (.commit rq pc))
  | refused {rq : CommitRequest} {pc₀ : CommitPc} {n : Nat} (before : Before s₀ s)
      (status : n ≠ 201) : Stage hash a s₀ s (.content (.commit rq pc₀)) (.content (.done n))
  | committed {rq : CommitRequest} {pc₀ : CommitPc} {n : Nat} {r : Repository} {b : Blob}
      (content : ContentOk hash rq) (deposit : Deposited a s₀ s rq.expected r b)
      (repository : s.db.getRepository rq.org rq.name = some r) :
      Stage hash a s₀ s (.content (.commit rq pc₀)) (.content (.done n))
  | mount {rq : MountRequest} {pc₀ pc : MountPc} (before : Before s₀ s)
      (room : MountRoom a s.db rq pc) : Stage hash a s₀ s (.mount rq pc₀) (.mount rq pc)
  | mounted {rq : MountRequest} {pc₀ : MountPc} {n : Nat} {r : Repository} {b : Blob}
      (deposit : Deposited a s₀ s rq.digest r b)
      (repository : s.db.getRepository rq.org rq.name = some r) :
      Stage hash a s₀ s (.mount rq pc₀) (.mount rq (.done n))
  | manifestPut {rq : ManifestPut} {pc₀ pc : ManifestPutPc} (before : Before s₀ s) :
      Stage hash a s₀ s (.manifestPut rq pc₀) (.manifestPut rq pc)
  | blobGet {rq : BlobGet} {pc₀ pc : BlobGetPc} (before : Before s₀ s)
      (room : GetRoom hash a s rq pc) : Stage hash a s₀ s (.blobGet rq pc₀) (.blobGet rq pc)
  | cached {rq : BlobGet} {pc₀ pc : BlobGetPc} {r : Repository} {b : Blob}
      (serving : Serving pc) (deposit : Deposited a s₀ s rq.digest r b) :
      Stage hash a s₀ s (.blobGet rq pc₀) (.blobGet rq pc)

section calls

variable {hash : Bytes → Digest} {a : Accounts} {s₀ s s' : Registry}

variable {n : Nat}

theorem resolve_step {org name : String} {d : Digest}
    {db : Db} (hs : Sound hash s) (hbefore : Before s₀ s)
    (hpc : Room a s.db org name d n pc)
    (hasks : ∀ o, asksStorage pc = some o → ans = .ok → Store.checkContentQuota a s.db o n = none)
    (h : resolveStep s.db org name d pc ans = some (db, out)) :
    Sound hash (s.withDb db) ∧ Before s₀ (s.withDb db) ∧ db.blobs = s.db.blobs ∧
      ResolvedRoom a db org name d n out := by
  obtain ⟨hdb, hsame⟩ := resolveStep_same hs.tables h
  have hout : ResolvedRoom a db org name d n out := resolveStep_room hs.tables hpc hasks h
  have hblobs : db.blobs = s.db.blobs := by
    obtain ⟨repositories, rfl⟩ := resolveStep_rest h
    rfl
  have hsizes : ∀ b ∈ db.blobs, Sized hash b.digest b.size := by
    rw [hblobs]
    exact hs.sizes
  have hold : ∀ b ∈ s₀.db.blobs, b ∈ db.blobs := by
    rw [hblobs]
    exact hbefore.blobs
  exact ⟨⟨hdb, hsizes, hs.downloads⟩, ⟨hold, hbefore.linked.trans hsame⟩, hblobs, hout⟩

theorem commitUpload_stage {rq : CommitRequest} {pc₀ pc : CommitPc}
    {storage : Storage} {t' : BlobTask} (hlen : FixedLength hash) (hs₀ : Consistent s₀.db)
    (hs : Sound hash s) (hbefore : Before s₀ s) (hroom : CommitRoom hash a s.db rq pc)
    (hjudged : Judged a s (.content (.commit rq pc)) (.answer ans))
    (h : commitUpload hash s.storage rq pc ans = some (storage, t')) :
    Sound hash { s with storage := storage } ∧
      Stage hash a s₀ { s with storage := storage } (.content (.commit rq pc₀)) (.content t') := by
  -- the driver is no concern of the tables
  have hput (dr : Driver) : Sound hash { s with storage := { s.storage with driver := dr } } ∧
      Before s₀ { s with storage := { s.storage with driver := dr } } :=
    ⟨⟨hs.tables, hs.sizes, hs.downloads⟩, ⟨hbefore.blobs, hbefore.linked⟩⟩
  have hresolve {found : Bool} {pc : ResolvePc} {db : Db} {out : Resolved}
      (hpc : Room a s.db rq.org rq.name rq.expected rq.session.offset pc)
      (hjudged : Judged a s (.content (.commit rq (.resolve found pc))) (.answer ans))
      (h : resolveStep s.db rq.org rq.name rq.expected pc ans = some (db, out)) :
      Sound hash (s.withDb db) ∧ Before s₀ (s.withDb db) ∧
        ResolvedRoom a db rq.org rq.name rq.expected rq.session.offset out := by
    obtain ⟨hs', hbefore', -, hout⟩ := resolve_step hs hbefore hpc (fun o ho hok =>
      (hjudged _ (congrArg (Option.map _) ho)).1 (congrArg Reply.answer hok)) h
    exact ⟨hs', hbefore', hout⟩
  have hwrite {r : Repository} {db : Db} (hroom : CommitRoom hash a s.db rq (.upsertBlob r))
      (hdb : s.db.upsertBlob r.id rq.expected rq.session.offset s.storage.now = some db)
      (n : Nat) : Sound hash (s.withDb db) ∧
        Stage hash a s₀ (s.withDb db) (.content (.commit rq pc₀)) (.content (.done n)) := by
    obtain ⟨hcontent, hget, hclear⟩ := hroom
    obtain ⟨hs', ho, hr, b, hdeposit⟩ := deposit_upsertBlob hlen hs₀ hs hbefore
      (Db.getRepository_mem hget) ⟨_, hcontent.digest, hcontent.length⟩ hclear hdb
    exact ⟨hs', .committed hcontent hdeposit ((getRepository_congr ho hr).trans hget)⟩
  cases commitUpload_call h with
  | found stat digest length => exact ⟨hs, .commit hbefore ⟨fun _ => ⟨digest, length⟩, trivial⟩⟩
  | missing => exact ⟨hs, .commit hbefore ⟨nofun, trivial⟩⟩
  | answered refused => exact ⟨hs, .refused hbefore refused⟩
  | more resolve =>
    obtain ⟨hs', hbefore', hout⟩ := hresolve hroom.2 hjudged resolve
    exact ⟨hs', .commit hbefore' ⟨hroom.1, hout⟩⟩
  | resolveAnswered resolve =>
    obtain ⟨hs', hbefore', hout⟩ := hresolve hroom.2 hjudged resolve
    exact ⟨hs', .refused hbefore' hout⟩
  | @resolved found _ _ _ _ resolve =>
    obtain ⟨hs', hbefore', hout⟩ := hresolve hroom.2 hjudged resolve
    refine ⟨hs', .commit hbefore' ?_⟩
    cases found with
    | true => exact ⟨hroom.1 rfl, hout⟩
    | false => exact hout
  | put digest length => exact ⟨(hput _).1, .commit (hput _).2 ⟨⟨digest, length⟩, hroom⟩⟩
  | putLost => exact ⟨(hput _).1, .refused (hput _).2 (by decide)⟩
  | upsert row => exact hwrite hroom row 201
  | upsertLost row => exact hwrite hroom row 500

theorem tryMount_stage {rq : MountRequest} {pc₀ pc pc' : MountPc}
    (hs₀ : Consistent s₀.db) (hs : Sound hash s) (hbefore : Before s₀ s)
    (hroom : MountRoom a s.db rq pc) (hjudged : Judged a s (.mount rq pc) (.answer ans))
    (h : tryMount s rq pc ans = some (s', pc')) :
    Sound hash s' ∧ Stage hash a s₀ s' (.mount rq pc₀) (.mount rq pc') := by
  have hresolve {pc : ResolvePc} {db : Db} {out : Resolved}
      (hroom : MountRoom a s.db rq (.resolve pc))
      (hjudged : Judged a s (.mount rq (.resolve pc)) (.answer ans))
      (h : resolveStep s.db rq.org rq.name rq.digest pc ans = some (db, out)) :
      Sound hash (s.withDb db) ∧ Before s₀ (s.withDb db) ∧ ∃ b ∈ db.blobs, b.digest = rq.digest ∧
        ResolvedRoom a db rq.org rq.name rq.digest b.size out := by
    obtain ⟨b, hb, hd, hpc⟩ := hroom
    have hsize : (s.db.blobExists rq.digest).getD 0 = b.size := by
      unfold Db.blobExists
      rw [← hd, hs.tables.blobs.find_self hb]
      rfl
    obtain ⟨hs', hbefore', hblobs, hout⟩ := resolve_step hs hbefore hpc (fun o ho hok => by
      have hverdict := (hjudged _ (congrArg (Option.map _) ho)).1 (congrArg Reply.answer hok)
      rw [hsize] at hverdict
      exact hverdict) h
    exact ⟨hs', hbefore', b, hblobs ▸ hb, hd, hout⟩
  have hwrite {r : Repository} {db : Db} (hroom : MountRoom a s.db rq (.linkBlob r))
      (hdb : s.db.mountBlob r.id rq.digest s.storage.now = some db) (n : Nat) :
      Sound hash (s.withDb db) ∧
        Stage hash a s₀ (s.withDb db) (.mount rq pc₀) (.mount rq (.done n)) := by
    obtain ⟨b, hb, hd, hget, hclear⟩ := hroom
    rw [← hd] at hdb hclear
    obtain ⟨hs', ho, hr, hdeposit⟩ :=
      deposit_mountBlob hs₀ hs hbefore (Db.getRepository_mem hget) hb hclear hdb
    rw [hd] at hdeposit
    exact ⟨hs', .mounted hdeposit ((getRepository_congr ho hr).trans hget)⟩
  cases tryMount_call h with
  | answered =>
    have hgiven : (202 : Nat) ≠ 201 := by decide
    exact ⟨hs, .mount hbefore hgiven⟩
  | source => exact ⟨hs, .mount hbefore trivial⟩
  | linked row =>
    unfold Db.linkedBlobSize Db.blobExists at row
    split at row
    · obtain ⟨b, hb, -⟩ := map_eq_some_iff.mp row
      obtain ⟨hmem, hd⟩ := find_some hb
      exact ⟨hs, .mount hbefore ⟨b, hmem, hd, trivial⟩⟩
    · cases row
  | more resolve | resolved resolve =>
    obtain ⟨hs', hbefore', hout⟩ := hresolve hroom hjudged resolve
    exact ⟨hs', .mount hbefore' hout⟩
  | resolveAnswered resolve =>
    obtain ⟨hs', hbefore', b, -, -, hout⟩ := hresolve hroom hjudged resolve
    exact ⟨hs', .mount hbefore' hout⟩
  | mount row => exact hwrite hroom row 201
  | mountLost row => exact hwrite hroom row 202

theorem handleManifestPut_stage {rq : ManifestPut} {pc pc' : ManifestPutPc}
    (hs : Sound hash s) (hbefore : Before s₀ s)
    (h : handleManifestPut s rq pc ans = some (s', pc')) : Sound hash s' ∧ Before s₀ s' := by
  cases handleManifestPut_call h with
  | more resolve | resolveAnswered resolve | resolved resolve =>
    obtain ⟨hdb, hsame⟩ := resolveStep_same hs.tables resolve
    obtain ⟨repositories, rfl⟩ := resolveStep_rest resolve
    exact ⟨⟨hdb, hs.sizes, hs.downloads⟩, ⟨hbefore.blobs, hbefore.linked.trans hsame⟩⟩
  | upsert row | upsertLost row =>
    unfold Registry.upsertManifest at row
    split at row
    · cases row
      exact ⟨⟨⟨hs.tables.repositories, hs.tables.blobs, hs.tables.known, hs.tables.recorded⟩,
        hs.sizes, hs.downloads⟩, ⟨hbefore.blobs, hbefore.linked⟩⟩
    · cases row
  | _ => exact ⟨hs, hbefore⟩

theorem linkedBlobSize_linked (hs : Consistent s.db) {r : Repository} {d : Digest}
    (hr : r ∈ s.db.repositories) (h : s.db.linkedBlobSize r.id d = some n) :
    ∃ b, (r, b) ∈ linkedBlobs s.db ∧ b.digest = d := by
  unfold Db.linkedBlobSize at h
  split at h
  · rename_i hlink
    obtain ⟨l, hl, hkey⟩ := any_eq_true.mp hlink
    obtain ⟨hid, hd⟩ := decide_eq_true_eq.mp hkey
    obtain ⟨b, hb, hbd⟩ := hs.recorded l hl
    exact ⟨b, mem_linkedBlobs.mpr ⟨hb, hr, l, hl, hbd.symm, hid⟩, hbd.trans hd⟩
  · cases h

variable {i : Nat}

theorem joinDownload_sound {dl : Download} (hs : Sound hash s) (hpc : dl.pc = .openBlob)
    (h : joinDownload s dl = (s', i)) :
    Sound hash s' ∧ Quiet s s' ∧ s'.callDigest i = some dl.digest := by
  refine ⟨?_, ?_, joinDownload_call h⟩
  all_goals
    unfold joinDownload at h
    split at h <;> cases h
  · exact hs
  · refine ⟨hs.tables, hs.sizes, fun x hx => ?_⟩
    rcases mem_append.mp hx with hx | hx
    · exact hs.downloads x hx
    · rw [mem_singleton.mp hx, hpc]
      trivial
  · exact .refl s
  · refine ⟨rfl, rfl, fun _ hb => hb, .refl _, fun i d hi => ?_⟩
    unfold Registry.callDigest at hi ⊢
    obtain ⟨x, hx, hd⟩ := map_eq_some_iff.mp hi
    rw [getElem?_append_left (List.getElem?_eq_some_iff.mp hx).1, hx]
    exact congrArg some hd

variable {rq : BlobGet} {pc' : BlobGetPc} {reply : Reply}

theorem handleBlobGet_serving {pc : BlobGetPc}
    (hpc : Serving pc) (h : handleBlobGet s rq pc reply = some (s', pc')) :
    s' = s ∧ Serving pc' := by
  cases handleBlobGet_call h with
  | answered | relinked | served => exact ⟨rfl, trivial⟩
  | _ => cases hpc

theorem handleBlobGet_stage {pc₀ pc : BlobGetPc}
    (hlen : FixedLength hash) (hs₀ : Consistent s₀.db) (hs : Sound hash s)
    (hbefore : Before s₀ s) (hroom : GetRoom hash a s rq pc)
    (hjudged : Judged a s (.blobGet rq pc) reply)
    (h : handleBlobGet s rq pc reply = some (s', pc')) :
    Sound hash s' ∧ Stage hash a s₀ s' (.blobGet rq pc₀) (.blobGet rq pc') := by
  have hstay {pc' : BlobGetPc} (hroom' : GetRoom hash a s rq pc') :
      Sound hash s ∧ Stage hash a s₀ s (.blobGet rq pc₀) (.blobGet rq pc') :=
    ⟨hs, .blobGet hbefore hroom'⟩
  have hserved {r : Repository} {n : Nat} (hr : r ∈ s.db.repositories)
      (hn : s.db.linkedBlobSize r.id rq.digest = some n) : GetRoom hash a s rq (.serve r) :=
    linkedBlobSize_linked hs.tables hr hn
  have hwrite {r : Repository} {n : Nat} {db : Db} {pc' : BlobGetPc}
      (hroom : GetRoom hash a s rq (.upsertBlob r n))
      (hdb : s.db.upsertBlob r.id rq.digest n s.storage.now = some db) (hpc' : Serving pc') :
      Sound hash (s.withDb db) ∧
        Stage hash a s₀ (s.withDb db) (.blobGet rq pc₀) (.blobGet rq pc') := by
    obtain ⟨hr, hsized, hclear⟩ := hroom
    obtain ⟨hs', -, -, b, hdeposit⟩ := deposit_upsertBlob hlen hs₀ hs hbefore hr hsized hclear hdb
    exact ⟨hs', .cached hpc' hdeposit⟩
  cases handleBlobGet_call h with
  | answered refused => exact hstay fun h200 => absurd h200 refused
  | found row => exact hstay (Db.getRepository_mem row)
  | unknown => exact hstay trivial
  | moved row => exact hstay (find_some row).1
  | linked size | relinked size => exact hstay (hserved hroom size)
  | unlinked | needed | unneeded | disabled | fetch => exact hstay hroom
  | @served r status =>
    obtain ⟨b, hlinked, hd⟩ := hroom
    exact hstay fun _ => ⟨r, b, hlinked, hd⟩
  | known size =>
    obtain ⟨b, hb, rfl⟩ := map_eq_some_iff.mp size
    obtain ⟨hmem, hd⟩ := find_some hb
    have hsized : Sized hash rq.digest b.size := hd ▸ hs.sizes b hmem
    exact hstay ⟨hroom, hsized⟩
  | @join r px s' i joined =>
    obtain ⟨hs', hquiet, hcall⟩ := joinDownload_sound hs rfl joined
    have hr : r ∈ s'.db.repositories := by
      rw [hquiet.repositories]
      exact hroom
    exact ⟨hs', .blobGet (hbefore.later hquiet) ⟨hr, hcall⟩⟩
  | @finished r i n dl call size =>
    have hdigest : dl.digest = rq.digest := by
      have hcall : s.callDigest i = some rq.digest := hroom.2
      unfold Registry.callDigest at hcall
      rw [call] at hcall
      exact Option.some.inj hcall
    have hhashed : Hashed hash dl.digest dl.pc := hs.downloads dl (mem_of_getElem? call)
    rw [size, hdigest] at hhashed
    exact hstay ⟨hroom.1, hhashed⟩
  | @failed r i status dl call failure =>
    have hhashed : Hashed hash dl.digest dl.pc := hs.downloads dl (mem_of_getElem? call)
    rw [failure] at hhashed
    have hstatus : 400 ≤ status := hhashed
    refine hstay fun h200 => ?_
    omega
  | room =>
    have hverdict := (hjudged _ rfl).1 rfl
    refine hstay ⟨hroom.1, hroom.2, ?_⟩
    split at hverdict
    · rename_i hheld
      exact .inl hheld
    · exact .inr hverdict
  | upsert row | upsertLost row => exact hwrite hroom row trivial

/-! ## Runs -/

variable {t₀ t : Task}

theorem Stage.later (h : Stage hash a s₀ s t₀ t) (hquiet : Quiet s s')
    (hs : Consistent s.db) (hs' : Consistent s'.db) : Stage hash a s₀ s' t₀ t := by
  have hget {org name : String} : s'.db.getRepository org name = s.db.getRepository org name :=
    getRepository_congr hquiet.organizations hquiet.repositories
  cases h with
  | commit before room =>
    refine .commit (before.later hquiet) ?_
    rename_i pc
    cases pc with
    | stat => trivial
    | resolve found pc | upsertBlob r => exact ⟨room.1, room.2.later hquiet hs hs'⟩
    | put r => exact Cleared.InRepository.later room hquiet hs hs'
  | refused before status => exact .refused (before.later hquiet) status
  | committed content deposit repository =>
    exact .committed content (deposit.later hquiet) (hget.trans repository)
  | mount before room =>
    refine .mount (before.later hquiet) ?_
    rename_i pc
    cases pc with
    | getSource | linkedBlobSize source => trivial
    | resolve pc =>
      obtain ⟨b, hb, hd, hpc⟩ := room
      exact ⟨b, hquiet.blobs b hb, hd, hpc.later hquiet hs hs'⟩
    | linkBlob r =>
      obtain ⟨b, hb, hd, hclear⟩ := room
      exact ⟨b, hquiet.blobs b hb, hd, hclear.later hquiet hs hs'⟩
    | done n => exact room
  | mounted deposit repository =>
    exact .mounted (deposit.later hquiet) (hget.trans repository)
  | manifestPut before => exact .manifestPut (before.later hquiet)
  | blobGet before room =>
    refine .blobGet (before.later hquiet) ?_
    have hin {r : Repository} (hr : r ∈ s.db.repositories) : r ∈ s'.db.repositories := by
      rw [hquiet.repositories]
      exact hr
    rename_i pc
    cases pc with
    | getRepository | moved => trivial
    | linked r | referenced r px | blobExists r px | download r px | relinked r => exact hin room
    | wait r i => exact ⟨hin room.1, hquiet.calls i _ room.2⟩
    | storageQuota r n => exact ⟨hin room.1, room.2⟩
    | upsertBlob r n => exact ⟨hin room.1, room.2.1, room.2.2.of_same hquiet.linked hs hs'⟩
    | serve r =>
      obtain ⟨b, hlinked, hd⟩ := room
      exact ⟨b, (hquiet.linked _).mpr hlinked, hd⟩
    | done n =>
      intro hn
      obtain ⟨r, b, hlinked, hd⟩ := room hn
      exact ⟨r, b, (hquiet.linked _).mpr hlinked, hd⟩
  | cached serving deposit => exact .cached serving (deposit.later hquiet)

theorem requestCall_stage {t' : Task} (hlen : FixedLength hash)
    (hs₀ : Consistent s₀.db) (hs : Sound hash s) (hstage : Stage hash a s₀ s t₀ t)
    (hjudged : Judged a s t reply) (h : requestCall hash s i t reply = some (s', t')) :
    Sound hash s' ∧ Stage hash a s₀ s' t₀ t' := by
  cases hstage with
  | commit before room =>
    rcases reply with ans | repo | _ | m
    · obtain ⟨⟨storage, bt'⟩, hact, hout⟩ := map_eq_some_iff.mp h
      cases hout
      exact commitUpload_stage hlen hs₀ hs before room hjudged hact
    all_goals cases h
  | refused before status | committed content deposit repository =>
    rcases reply with ans | repo | _ | m
    all_goals cases h
  | mount before room =>
    rcases reply with ans | repo | _ | m
    · obtain ⟨⟨s₁, pc'⟩, hact, hout⟩ := map_eq_some_iff.mp h
      cases hout
      exact tryMount_stage hs₀ hs before room hjudged hact
    all_goals cases h
  | mounted deposit repository =>
    rcases reply with ans | repo | _ | m
    · cases ans <;> simp [requestCall, tryMount] at h
    all_goals cases h
  | manifestPut before =>
    rcases reply with ans | repo | _ | m
    · obtain ⟨⟨s₁, pc'⟩, hact, hout⟩ := map_eq_some_iff.mp h
      cases hout
      obtain ⟨hs', before'⟩ := handleManifestPut_stage hs before hact
      exact ⟨hs', .manifestPut before'⟩
    all_goals cases h
  | blobGet before room =>
    obtain ⟨⟨s₁, pc'⟩, hact, hout⟩ := map_eq_some_iff.mp h
    cases hout
    exact handleBlobGet_stage hlen hs₀ hs before room hjudged hact
  | cached serving deposit =>
    obtain ⟨⟨s₁, pc'⟩, hact, hout⟩ := map_eq_some_iff.mp h
    cases hout
    obtain ⟨rfl, serving'⟩ := handleBlobGet_serving serving hact
    exact ⟨hs, .cached serving' deposit⟩

theorem handlerRun_stage (hlen : FixedLength hash) (hs₀ : Sound hash s₀)
    (hbegin : Stage hash a s₀ s₀ t₀ t₀) (h : HandlerRun hash a s₀ t₀ s t) :
    Sound hash s ∧ Stage hash a s₀ s t₀ t := by
  induction h with
  | refl => exact ⟨hs₀, hbegin⟩
  | call _ judged act ih =>
    obtain ⟨s₁, hcall, -, rfl⟩ := requestAct_effect act
    obtain ⟨hs₁, hstage⟩ := requestCall_stage hlen hs₀.tables ih.1 ih.2 judged hcall
    -- the history is no concern of the tables
    refine ⟨⟨hs₁.tables, hs₁.sizes, hs₁.downloads⟩, ?_⟩
    exact hstage.later ⟨rfl, rfl, fun _ hb => hb, .refl _, fun _ _ hcall => hcall⟩ hs₁.tables
      hs₁.tables
  | background _ quiet act ih =>
    obtain ⟨hs', hquiet⟩ := background_step ih.1 quiet act
    exact ⟨hs', ih.2.later hquiet ih.1.tables hs'.tables⟩

theorem writesContent_stage (h : writesContent t) : Stage hash a s s t t := by
  unfold writesContent at h
  split at h
  · exact .commit (.refl s) trivial
  · exact .mount (.refl s) trivial
  · exact .manifestPut (.refl s)
  · exact .blobGet (.refl s) trivial
  · cases h

end calls

/-! ## What a run leaves -/

section results

variable {hash : Bytes → Digest} {a : Accounts} {s₀ s s' : Registry} {t t' : Task}

theorem Deposited.usageGrows {d : Digest} {r : Repository} {b : Blob}
    (h : Deposited a s₀ s d r b) (hs₀ : Consistent s₀.db) :
    UsageGrows s₀ s r.orgId d b.size := by
  intro o
  rw [h.deposit.orgStorageUsed hs₀ o, h.digest]

theorem Before.withinOrganization (h : Before s₀ s) {org : OrgId}
    (hwithin : WithinOrganization a s₀.db org) : WithinOrganization a s.db org := by
  intro limit hlimit
  rw [h.linked.orgStorageUsed]
  exact hwithin limit hlimit

theorem Before.withinOwner (h : Before s₀ s) {user : UserId}
    (hwithin : WithinOwner a s₀.db user) : WithinOwner a s.db user := by
  intro limit hlimit
  rw [h.linked.ownerStorageUsed]
  exact hwithin limit hlimit

theorem Stage.within (h : Stage hash a s₀ s t t') (hs₀ : Consistent s₀.db) :
    (∀ org, WithinOrganization a s₀.db org → WithinOrganization a s.db org) ∧
      ∀ user, WithinOwner a s₀.db user → WithinOwner a s.db user := by
  cases h with
  | commit before | refused before | mount before | manifestPut before | blobGet before =>
    exact ⟨fun _ => before.withinOrganization, fun _ => before.withinOwner⟩
  | committed _ deposit | mounted deposit | cached _ deposit =>
    exact ⟨fun _ => deposit.deposit.withinOrganization hs₀,
      fun _ => deposit.deposit.withinOwner hs₀⟩

theorem Stage.adds (h : Stage hash a s₀ s t t') (hlen : FixedLength hash)
    (hs₀ : Consistent s₀.db) (hs : Sound hash s) (hstatus : status t' = some (accepted t)) :
    AddsContent s₀ s t := by
  cases h with
  | commit before room => cases hstatus
  | refused before hrefused => exact absurd (Option.some.inj hstatus) hrefused
  | committed content deposit repository =>
    rename_i r b
    have hsize : b.size = (_ : Bytes).length :=
      (hs.sizes b deposit.blob).unique hlen ⟨_, content.digest.trans deposit.digest.symm, rfl⟩
    refine ⟨r, repository, ?_⟩
    rw [← hsize]
    exact deposit.usageGrows hs₀
  | mount before room =>
    rename_i pc
    cases pc with
    | done n => exact absurd (Option.some.inj hstatus) room
    | _ => cases hstatus
  | mounted deposit repository =>
    exact ⟨_, _, repository, deposit.blob, deposit.digest, deposit.usageGrows hs₀⟩
  | manifestPut before =>
    intro o
    exact before.linked.orgStorageUsed
  | blobGet before room =>
    rename_i pc
    cases pc with
    | done n =>
      obtain ⟨r, b, hlinked, hd⟩ := room (Option.some.inj hstatus)
      have hdeposit := before.held hs₀ hs.tables hlinked (a := a)
      rw [hd] at hdeposit
      exact ⟨r, b, hdeposit.repository, hdeposit.blob, hd, hdeposit.usageGrows hs₀⟩
    | _ => cases hstatus
  | cached serving deposit =>
    exact ⟨_, _, deposit.repository, deposit.blob, deposit.digest, deposit.usageGrows hs₀⟩

theorem Runs.sound (hlen : FixedLength hash) (hs₀ : Sound hash s₀) (h : Runs hash a s₀ s) :
    Sound hash s := by
  induction h with
  | nil => exact hs₀
  | snoc _ run ih =>
    obtain ⟨t', hrun, -⟩ := run.run
    exact (handlerRun_stage hlen ih (writesContent_stage run.writes) hrun).1

end results

/-- After any runs of the handlers that write content, one more run keeps every limit of an
organization and of an owner that held, and if it is accepted adds to the usage of its
organization the size of its content where that was new, and nothing else anywhere. -/
theorem storage_limits_kept {hash : Bytes → Digest} (hlen : FixedLength hash) (a : Accounts)
    {s₀ s s' : Registry} {t : Task} {n : Nat} (hs₀ : Sound hash s₀) (hruns : Runs hash a s₀ s)
    (hrun : CompleteRun hash a s t s' n) :
    (∀ org, WithinOrganization a s.db org → WithinOrganization a s'.db org) ∧
      (∀ user, WithinOwner a s.db user → WithinOwner a s'.db user) ∧
        (n = accepted t → AddsContent s s' t) := by
  have hs : Sound hash s := hruns.sound hlen hs₀
  obtain ⟨t', hcalls, hstatus⟩ := hrun.run
  obtain ⟨hs', hstage⟩ := handlerRun_stage hlen hs (writesContent_stage hrun.writes) hcalls
  obtain ⟨horgs, howners⟩ := hstage.within hs.tables
  refine ⟨horgs, howners, fun hn => ?_⟩
  rw [hn] at hstatus
  exact hstage.adds hlen hs.tables hs' hstatus

def tenBytes : Registry :=
  { storage :=
      { db :=
          { organizations := [⟨"o1", "acme"⟩]
            repositories := [⟨"r1", "o1", "app", .private⟩] }
        driver := []
        now := 0 } }

def tenByteLimit : Accounts :=
  ⟨[], { organizationLimits := [⟨"o1", none, none, some 10, none⟩] }⟩

def oneByte : CommitRequest := ⟨"acme", "app", contentDigest [7], ⟨[7], 1⟩⟩

theorem tenBytes_sound : Sound contentDigest tenBytes where
  tables :=
    { repositories := by decide
      blobs := by decide
      known := nofun
      recorded := nofun }
  sizes := nofun
  downloads := nofun

theorem storage_limits_kept_commit :
    ∃ s', CompleteRun contentDigest tenByteLimit tenBytes (.content (.commit oneByte .stat)) s' 201 ∧
      WithinOrganization tenByteLimit s'.db "o1" ∧
        AddsContent tenBytes s' (.content (.commit oneByte .stat)) := by
  have hlen : FixedLength contentDigest := fun x y h => by rw [contentDigest_injective h]
  have hfree {s : Registry} {t : Task} {reply : Reply} (h : storageCheck tenByteLimit s t = none) :
      Judged tenByteLimit s t reply := fun v hv => by
    rw [h] at hv
    cases hv
  obtain ⟨s', t', hrun, ht'⟩ : ∃ s' t', HandlerRun contentDigest tenByteLimit tenBytes
      (.content (.commit oneByte .stat)) s' t' ∧ status t' = some 201 := by
    have hcall {s s' : Registry} {t t' : Task}
        (run : HandlerRun contentDigest tenByteLimit tenBytes (.content (.commit oneByte .stat)) s t)
        (judged : Judged tenByteLimit s t (.answer .ok))
        (act : requestAct contentDigest s 0 t (.answer .ok) = some (s', t')) :
        HandlerRun contentDigest tenByteLimit tenBytes (.content (.commit oneByte .stat)) s' t' :=
      .call run judged act
    have hstat := hcall .refl (hfree rfl) rfl
    have hget := hcall hstat (hfree rfl) rfl
    have hblob := hcall hget (hfree rfl) rfl
    have hquota := hcall hblob (fun v hv => by
      cases hv
      exact ⟨fun _ => rfl, nofun⟩) rfl
    have hput := hcall hquota (hfree rfl) rfl
    have hupsert := hcall hput (hfree rfl) rfl
    exact ⟨_, _, hupsert, rfl⟩
  have hcomplete : CompleteRun contentDigest tenByteLimit tenBytes
      (.content (.commit oneByte .stat)) s' 201 := ⟨trivial, t', hrun, ht'⟩
  obtain ⟨horgs, -, hadds⟩ := storage_limits_kept hlen tenByteLimit tenBytes_sound .nil hcomplete
  have hwithin : WithinOrganization tenByteLimit tenBytes.db "o1" := by
    intro limit hlimit
    cases hlimit
    decide
  exact ⟨s', hcomplete, horgs "o1" hwithin, hadds rfl⟩

end Chicoree.Quotas
