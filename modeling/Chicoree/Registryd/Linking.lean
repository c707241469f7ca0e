import Chicoree.Registryd.ProxyCache

/-! # What calls do to repositories and links

Repositories are created under new identifiers, and a link is only ever added to the
repository a request has in hand, for the digest it is about. -/

namespace Chicoree.Registryd

open List Table

def Db.LinksKnown (db : Db) : Prop :=
  ∀ l ∈ db.repositoryBlobs, ∃ row ∈ db.repositories, row.id = l.repositoryId

/-- What a statement may do: add repositories under generated identifiers, and links
of one digest to one repository. -/
structure DbEffect (ids : List RepoId) (target : Option (Repository × Digest))
    (db db' : Db) : Prop where
  rows : ∀ row ∈ db'.repositories, row ∈ db.repositories ∨ row.id ∈ ids
  keyed : Table.Keyed Repository.id db.repositories → Table.Keyed Repository.id db'.repositories
  links : ∀ l ∈ db'.repositoryBlobs, l ∈ db.repositoryBlobs ∨
    ∃ r d, target = some (r, d) ∧ l.repositoryId = r.id ∧ l.blobDigest = d
  known : db.LinksKnown → db'.LinksKnown

variable {d : Digest} {repo : RepoId} {o : OrgId}

section effects

variable {ids : List RepoId} {target : Option (Repository × Digest)} {db db' : Db}

theorem DbEffect.other (hrows : db'.repositories = db.repositories)
    (hlinks : db'.repositoryBlobs = db.repositoryBlobs) : DbEffect ids target db db' where
  rows row hrow := .inl (hrows ▸ hrow)
  keyed h := hrows ▸ h
  links l hl := .inl (hlinks ▸ hl)
  known h l hl := by
    rw [hrows]
    exact h l (hlinks ▸ hl)

theorem DbEffect.refl (db : Db) : DbEffect ids target db db := .other rfl rfl

theorem DbEffect.fewer (hrows : db'.repositories = db.repositories)
    (hlinks : ∀ l ∈ db'.repositoryBlobs, l ∈ db.repositoryBlobs) :
    DbEffect ids target db db' where
  rows row hrow := .inl (hrows ▸ hrow)
  keyed h := hrows ▸ h
  links l hl := .inl (hlinks l hl)
  known h l hl := by
    rw [hrows]
    exact h l (hlinks l hl)

variable {r : Repository} {now : Time}

theorem DbEffect.linkBlob (hr : ∃ row ∈ db.repositories, row.id = r.id) :
    DbEffect ids (some (r, d)) db (db.linkBlob r.id d now) where
  rows row hrow := .inl hrow
  keyed h := h
  links l hl := by
    rcases mem_of_mem_insertNew hl with hl | rfl
    · exact .inl hl
    · exact .inr ⟨r, d, rfl, rfl, rfl⟩
  known h l hl := by
    rcases mem_of_mem_insertNew hl with hl | rfl
    · exact h l hl
    · exact hr

theorem Db.repositoryExists_iff :
    db.repositoryExists repo = true ↔ ∃ row ∈ db.repositories, row.id = repo := by
  simp [Db.repositoryExists]

theorem DbEffect.upsertBlob {size : Nat}
    (h : db.upsertBlob r.id d size now = some db') : DbEffect ids (some (r, d)) db db' := by
  unfold Db.upsertBlob at h
  split at h
  · rename_i hr
    cases h
    have hrow : ∃ row ∈ db.repositories, row.id = r.id := Db.repositoryExists_iff.mp hr
    have heffect : DbEffect ids (some (r, d)) (db.insertBlob d size now)
        ((db.insertBlob d size now).linkBlob r.id d now) := .linkBlob hrow
    exact ⟨heffect.rows, heffect.keyed, heffect.links, heffect.known⟩
  · cases h

theorem DbEffect.mountBlob
    (h : db.mountBlob r.id d now = some db') : DbEffect ids (some (r, d)) db db' := by
  unfold Db.mountBlob at h
  split at h
  · rename_i hr
    cases h
    exact .linkBlob (Db.repositoryExists_iff.mp (Bool.and_eq_true_iff.mp hr).1)
  · cases h

theorem DbEffect.unlinkBlob {n : Nat}
    (h : db.unlinkBlob repo d = some (db', n)) : DbEffect ids target db db' := by
  unfold Db.unlinkBlob at h
  split at h
  · cases h
    exact .fewer rfl fun l hl => (mem_filter.mp hl).1
  · cases h

/-! ### Resolving a repository -/

/-- The repository a call of `resolveRepoForWrite` has in hand. -/
def ResolvePc.repository? : ResolvePc → Option Repository
  | .orgHasBlob r | .storageQuota r => some r
  | _ => none

def Resolved.repository? : Resolved → Option Repository
  | .more pc => pc.repository?
  | .repo r => some r
  | .answered _ => none

variable {org name : String}

theorem Db.getRepository_mem (h : db.getRepository org name = some r) : r ∈ db.repositories := by
  unfold Db.getRepository at h
  split at h
  · cases h
  · exact (find_some h).1

theorem DbEffect.ensureRepository {v : Visibility} {id : RepoId}
    (hnew : ∀ row ∈ db.repositories, row.id ≠ id) :
    DbEffect [id] target db (db.ensureRepository o name v id).1 ∧
      (db.ensureRepository o name v id).2 ∈ (db.ensureRepository o name v id).1.repositories := by
  unfold Db.ensureRepository
  split
  · rename_i r hr
    exact ⟨.refl db, (find_some hr).1⟩
  · refine ⟨⟨fun row hrow => ?_, fun h => h.append hnew, fun l hl => .inl hl, fun h l hl => ?_⟩, ?_⟩
    · rcases mem_append.mp hrow with hrow | hrow
      · exact .inl hrow
      · rw [mem_singleton.mp hrow]
        exact .inr (mem_singleton_self id)
    · obtain ⟨row, hrow, hid⟩ := h l hl
      exact ⟨row, mem_append_left _ hrow, hid⟩
    · exact mem_append_right _ (mem_singleton_self _)

variable {pc : ResolvePc} {a : Answer} {out : Resolved}

theorem ReadCall.repository (h : ReadCall db org name d pc a out)
    (hr : out.repository? = some r) : r ∈ db.repositories ∨ pc.repository? = some r := by
  cases h with
  | known row | there row =>
    cases hr
    exact .inl (Db.getRepository_mem row)
  | held | lacking | room => exact .inr hr
  | _ => cases hr

theorem resolveStep_effect (h : resolveStep db org name d pc a = some (db', out)) :
    DbEffect (generated (.answer a)) target db db' ∧
      ∀ r, out.repository? = some r → r ∈ db'.repositories ∨ pc.repository? = some r := by
  cases resolveStep_call h with
  | read reads => exact ⟨.refl db, fun r hr => reads.repository hr⟩
  | insert fresh =>
    obtain ⟨heffect, hmem⟩ := DbEffect.ensureRepository fresh
    refine ⟨heffect, fun r hr => ?_⟩
    split at hr
    · cases hr
      exact .inl hmem
    · cases hr

end effects

/-! ## Whoever links content has shown it

Content is stored once for all organizations, and a repository serves what it links. Uploads,
mounts and an organization's own downloads each demand the content before they link it. -/

open Transition

section possession

variable (hash : Bytes → Digest)

/-- The organization's side has shown that it has the content: uploaded it, mounted it
with a token that could pull it, or had it delivered by its upstream. -/
def HasShown (history : List Event) (o : OrgId) (d : Digest) : Prop :=
  (∃ c, Event.uploaded o c ∈ history ∧ hash c = d) ∨
    (∃ who, Event.mounted who o d ∈ history ∧ Event.pullable who d ∈ history) ∨
      ∃ c, Event.delivered o c ∈ history ∧ hash c = d

def hasShown (history : List Event) (o : OrgId) (d : Digest) : Bool :=
  history.any fun e =>
    match e with
    | .uploaded o' c => decide (o' = o ∧ hash c = d)
    | .mounted who o' d' => decide (o' = o ∧ d' = d) && history.contains (.pullable who d)
    | .delivered o' c => decide (o' = o ∧ hash c = d)
    | _ => false

variable {history : List Event}

theorem hasShown_iff : hasShown hash history o d = true ↔ HasShown hash history o d := by
  simp only [hasShown, any_eq_true]
  constructor
  · rintro ⟨e, he, hshows⟩
    cases e with
    | uploaded o' c =>
      simp only [decide_eq_true_eq] at hshows
      obtain ⟨rfl, hc⟩ := hshows
      exact .inl ⟨c, he, hc⟩
    | mounted who o' d' =>
      simp only [Bool.and_eq_true, decide_eq_true_eq, contains_iff_mem] at hshows
      obtain ⟨⟨rfl, rfl⟩, hpull⟩ := hshows
      exact .inr (.inl ⟨who, he, hpull⟩)
    | delivered o' c =>
      simp only [decide_eq_true_eq] at hshows
      obtain ⟨rfl, hc⟩ := hshows
      exact .inr (.inr ⟨c, he, hc⟩)
    | pullable who d' | served o' d' => cases hshows
  · rintro (⟨c, he, hc⟩ | ⟨who, he, hpull⟩ | ⟨c, he, hc⟩)
    · exact ⟨_, he, by simp [hc]⟩
    · exact ⟨_, he, by simp [hpull]⟩
    · exact ⟨_, he, by simp [hc]⟩

variable {hash}

theorem HasShown.mono {history' : List Event}
    (h : HasShown hash history o d) (hsub : ∀ e ∈ history, e ∈ history') :
    HasShown hash history' o d := by
  rcases h with ⟨c, he, hc⟩ | ⟨who, he, hpull⟩ | ⟨c, he, hc⟩
  · exact .inl ⟨c, hsub _ he, hc⟩
  · exact .inr (.inl ⟨who, hsub _ he, hsub _ hpull⟩)
  · exact .inr (.inr ⟨c, hsub _ he, hc⟩)

variable (hash)

/-- Every link is to content its organization has shown, and so is everything that was
served. -/
structure ContentShown (s : Registry) : Prop where
  links : ∀ l ∈ s.db.repositoryBlobs, ∀ row ∈ s.db.repositories, row.id = l.repositoryId →
    HasShown hash s.history row.orgId l.blobDigest
  served : ∀ o d, Event.served o d ∈ s.history → HasShown hash s.history o d

/-! ## The condition -/

/-- **The condition on a step.** Where a pull through the proxy cache finds the content
already known to some repository, or takes it from a download made for another
organization, the repository's organization has shown it before. -/
def takesShown (p : Pool Registry Task) : Move Task Reply RegistryEnv → Bool
  | .act i (.answer .ok) =>
    match p.tasks[i]? with
    | some (.blobGet rq (.blobExists r _)) =>
      (p.shared.db.blobExists rq.digest).isNone ||
        hasShown hash p.shared.history r.orgId rq.digest
    | some (.blobGet rq (.wait r call)) =>
      (p.shared.downloads[call]?).all (fun dl => decide (dl.px.orgId = r.orgId)) ||
        hasShown hash p.shared.history r.orgId rq.digest
    | _ => true
  | _ => true

abbrev TakesShown (p : Pool Registry Task) (m : Move Task Reply RegistryEnv) : Prop :=
  takesShown hash p m = true

end possession

/-! ## What a call does -/

def Task.target : Task → Option (Repository × Digest)
  | .content (.commit rq (.upsertBlob r)) => some (r, rq.expected)
  | .mount rq (.linkBlob r) => some (r, rq.digest)
  | .blobGet rq (.upsertBlob r _) => some (r, rq.digest)
  | _ => none

def Registry.callDigest (s : Registry) (i : Nat) : Option Digest :=
  (s.downloads[i]?).map Download.digest

structure RequestEffect (t : Task) (a : Reply) (s s' : Registry) : Prop where
  db : DbEffect (generated a) t.target s.db s'.db
  auth : s'.authDisabled = s.authDisabled
  downloads : ∀ dl ∈ s'.downloads, dl ∈ s.downloads ∨ dl.pc = .openBlob
  calls : ∀ i d, s.callDigest i = some d → s'.callDigest i = some d

section effects

variable {hash : Bytes → Digest} {t : Task} {a : Reply} {s s' : Registry}

theorem RequestEffect.refl (s : Registry) : RequestEffect t a s s :=
  ⟨.refl s.db, rfl, fun _ h => .inl h, fun _ _ h => h⟩

theorem RequestEffect.ofStorage {storage : Storage}
    (h : DbEffect (generated a) t.target s.db storage.db) :
    RequestEffect t a s { s with storage := storage } :=
  ⟨h, rfl, fun _ h => .inl h, fun _ _ h => h⟩

theorem RequestEffect.withDb {db : Db} (h : DbEffect (generated a) t.target s.db db) :
    RequestEffect t a s (s.withDb db) :=
  .ofStorage h

theorem RequestEffect.upsertManifest {m : Parsed}
    (h : s.upsertManifest repo m = some s') : RequestEffect t a s s' := by
  unfold Registry.upsertManifest at h
  split at h
  · cases h
    exact ⟨.other rfl rfl, rfl, fun _ h => .inl h, fun _ _ h => h⟩
  · cases h

end effects

end Chicoree.Registryd
