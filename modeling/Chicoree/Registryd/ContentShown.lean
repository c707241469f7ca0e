import Chicoree.Registryd.BlobContent
import Chicoree.Registryd.RequestEffects

/-! # Everything linked and served has been shown

Where the proxy cache only takes over what the organization has shown, so has every
repository that links or serves it, whatever runs at the same time. -/

namespace Chicoree.Registryd

open Transition List Option

section handlers

variable {hash : Bytes → Digest}

/-! ## Downloads and the surroundings -/

variable {s s' : Registry}

variable {dl : Download} {a : DownloadReply} {pc' : DownloadPc}

theorem downloadStep_sound (h : dl.Sound hash s.history)
    (hcall : downloadStep hash s dl dl.pc a = some (s', pc')) :
    pc'.Sound hash (s.history ++ observedDownload dl a) dl.px.orgId dl.digest := by
  have hold {e : Event} (he : e ∈ s.history) : e ∈ s.history ++ observedDownload dl a :=
    mem_append_left _ he
  unfold Download.Sound at h
  generalize hpc : dl.pc = pc at h hcall
  cases downloadStep_call hcall with
  | announced | unannounced => exact mem_append_right _ (mem_singleton_self _)
  | room => exact hold h
  | stagedLate digest | staged digest => exact ⟨hold h, digest⟩
  | lateRoom | stored | missing | put => exact ⟨hold h.1, h.2⟩
  | register => exact ⟨_, hold h.1, h.2⟩
  | _ => trivial

theorem downloadStep_storage {pc : DownloadPc}
    (hcall : downloadStep hash s dl pc a = some (s', pc')) :
    ∃ storage, s' = { s with storage := storage } ∧
      DbEffect [] none s.db storage.db := by
  cases downloadStep_call hcall with
  | put | putLost | register | registerLost => exact ⟨_, rfl, .other rfl rfl⟩
  | _ => exact ⟨s.storage, rfl, .refl s.db⟩

/-- What the surroundings do, downloads included. -/
structure EnvEffect (hash : Bytes → Digest) (s s' : Registry) : Prop where
  db : DbEffect [] none s.db s'.db
  issued : s'.issued = s.issued
  auth : s'.authDisabled = s.authDisabled
  history : ∀ e ∈ s.history, e ∈ s'.history
  served : ∀ o d, Event.served o d ∈ s'.history → Event.served o d ∈ s.history
  calls : ∀ i d, s.callDigest i = some d → s'.callDigest i = some d
  downloads : (∀ dl ∈ s.downloads, dl.Sound hash s.history) →
    ∀ dl ∈ s'.downloads, dl.Sound hash s'.history

theorem EnvEffect.extends (h : EnvEffect hash s s') : Extends s s' where
  rows row hrow := (h.db.rows row hrow).elim .inl nofun
  issued id hid := h.issued ▸ hid
  history := h.history
  auth := h.auth
  calls := h.calls

theorem EnvEffect.inv (h : EnvEffect hash s s') (hinv : RegistryInv hash s) :
    RegistryInv hash s' where
  issued row hrow := by
    rw [h.issued]
    exact (h.db.rows row hrow).elim (hinv.issued row) nofun
  keyed := h.db.keyed hinv.keyed
  known := h.db.known hinv.known
  downloads := h.downloads hinv.downloads
  shown := by
    refine ⟨fun l hl row hrow hid => ?_, fun o d hserved => ?_⟩
    · have hold : l ∈ s.db.repositoryBlobs :=
        (h.db.links l hl).elim id (fun ⟨r, d, htarget, _⟩ => by cases htarget)
      have hrow : row ∈ s.db.repositories :=
        (h.db.rows row hrow).elim id nofun
      exact (hinv.shown.links l hold row hrow hid).mono h.history
    · exact (hinv.shown.served o d (h.served o d hserved)).mono h.history

theorem EnvEffect.quiet (hdb : DbEffect [] none s.db s'.db)
    (hissued : s'.issued = s.issued) (hauth : s'.authDisabled = s.authDisabled)
    (hhistory : s'.history = s.history) (hdownloads : s'.downloads = s.downloads) :
    EnvEffect hash s s' where
  db := hdb
  issued := hissued
  auth := hauth
  history e he := hhistory ▸ he
  served o d h := hhistory ▸ h
  calls i d h := by
    unfold Registry.callDigest at h ⊢
    rw [hdownloads]
    exact h
  downloads h dl hdl := by
    rw [hhistory]
    exact h dl (hdownloads ▸ hdl)

theorem DbEffect.deleteRepository {ids : List RepoId} {target : Option (Repository × Digest)}
    {db db' : Db} {repo : RepoId}
    (hrows : db'.repositories = db.repositories.filter fun r => decide (r.id ≠ repo))
    (hlinks : db'.repositoryBlobs =
      db.repositoryBlobs.filter fun l => decide (l.repositoryId ≠ repo)) :
    DbEffect ids target db db' where
  rows row hrow := .inl (mem_of_mem_filter (hrows ▸ hrow))
  keyed h := by
    rw [hrows]
    exact h.filter _
  links l hl := .inl (mem_of_mem_filter (hlinks ▸ hl))
  known h l hl := by
    rw [hlinks, mem_filter, decide_eq_true_eq] at hl
    obtain ⟨row, hrow, hid⟩ := h l hl.1
    refine ⟨row, ?_, hid⟩
    rw [hrows, mem_filter, decide_eq_true_eq, hid]
    exact ⟨hrow, hl.2⟩

variable {i : Nat}

theorem downloadCall_effect (h : downloadCall hash s i a = some s') : EnvEffect hash s s' := by
  unfold downloadCall at h
  split at h
  · cases h
  · rename_i dl hdl
    obtain ⟨⟨s'', pc'⟩, hcall, h⟩ := map_eq_some_iff.mp h
    obtain ⟨storage, rfl, hdb⟩ := downloadStep_storage hcall
    cases h
    refine ⟨hdb, rfl, rfl, fun e he => mem_append_left _ he, fun o d hserved => ?_,
      fun j d hj => ?_, fun hsound x hx => ?_⟩
    · rcases mem_append.mp hserved with hserved | hserved
      · exact hserved
      · cases a <;> simp [observedDownload] at hserved
    · unfold Registry.callDigest at hj ⊢
      by_cases hij : i = j
      · subst hij
        rw [hdl] at hj
        have hlt := (List.getElem?_eq_some_iff.mp hdl).1
        rw [getElem?_set_self hlt]
        exact hj
      · rw [getElem?_set_ne hij]
        exact hj
    · rcases mem_or_eq_of_mem_set hx with hx | rfl
      · exact (hsound x hx).mono fun e he => mem_append_left _ he
      · exact downloadStep_sound (hsound dl (mem_of_getElem? hdl)) hcall

theorem registryEnv_effect {e : RegistryEnv}
    (h : registryEnv hash s e = some s') : EnvEffect hash s s' := by
  cases e with
  | tick t | proxies configuration =>
    cases h
    exact .quiet (.refl s.db) rfl rfl rfl rfl
  | deleteRepository repo =>
    simp only [registryEnv, blobEnv, map_some, Option.some.injEq] at h
    subst h
    exact .quiet (.deleteRepository rfl rfl) rfl rfl rfl rfl
  | deleteManifest repo d =>
    cases h
    exact .quiet (.other rfl rfl) rfl rfl rfl rfl
  | download i a => exact downloadCall_effect h

/-! ## Runs -/

variable {t : Task}

theorem fresh_asserts (h : t.fresh = true) : Asserts hash s t := by
  unfold Task.fresh at h
  split at h
  · rename_i t
    cases t with
    | commit rq pc =>
      cases pc with
      | stat => trivial
      | _ => cases h
    | _ => trivial
  · trivial
  · trivial
  · trivial
  · trivial
  · cases h

variable {t' : Task}

theorem requestAct_effect {a : Reply} (h : requestAct hash s i t a = some (s', t')) :
    ∃ s'', requestCall hash s i t a = some (s'', t') ∧ (∀ id ∈ generated a, id ∉ s.issued) ∧
      s' = { s'' with history := s.history ++ observed s t a
                      issued := s.issued ++ generated a } := by
  unfold requestAct at h
  split at h
  · cases h
  · rename_i hnew
    obtain ⟨⟨s'', t''⟩, hcall, h⟩ := map_eq_some_iff.mp h
    cases h
    refine ⟨s'', hcall, fun id hid hissued => hnew ?_, rfl⟩
    exact any_eq_true.mpr ⟨id, hid, contains_iff_mem.mpr hissued⟩

variable {fin : Registry}

theorem blobAct_asserts {t t' : BlobTask} {a : Answer}
    {storage : Storage} (hext : Extends s fin) (hinv : RegistryInv hash fin)
    (h : Asserts hash s (.content t))
    (hcall : blobAct hash s.storage i t a = some (storage, t')) (hdb : fin.db = storage.db) :
    Asserts hash fin (.content t') := by
  cases t with
  | commit rq pc => exact commitUpload_asserts hext hinv h hcall hdb
  | blobDelete org name d pc =>
    unfold blobAct handleBlobDelete at hcall
    cases t' with
    | commit rq pc => grind
    | _ => trivial
  | gc grace pc =>
    unfold blobAct handleGC at hcall
    cases t' with
    | commit rq pc => grind
    | _ => trivial
  | done status => cases hcall

theorem requestCall_asserts {p : Pool Registry Task}
    {a : Reply} (hext : Extends p.shared fin) (hinv : RegistryInv hash fin)
    (hnow : RegistryInv hash p.shared) (ht : p.tasks[i]? = some t)
    (h : Asserts hash p.shared t) (hc : TakesShown hash p (.act i a))
    (hcall : requestCall hash p.shared i t a = some (s', t'))
    (hfin : fin = { s' with history := p.shared.history ++ observed p.shared t a
                            issued := p.shared.issued ++ generated a }) :
    Asserts hash fin t' := by
  unfold requestCall at hcall
  split at hcall
  · obtain ⟨⟨storage, t''⟩, hout, hcall⟩ := map_eq_some_iff.mp hcall
    cases hcall
    exact blobAct_asserts hext hinv h hout (by rw [hfin])
  · obtain ⟨⟨s'', pc'⟩, hout, hcall⟩ := map_eq_some_iff.mp hcall
    cases hcall
    refine tryMount_asserts hext hinv h hout (by rw [hfin]) hext.auth fun e he => ?_
    rw [hfin]
    exact mem_append_right _ he
  · obtain ⟨⟨s'', pc'⟩, -, hcall⟩ := map_eq_some_iff.mp hcall
    cases hcall
    trivial
  · obtain ⟨⟨s'', pc'⟩, -, hcall⟩ := map_eq_some_iff.mp hcall
    cases hcall
    trivial
  · obtain ⟨⟨s'', pc'⟩, hout, hcall⟩ := map_eq_some_iff.mp hcall
    cases hcall
    refine handleBlobGet_asserts hext hnow h (fun r px ha hpc hknown => ?_)
      (fun r call dl ha hpc hdl horg => ?_) hout (fun j => by rw [hfin]; rfl)
    · subst ha hpc
      simp only [TakesShown, takesShown, ht, Bool.or_eq_true] at hc
      rcases hc with hnone | hshown
      · rw [isNone_iff_eq_none.mp hnone] at hknown
        cases hknown
      · exact (hasShown_iff hash).mp hshown
    · subst ha hpc
      simp only [TakesShown, takesShown, ht, hdl, all_some, Bool.or_eq_true,
        decide_eq_true_eq] at hc
      exact (hasShown_iff hash).mp (hc.resolve_left horg)
  · cases hcall

theorem shownOutline (hash : Bytes → Digest) :
    (registryProgram hash).Outline (TakesShown hash) (RegistryInv hash)
      (fun s _ t => Asserts hash s t) where
  init s h := by
    obtain ⟨hlinks, hdownloads, hhistory, hissued, hkeyed⟩ := h
    refine ⟨fun row hrow => ?_, hkeyed, fun l hl => ?_, fun dl hdl => ?_,
      fun l hl => ?_, fun o d hserved => ?_⟩
    · rw [hissued]
      exact mem_map_of_mem hrow
    · rw [hlinks] at hl
      cases hl
    · rw [hdownloads] at hdl
      cases hdl
    · rw [hlinks] at hl
      cases hl
    · rw [hhistory] at hserved
      cases hserved
  spawn p t _ _ hf := fresh_asserts hf
  act p i a t s' t' h hc ht ha := by
    obtain ⟨s'', hcall, hnew, hs⟩ := requestAct_effect ha
    have heffect := requestCall_effect hcall
    have hasserts := h.tasks i t ht
    have hext : Extends p.shared s' := hs ▸ heffect.extends hnew
    have hinv : RegistryInv hash s' := hs ▸ h.shared.step hasserts heffect hnew
    exact ⟨hinv, requestCall_asserts hext hinv h.shared ht hasserts hc hcall hs⟩
  interfere p i a t s' t' h hc ht ha j q _ hq := by
    obtain ⟨s'', hcall, hnew, hs⟩ := requestAct_effect ha
    have hext : Extends p.shared s' := hs ▸ (requestCall_effect hcall).extends hnew
    exact (h.tasks j q hq).mono hext
  env p e s' h _ he := by
    have heffect := registryEnv_effect he
    exact ⟨heffect.inv h.shared, fun j q hq => (h.tasks j q hq).mono heffect.extends⟩

/-- **Whatever a repository links or serves, its organization has shown.** In every run
in which the proxy cache takes over only content the repository's organization has
shown, in any order of uploads, mounts, pushes, pulls, downloads, deletes and garbage
collections. -/
theorem content_shown (hash : Bytes → Digest) {p : Pool Registry Task}
    (h : (registryProgram hash).machine.Run (TakesShown hash) p) :
    ContentShown hash p.shared :=
  ((shownOutline hash).run h).shared.shown

end handlers

/-! ## Replayed runs -/

def emptyDigest : Digest := sha256OfEmpty []

def acmeAndMirror : Registry where
  storage := { db := { organizations := [⟨"o1", "acme"⟩, ⟨"o2", "mirror"⟩]
                       repositories := [⟨"r1", "o1", "app", .«private»⟩] }
               driver := []
               now := 0 }
  issued := ["r1"]

def mirrorConfig : ProxyOrg := { orgId := "o2", slug := "mirror" }

def emptyConfigManifest : Parsed :=
  { digest := sha256OfEmpty [0], config := some emptyDigest }

def upload : Task := .content (.commit ⟨"acme", "app", emptyDigest, ⟨[], 0⟩⟩ .stat)

def mirrorManifest : Task := .manifestGet ⟨"mirror", "app", .tag "latest"⟩ .getRepository

def mirrorBlob : Task := .blobGet ⟨"mirror", "app", emptyDigest⟩ .getRepository

def replies (i n : Nat) : List (Move Task Reply RegistryEnv) :=
  List.replicate n (.act i (.answer .ok))

def fetchManifest (i : Nat) : List (Move Task Reply RegistryEnv) :=
  .spawn mirrorManifest :: replies i 2 ++ [.act i (.manifest emptyConfigManifest)] ++
    replies i 2 ++ [.act i (.answer (.visibility .«private»)), .act i (.answer .ok)] ++
      replies i 2 ++ [.act i (.answer (.fresh "r2" true))] ++ replies i 3

def ownDownload : List (Move Task Reply RegistryEnv) :=
  .env (.proxies [mirrorConfig]) :: fetchManifest 0 ++ .spawn mirrorBlob :: replies 1 5 ++
      [.env (.download 0 (.body [] none)), .env (.download 0 (.answer .ok)),
        .env (.download 0 (.answer .ok)), .env (.download 0 (.answer .ok)),
        .env (.download 0 (.answer .ok)), .env (.download 0 (.answer .ok))] ++ replies 1 5

theorem content_shown_mirror :
    ∃ p, (registryProgram sha256OfEmpty).machine.Run (TakesShown sha256OfEmpty) p ∧
      Event.served "o2" emptyDigest ∈ p.shared.history ∧
      ContentShown sha256OfEmpty p.shared := by
  obtain ⟨p, hp⟩ : ∃ p, (registryProgram sha256OfEmpty).machine.replay
      (TakesShown sha256OfEmpty) ⟨acmeAndMirror, []⟩ ownDownload = some p := ⟨_, rfl⟩
  have hrun : (registryProgram sha256OfEmpty).machine.Run (TakesShown sha256OfEmpty) p :=
    Machine.run_of_replay ⟨⟨rfl, rfl, rfl, rfl, by decide⟩, rfl⟩ hp
  refine ⟨p, hrun, ?_, content_shown sha256OfEmpty hrun⟩
  cases hp
  decide

/-- One organization uploads the content to a private repository; a mirror whose
upstream names the digest in a manifest is served it. -/
def servedFromAcme : List (Move Task Reply RegistryEnv) :=
  .spawn upload :: replies 0 6 ++ .env (.proxies [mirrorConfig]) :: fetchManifest 1 ++
    .spawn mirrorBlob :: replies 2 8

theorem mirror_serves_unseen_content : ∃ p, (registryProgram sha256OfEmpty).machine.Reachable p ∧
      p.tasks.getLast? = some (.blobGet ⟨"mirror", "app", emptyDigest⟩ (.done 200)) ∧
      p.shared.history = [.uploaded "o1" [], .served "o2" emptyDigest] ∧
      ¬ ContentShown sha256OfEmpty p.shared := by
  obtain ⟨p, hp⟩ : ∃ p, (registryProgram sha256OfEmpty).machine.replay (fun _ _ => True)
      ⟨acmeAndMirror, []⟩ servedFromAcme = some p := ⟨_, rfl⟩
  have hrun : (registryProgram sha256OfEmpty).machine.Reachable p :=
    Machine.run_of_replay ⟨⟨rfl, rfl, rfl, rfl, by decide⟩, rfl⟩ hp
  have hhistory : p.shared.history = [.uploaded "o1" [], .served "o2" emptyDigest] := by
    cases hp
    rfl
  refine ⟨p, hrun, by cases hp; rfl, hhistory, fun h => ?_⟩
  have hshown := h.served "o2" emptyDigest (by simp [hhistory])
  rw [hhistory] at hshown
  exact absurd ((hasShown_iff sha256OfEmpty).mpr hshown) (by decide)

/-! ## Manifests and what they name

A push looks up everything its manifest names and then inserts the manifest with its
references. Blob deletes and garbage collections decide by the references alone, so that
between a look-up and its insert nothing protects what was found.

Beside the registry the state keeps what its manifest rows say: a row holds the payload of
the request that wrote it last. Rows that the proxy cache wrote are kept apart; its blobs
are fetched when they are asked for. -/

structure Indexed where
  registry : Registry
  /-- For each row that a push wrote, its repository and its manifest. -/
  contents : List (RepoId × Parsed) := []
  /-- The rows that the proxy cache wrote. -/
  cached : List ManifestRow := []

def rowOf (repo : RepoId) (m : Parsed) : ManifestRow := ⟨repo, m.digest⟩

/-- The manifest that the next call of a request writes, into which repository, and whether
a push writes it. -/
def Task.writes : Task → Option (RepoId × Parsed × Bool)
  | .manifestPut rq (.upsertManifest r) => some (r.id, rq.manifest, true)
  | .manifestGet _ (.upsertManifest m r) => some (r.id, m, false)
  | _ => none

namespace Indexed

def written (s : Indexed) (repo : RepoId) (m : Parsed) (pushed : Bool) (registry : Registry) :
    Indexed :=
  let others := s.contents.filter fun c => decide (rowOf c.1 c.2 ≠ rowOf repo m)
  let cached := s.cached.filter fun row => decide (row ≠ rowOf repo m)
  if pushed then ⟨registry, others ++ [(repo, m)], cached⟩
  else ⟨registry, others, cached ++ [rowOf repo m]⟩

def after (s : Indexed) (t : Task) (a : Reply) (registry : Registry) : Indexed :=
  match t.writes with
  | some (repo, m, pushed) =>
    if a ≠ .answer .failed ∧ s.registry.db.repositoryExists repo = true then
      s.written repo m pushed registry
    else { s with registry := registry }
  | none => { s with registry := registry }

end Indexed

def indexedProgram (hash : Bytes → Digest) : Program Indexed Task Reply RegistryEnv where
  init s := emptyContent s.registry ∧ s.registry.manifests = [] ∧ s.contents = [] ∧ s.cached = []
  fresh := Task.fresh
  act s i t a := (requestAct hash s.registry i t a).map fun out => (s.after t a out.1, out.2)
  env s e := (registryEnv hash s.registry e).map fun registry => { s with registry := registry }

abbrev indexedRegistry (hash : Bytes → Digest) :
    Machine (Pool Indexed Task) (Move Task Reply RegistryEnv) :=
  (indexedProgram hash).machine

def Db.Linked (db : Db) (repo : RepoId) (d : Digest) : Prop :=
  ∃ l ∈ db.repositoryBlobs, l.repositoryId = repo ∧ l.blobDigest = d

/-- Some manifest of the repository names the digest: a blob delete is answered with 409,
and the garbage collection leaves the link. -/
def Db.Protected (db : Db) (repo : RepoId) (d : Digest) : Prop :=
  db.blobManifestRefs repo d ≠ 0

/-- Every manifest row that a push wrote last has its config and its layers linked in its
repository, foreign layers apart, and its children protected. -/
structure ManifestClosure (s : Indexed) : Prop where
  recorded : ∀ row ∈ s.registry.manifests, row ∉ s.cached → ∃ c ∈ s.contents, rowOf c.1 c.2 = row
  one : ∀ c ∈ s.contents, ∀ c' ∈ s.contents, rowOf c.1 c.2 = rowOf c'.1 c'.2 → c = c'
  blobs : ∀ c ∈ s.contents, rowOf c.1 c.2 ∈ s.registry.manifests → ∀ d ∈ c.2.blobs,
    s.registry.db.Linked c.1 d
  children : ∀ c ∈ s.contents, rowOf c.1 c.2 ∈ s.registry.manifests → ∀ d ∈ c.2.children,
    s.registry.db.Protected c.1 d

/-! ## When it holds -/

/-- The push has found the blob in the repository, and has not yet inserted its
manifest. -/
def Task.found : Task → RepoId → Digest → Bool
  | .manifestPut rq (.blobs r todo), repo, d =>
    decide (r.id = repo) &&
      (rq.manifest.blobs.take (rq.manifest.blobs.length - todo.length)).contains d
  | .manifestPut rq (.children r _), repo, d | .manifestPut rq (.upsertManifest r), repo, d =>
    decide (r.id = repo) && rq.manifest.blobs.contains d
  | _, _, _ => false

def Task.unlinks (s : Registry) : Task → RepositoryBlob → Bool
  | .content (.blobDelete _ _ d (.unlink r)), l =>
    decide (l.repositoryId = r.id ∧ l.blobDigest = d)
  | .content (.gc grace .unlinkGarbage), l =>
    !(s.db.unlinkGarbage (s.storage.now - grace)).repositoryBlobs.contains l
  | _, _ => false

/-- No manifest of the repository names the blob of a link, and no running push has found
it. -/
def unneeded (p : Pool Indexed Task) (l : RepositoryBlob) : Bool :=
  decide (p.shared.registry.db.blobManifestRefs l.repositoryId l.blobDigest = 0) &&
    p.tasks.all fun t => !t.found l.repositoryId l.blobDigest

/-- **The condition on a step.** A blob delete or garbage collection drops a link only
where no manifest names the blob and no running push has found it. -/
def dropsUnneeded (p : Pool Indexed Task) : Move Task Reply RegistryEnv → Bool
  | .act i a =>
    match p.tasks[i]? with
    | some t => decide (a = .answer .failed) ||
        p.shared.registry.db.repositoryBlobs.all fun l =>
          !t.unlinks p.shared.registry l || unneeded p l
    | none => true
  | _ => true

abbrev DropsUnneeded (p : Pool Indexed Task) (m : Move Task Reply RegistryEnv) : Prop :=
  dropsUnneeded p m = true

end Chicoree.Registryd
