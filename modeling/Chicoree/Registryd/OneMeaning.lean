import Mathlib.Logic.Relation
import Chicoree.Registryd.CommittedBlob
import Chicoree.Registryd.PushEffects

/-! # One payload, one meaning

What an accepted push of a manifest stores: the columns and references its media type gives the
payload, except that a known manifest keeps its config digest. -/

namespace Chicoree.Registryd

open Transition List Manifest PushTables

/-! ## Parsing under two headers -/

variable {mt contentType : String}

namespace Manifest

def Named (payload : Option JsonDoc) : Prop :=
  ∃ raw, payload.bind unmarshal = some raw ∧ raw.mediaType ≠ ""

variable {p : Parsed}

theorem readFields_mediaType {raw : RawManifest} (h : readFields mt raw = .ok p) :
    p.mediaType = mt := by
  unfold readFields at h
  split at h
  · split at h <;> cases h
    rfl
  · split at h
    · split at h
      · cases h
      · split at h <;> cases h
        rfl
    · cases h

variable {payload : Option JsonDoc}

theorem parse_ok (h : parse contentType payload = .ok p) :
    ∃ raw, payload.bind unmarshal = some raw ∧ (raw.mediaType ≠ "" → p.mediaType = raw.mediaType) ∧
      readFields p.mediaType raw = .ok p := by
  unfold parse at h
  split at h
  · cases h
  · rename_i raw hraw
    dsimp only at h
    split at h
    · cases h
    · rename_i hmatch
      split at h
      · cases h
      · rename_i p' hfields
        split at h <;> cases h
        have hmt := readFields_mediaType hfields
        refine ⟨raw, hraw, fun hnamed => ?_, by rw [hmt]; exact hfields⟩
        rw [hmt]
        by_contra hne
        exact hmatch ⟨hnamed, hne⟩

variable {ct ct' : String} {p' : Parsed}

theorem parse_unique (h : parse ct payload = .ok p) (h' : parse ct' payload = .ok p')
    (hmt : p'.mediaType = p.mediaType) : p' = p := by
  obtain ⟨raw, hraw, -, hp⟩ := parse_ok h
  obtain ⟨raw', hraw', -, hp'⟩ := parse_ok h'
  have hr : raw' = raw := Option.some.inj (hraw'.symm.trans hraw)
  rw [hr, hmt, hp] at hp'
  exact (Except.ok.inj hp').symm

theorem Named.parse_mediaType (hnamed : Named payload) (h : parse ct payload = .ok p)
    (h' : parse ct' payload = .ok p') :
    p'.mediaType = p.mediaType := by
  obtain ⟨raw, hraw, hne⟩ := hnamed
  obtain ⟨raw₁, hraw₁, hmt, -⟩ := parse_ok h
  obtain ⟨raw₂, hraw₂, hmt', -⟩ := parse_ok h'
  have h₁ : raw₁ = raw := Option.some.inj (hraw₁.symm.trans hraw)
  have h₂ : raw₂ = raw := Option.some.inj (hraw₂.symm.trans hraw)
  subst h₁ h₂
  rw [hmt hne, hmt' hne]

end Manifest

/-! ## What an accepted push stores -/

def Manifest.key (m : Manifest) : RepoId × Digest := (m.repositoryId, m.digest)

def PushTables.findManifest (t : PushTables) (repo : RepoId) (d : Digest) : Option Manifest :=
  Table.find key (repo, d) t.manifests

def PushTables.refersTo (t : PushTables) (repo : RepoId) (d ref : Digest) : Prop :=
  ⟨repo, d, ref⟩ ∈ t.db.manifestRefs

theorem find_upsertRow (row : Manifest) (rows : List Manifest) :
    Table.find key row.key (upsertRow row rows) =
      some (match Table.find key row.key rows with
        | some m => overwrite row m
        | none => row) := by
  unfold upsertRow
  split
  · rename_i hthere
    let f : Manifest → Manifest := fun m =>
      if m.repositoryId = row.repositoryId ∧ m.digest = row.digest then
        overwrite row m
      else m
    have hkey : ∀ m, (f m).key = m.key := by
      intro m
      show (if _ then _ else _ : Manifest).key = m.key
      split <;> rfl
    have hfind := @Table.find_map _ _ _ key f hkey row.key rows
    refine hfind.trans ?_
    cases hrow : Table.find key row.key rows with
    | none =>
      obtain ⟨m, hm, hk⟩ := any_eq_true.mp hthere
      have hk := of_decide_eq_true hk
      exact absurd (Prod.ext hk.1 hk.2) (Table.find_none hrow hm)
    | some m =>
      have hk : m.repositoryId = row.repositoryId ∧ m.digest = row.digest :=
        Prod.mk.inj (Table.find_some hrow).2
      exact congrArg some (if_pos hk)
  · rename_i hnone
    have hrow : Table.find key row.key rows = none := by
      refine find?_eq_none.mpr fun m hm hk => hnone (any_eq_true.mpr ⟨m, hm, ?_⟩)
      simpa [key] using hk
    rw [hrow]
    unfold Table.find at hrow ⊢
    rw [find?_append, hrow]
    simp

variable {p : Manifest.Parsed}

section puts

variable (hash : Bytes → Digest) (json : Bytes → Option JsonDoc)

structure StoredAs (t₀ t : PushTables) (rq : ManifestPush) (p : Manifest.Parsed)
    (r : Repository) : Prop where
  repository : t.db.getRepository rq.org rq.name = some r
  manifests : t.manifests = upsertRow (rq.row hash p r.id) t₀.manifests
  references : t.db.manifestRefs =
    rewriteRefs r.id (hash rq.payload) p.references t₀.db.manifestRefs

/-- The manifest tables are as they were, and a repository that was there still is. -/
structure NotStored (t₀ t : PushTables) (org name : String) : Prop where
  manifests : t.manifests = t₀.manifests
  references : t.db.manifestRefs = t₀.db.manifestRefs
  repository : ∀ r, t₀.db.getRepository org name = some r → t.db.getRepository org name = some r

/-- How far an accepted push of a manifest has come. -/
def PutInv (t₀ t : PushTables) (rq : ManifestPush) : PushTask → Prop
  | .manifest rq' .start => rq' = rq ∧ NotStored t₀ t rq.org rq.name
  | .manifest rq' (.resolve p pc) => rq' = rq ∧ NotStored t₀ t rq.org rq.name ∧
      parse rq.contentType (json rq.payload) = .ok p ∧
        Resolving t.db rq.org rq.name pc ∧ Known t.db rq.org rq.name pc
  | .manifest rq' (.checkTagImmutable p r) | .manifest rq' (.blobs p r _)
  | .manifest rq' (.children p r _) | .manifest rq' (.upsertManifest p r) =>
    rq' = rq ∧ NotStored t₀ t rq.org rq.name ∧
      parse rq.contentType (json rq.payload) = .ok p ∧
        t.db.getRepository rq.org rq.name = some r
  | .manifest rq' (.upsertTagGuarded p r) => rq' = rq ∧
      (∀ r₀, t₀.db.getRepository rq.org rq.name = some r₀ → r₀ = r) ∧
        parse rq.contentType (json rq.payload) = .ok p ∧ StoredAs hash t₀ t rq p r
  | .done status => status = 201 → ∃ p r,
      (∀ r₀, t₀.db.getRepository rq.org rq.name = some r₀ → r₀ = r) ∧
        parse rq.contentType (json rq.payload) = .ok p ∧ StoredAs hash t₀ t rq p r
  | .commit _ _ => False

variable {hash json}

variable {t t' : PushTables}

variable {org name : String} {d : Digest} {pc : ResolvePc} {a : Answer} {out : Resolved}

theorem pushResolve_resolving (hpc : Resolving t.db org name pc)
    (h : pushResolve t org name d pc a = some (t', out)) :
    out.Ok t'.db org name ∧ t'.manifests = t.manifests ∧
      t'.db.manifestRefs = t.db.manifestRefs := by
  unfold pushResolve at h
  cases hr : resolveStep t.db org name d pc a with
  | none => simp [hr] at h
  | some res =>
    obtain ⟨db, out'⟩ := res
    have hout := resolveStep_resolving hpc hr
    obtain ⟨repositories, rfl⟩ := resolveStep_rest hr
    rw [hr] at h
    dsimp only at h
    split at h <;> cases h <;> exact ⟨hout, rfl, rfl⟩

variable {t₀ : PushTables}

theorem NotStored.resolve (h : NotStored t₀ t org name)
    (hpc : Resolving t.db org name pc) (hknown : Known t.db org name pc)
    (hcall : pushResolve t org name d pc a = some (t', out)) : NotStored t₀ t' org name := by
  obtain ⟨-, hmanifests, hrefs⟩ := pushResolve_resolving hpc hcall
  refine ⟨hmanifests.trans h.manifests, hrefs.trans h.references, fun r hr => ?_⟩
  have hthere := h.repository r hr
  rcases pushResolve_cases hknown hcall with ⟨hread, -, -⟩ | ⟨-, hnone, -, -⟩
  · rw [hread.db]
    exact hthere
  · rw [hnone] at hthere
    cases hthere

variable {rq : ManifestPush} {r : Repository}

theorem NotStored.store (h : NotStored t₀ t rq.org rq.name)
    (hr : t.db.getRepository rq.org rq.name = some r)
    (hup : t.upsertManifest (rq.row hash p r.id) p.references = some t') :
    (∀ r₀, t₀.db.getRepository rq.org rq.name = some r₀ → r₀ = r) ∧ StoredAs hash t₀ t' rq p r := by
  refine ⟨fun r₀ hr₀ => ?_, ?_⟩
  · exact Option.some.inj ((h.repository r₀ hr₀).symm.trans hr)
  · unfold upsertManifest at hup
    split at hup <;> cases hup
    refine ⟨hr, ?_, ?_⟩
    · rw [h.manifests]
    · rw [h.references]
      rfl

theorem PutInv.step {task task' : PushTask} (h : PutInv hash json t₀ t rq task)
    (hcall : pushCall hash json t task a = some (t', task')) :
    PutInv hash json t₀ t' rq task' := by
  cases task with
  | commit rq' pc => exact h.elim
  | done status => simp [pushCall] at hcall
  | manifest rq' pc =>
    simp only [pushCall] at hcall
    cases pc with
    | start =>
      obtain ⟨rfl, h⟩ := h
      cases a <;> simp only [pushManifest, reduceCtorEq] at hcall
      case failed =>
        cases hcall
        exact nofun
      case ok =>
        split at hcall
        · rename_i status hread
          cases hcall
          rintro rfl
          unfold readPush at hread
          split at hread
          · cases hread
          · split at hread
            · cases hread
            · split at hread <;> cases hread
        · rename_i p hread
          cases hcall
          refine ⟨rfl, h, ?_, trivial, trivial⟩
          unfold readPush at hread
          split at hread
          · cases hread
          · split at hread
            · cases hread
            · split at hread <;> cases hread
              assumption
    | resolve p pc =>
      obtain ⟨rfl, h, hparse, hpc, hknown⟩ := h
      simp only [pushManifest] at hcall
      cases hr : pushResolve t rq'.org rq'.name (hash rq'.payload) pc a with
      | none => simp [hr] at hcall
      | some out =>
        obtain ⟨t₁, out⟩ := out
        have h' := h.resolve hpc hknown hr
        obtain ⟨hout, -, -⟩ := pushResolve_resolving hpc hr
        rw [hr] at hcall
        cases out with
        | more pc' =>
          cases hcall
          refine ⟨rfl, h', hparse, hout, ?_⟩
          rcases pushResolve_cases hknown hr with ⟨-, -, hk⟩ | ⟨-, -, -, hmore⟩
          · exact hk
          · exact absurd rfl (hmore pc')
        | answered status =>
          cases hcall
          exact fun h => absurd h hout
        | repo r =>
          cases hcall
          split <;> exact ⟨rfl, h', hparse, hout⟩
    | checkTagImmutable p r =>
      cases a <;> simp only [pushManifest, reduceCtorEq] at hcall
      case failed =>
        cases hcall
        exact nofun
      case ok =>
        split at hcall <;> cases hcall
        · exact nofun
        · exact h
    | blobs p r todo | children p r todo =>
      cases todo <;> cases a <;> simp only [pushManifest, reduceCtorEq] at hcall
      case nil.ok =>
        cases hcall
        exact h
      case cons.failed =>
        cases hcall
        exact nofun
      case cons.ok =>
        split at hcall <;> cases hcall
        · exact h
        · exact nofun
    | upsertManifest p r =>
      obtain ⟨rfl, h, hparse, hr⟩ := h
      cases a <;> simp only [pushManifest, reduceCtorEq] at hcall
      case failed =>
        cases hcall
        exact nofun
      case ok =>
        split at hcall
        · rename_i t₁ hup
          obtain ⟨hsame, hstored⟩ := h.store hr hup
          cases hcall
          split
          · exact ⟨rfl, hsame, hparse, hstored⟩
          · exact fun _ => ⟨p, r, hsame, hparse, hstored⟩
        · cases hcall
          exact nofun
      case lost =>
        obtain ⟨t₁, -, hcall⟩ := Option.map_eq_some_iff.mp hcall
        cases hcall
        exact nofun
    | upsertTagGuarded p r =>
      obtain ⟨rfl, hsame, hparse, hstored⟩ := h
      cases a <;> simp only [pushManifest, reduceCtorEq] at hcall
      case failed =>
        cases hcall
        exact nofun
      case ok =>
        split at hcall <;> cases hcall
        · exact nofun
        · exact nofun
        · rename_i hwritten
          unfold upsertTagGuarded at hwritten
          split at hwritten
          · cases hwritten
          · split at hwritten <;> cases hwritten
            exact fun _ => ⟨p, r, hsame, hparse,
              ⟨hstored.repository, hstored.manifests, hstored.references⟩⟩
      case lost =>
        split at hcall
        · cases hcall
          exact nofun
        · cases hcall

/-! ## Sequences of pushes -/

/-- A push of the payload that runs alone is answered with 201, read under a media
type. -/
def AcceptedPut (hash : Bytes → Digest) (json : Bytes → Option JsonDoc) (payload : Bytes)
    (org name : String) (t : PushTables) (mt : String) (t' : PushTables) : Prop :=
  ∃ rq answers p, rq.payload = payload ∧ rq.org = org ∧ rq.name = name ∧
    parse rq.contentType (json payload) = .ok p ∧ p.mediaType = mt ∧
      pushAlone hash json t (.manifest rq .start) answers = some (t', .done 201)

/-- Any number of accepted pushes of the payload, under any headers. -/
def AcceptedPuts (hash : Bytes → Digest) (json : Bytes → Option JsonDoc) (payload : Bytes)
    (org name : String) : PushTables → PushTables → Prop :=
  Relation.ReflTransGen fun t t' => ∃ mt, AcceptedPut hash json payload org name t mt t'

theorem AcceptedPut.stored {payload : Bytes} (h : AcceptedPut hash json payload org name t mt t') :
    ∃ rq p r, rq.payload = payload ∧ rq.org = org ∧ rq.name = name ∧
      parse rq.contentType (json payload) = .ok p ∧ p.mediaType = mt ∧
        (∀ r₀, t.db.getRepository org name = some r₀ → r₀ = r) ∧ StoredAs hash t t' rq p r := by
  obtain ⟨rq, answers, p, rfl, rfl, rfl, hparse, hmt, hrun⟩ := h
  have hinv : PutInv hash json t t' rq (.done 201) := by
    refine alone_invariant (I := fun s task => PutInv hash json t s rq task) ?_ ?_ hrun
    · intro s task a s' task' hs hcall
      exact hs.step hcall
    · exact ⟨rfl, rfl, rfl, fun r hr => hr⟩
  obtain ⟨p', r, hsame, hparse', hstored⟩ := hinv rfl
  have hp : p' = p := Except.ok.inj (hparse'.symm.trans hparse)
  subst hp
  exact ⟨rq, p', r, rfl, rfl, rfl, hparse, hmt, hsame, hstored⟩

/-- The stored manifest of the payload has these columns and references. -/
structure Means (hash : Bytes → Digest) (payload : Bytes) (org name : String)
    (t : PushTables) (r : Repository) (p : Manifest.Parsed) (config : Option Digest) :
    Prop where
  repository : t.db.getRepository org name = some r
  row : ∃ m, t.findManifest r.id (hash payload) = some m ∧ m.mediaType = p.mediaType ∧
    m.artifactType = nullIf p.artifactType ∧
      m.subjectDigest = (p.subject.bind fun s => nullIf s.digest) ∧ m.configDigest = config
  references : ∀ ref, t.refersTo r.id (hash payload) ref ↔ ref ∈ p.references

/-- What an accepted push leaves: the columns of its media type, and the config digest that
was recorded first. -/
theorem StoredAs.means (h : StoredAs hash t t' rq p r) :
    Means hash rq.payload rq.org rq.name t' r p
      (match t.findManifest r.id (hash rq.payload) with
        | some m => m.configDigest
        | none => p.config.bind fun c => nullIf c.digest) := by
  refine ⟨h.repository, ?_, fun ref => ?_⟩
  · have hfind := find_upsertRow (rq.row hash p r.id) t.manifests
    rw [← h.manifests] at hfind
    refine ⟨_, hfind, ?_⟩
    show _ ∧ _ ∧ _ ∧ _ = match Table.find key (r.id, hash rq.payload) t.manifests with
      | some m => m.configDigest
      | none => _
    cases hrow : Table.find key (r.id, hash rq.payload) t.manifests with
    | some m =>
      have hrow' : Table.find key (rq.row hash p r.id).key t.manifests = some m := hrow
      rw [hrow']
      exact ⟨rfl, rfl, rfl, rfl⟩
    | none =>
      have hrow' : Table.find key (rq.row hash p r.id).key t.manifests = none := hrow
      rw [hrow']
      exact ⟨rfl, rfl, rfl, rfl⟩
  · unfold refersTo
    rw [h.references]
    exact mem_rewriteRefs.trans (by simp)

variable {config : Option Digest}

theorem AcceptedPut.means {payload : Bytes} (hmeans : Means hash payload org name t r p config)
    (h : AcceptedPut hash json payload org name t mt t') :
    ∃ ct p', parse ct (json payload) = .ok p' ∧ p'.mediaType = mt ∧
      Means hash payload org name t' r p' config := by
  obtain ⟨rq, p', r', rfl, rfl, rfl, hparse, hmt, hsame, hstored⟩ := h.stored
  have hr : r = r' := hsame r hmeans.repository
  subst hr
  obtain ⟨m, hm, -, -, -, hconfig⟩ := hmeans.row
  have h' := hstored.means
  rw [hm] at h'
  dsimp only at h'
  rw [hconfig] at h'
  exact ⟨rq.contentType, p', hparse, hmt, h'⟩

theorem AcceptedPuts.means {payload : Bytes} (hmeans : Means hash payload org name t r p config)
    (h : AcceptedPuts hash json payload org name t t') :
    ∃ p', Means hash payload org name t' r p' config := by
  induction h with
  | refl => exact ⟨p, hmeans⟩
  | tail _ hput ih =>
    obtain ⟨p', hp'⟩ := ih
    obtain ⟨mt, hput⟩ := hput
    obtain ⟨-, p'', -, -, hp''⟩ := hput.means hp'
    exact ⟨p'', hp''⟩

/-- The manifest of the payload means the same in both states: repository, media type,
artifact type, subject, config digest and references. -/
def SameMeaning (hash : Bytes → Digest) (payload : Bytes) (org name : String)
    (t t' : PushTables) : Prop :=
  ∃ r p config, Means hash payload org name t r p config ∧ Means hash payload org name t' r p config

/-- **One payload, one meaning.** A payload that names its media type is accepted under no
other; and after every accepted push under the media type of the first, or of such a
payload, the manifest means what it meant after the first. -/
theorem manifest_keeps_its_meaning (payload : Bytes) (org name : String) :
    (Manifest.Named (json payload) → ∀ ct ct' p p',
        parse ct (json payload) = .ok p → parse ct' (json payload) = .ok p' →
          p' = p) ∧
      ∀ t₀ t₁ t₂ t mt mt', AcceptedPut hash json payload org name t₀ mt t₁ →
        AcceptedPuts hash json payload org name t₁ t₂ →
          AcceptedPut hash json payload org name t₂ mt' t →
            (mt' = mt ∨ Manifest.Named (json payload)) →
              SameMeaning hash payload org name t₁ t := by
  refine ⟨fun hnamed ct ct' p p' hp hp' => ?_, ?_⟩
  · exact parse_unique hp hp' (hnamed.parse_mediaType hp hp')
  · intro t₀ t₁ t₂ t mt mt' hfirst hlater hlast hmt
    obtain ⟨rq, p, r, rfl, rfl, rfl, hparse, hp, -, hstored⟩ := hfirst.stored
    obtain ⟨p₂, h₂⟩ := hlater.means hstored.means
    obtain ⟨ct, p', hparse', hp', h'⟩ := hlast.means h₂
    have hsame : p'.mediaType = p.mediaType := by
      rcases hmt with rfl | hnamed
      · rw [hp, hp']
      · exact hnamed.parse_mediaType hparse hparse'
    rw [parse_unique hparse hparse' hsame] at h'
    exact ⟨r, p, _, hstored.means, h'⟩

end puts

/-! ## Two pushes of one payload -/

def text (s : String) : JsonDoc := .str (.ofString s)

def emptyConfig : JsonDoc :=
  .obj [("mediaType", text ociImageConfig), ("digest", text (sha256OfEmpty [])),
    ("size", .int 0)]

def unnamedImage : JsonDoc :=
  .obj [("schemaVersion", .int 2), ("config", emptyConfig), ("layers", .arr [])]

def namedImage : JsonDoc :=
  .obj [("schemaVersion", .int 2), ("mediaType", text mediaTypeOCIManifest),
    ("config", emptyConfig), ("layers", .arr [])]

def acmeWithConfig : PushTables where
  storage := { acme with
    db := { acme.db with
      blobs := [⟨sha256OfEmpty [], 0, 0⟩]
      repositoryBlobs := [⟨"r1", sha256OfEmpty [], 0⟩] } }

def latest (contentType : String) : ManifestPush :=
  ⟨"acme", "app", "latest", contentType, [0], "alice"⟩

theorem AcceptedPut.of_run {json : Bytes → Option JsonDoc} {t t' : PushTables}
    {answers : List Answer}
    (hparse : parse contentType (json [0]) = .ok p)
    (hrun : pushAlone sha256OfEmpty json t (.manifest (latest contentType) .start) answers =
      some (t', .done 201)) :
    AcceptedPut sha256OfEmpty json [0] "acme" "app" t p.mediaType t' :=
  ⟨latest contentType, answers, p, rfl, rfl, rfl, hparse, rfl, hrun⟩

def imageOf : Manifest.Parsed where
  mediaType := mediaTypeOCIManifest
  artifactType := ""
  config := some { mediaType := ociImageConfig, digest := sha256OfEmpty [] }

def indexOf : Manifest.Parsed where
  mediaType := mediaTypeOCIIndex
  artifactType := ""
  isIndex := true

def imagePut : List Answer := List.replicate 10 .ok

theorem manifest_keeps_its_meaning_acme :
    ∃ t₁ t, AcceptedPut sha256OfEmpty (fun _ => some namedImage) [0] "acme" "app"
        acmeWithConfig mediaTypeOCIManifest t₁ ∧
      AcceptedPut sha256OfEmpty (fun _ => some namedImage) [0] "acme" "app" t₁
        mediaTypeOCIManifest t ∧
      SameMeaning sha256OfEmpty [0] "acme" "app" t₁ t := by
  obtain ⟨t₁, hrun₁⟩ : ∃ t₁, pushAlone sha256OfEmpty (fun _ => some namedImage)
      acmeWithConfig (.manifest (latest mediaTypeOCIManifest) .start) imagePut =
        some (t₁, .done 201) := ⟨_, rfl⟩
  obtain ⟨t, hrun⟩ : ∃ t, pushAlone sha256OfEmpty (fun _ => some namedImage) t₁
      (.manifest (latest "") .start) imagePut = some (t, .done 201) := by
    cases hrun₁
    exact ⟨_, rfl⟩
  have hfirst := AcceptedPut.of_run (p := imageOf) rfl hrun₁
  have hlast := AcceptedPut.of_run (p := imageOf) rfl hrun
  exact ⟨t₁, t, hfirst, hlast, (manifest_keeps_its_meaning [0] "acme" "app").2 acmeWithConfig
    t₁ t₁ t _ _ hfirst .refl hlast (.inl rfl)⟩

/-- A push of the same bytes as an index, under a payload that names nothing: the tagged
image becomes an index without children, and its config is released. -/
theorem index_push_releases_config :
    ∃ t₁ t, AcceptedPut sha256OfEmpty (fun _ => some unnamedImage) [0] "acme" "app"
        acmeWithConfig mediaTypeOCIManifest t₁ ∧
      AcceptedPut sha256OfEmpty (fun _ => some unnamedImage) [0] "acme" "app" t₁
        mediaTypeOCIIndex t ∧
      t.resolveTag "r1" "latest" = some (sha256OfEmpty [0]) ∧
        t₁.db.blobManifestRefs "r1" (sha256OfEmpty []) = 1 ∧
          t.db.blobManifestRefs "r1" (sha256OfEmpty []) = 0 ∧
            ¬ SameMeaning sha256OfEmpty [0] "acme" "app" t₁ t := by
  obtain ⟨t₁, hrun₁⟩ : ∃ t₁, pushAlone sha256OfEmpty (fun _ => some unnamedImage)
      acmeWithConfig (.manifest (latest mediaTypeOCIManifest) .start) imagePut =
        some (t₁, .done 201) := ⟨_, rfl⟩
  obtain ⟨t, hrun⟩ : ∃ t, pushAlone sha256OfEmpty (fun _ => some unnamedImage) t₁
      (.manifest (latest mediaTypeOCIIndex) .start) (List.replicate 9 .ok) =
        some (t, .done 201) := by
    cases hrun₁
    exact ⟨_, rfl⟩
  have hfirst := AcceptedPut.of_run (p := imageOf) rfl hrun₁
  have hlast := AcceptedPut.of_run (p := indexOf) rfl hrun
  have hrefs₁ : t₁.db.manifestRefs = [⟨"r1", sha256OfEmpty [0], sha256OfEmpty []⟩] := by
    cases hrun₁
    rfl
  have hrefs : t.db.manifestRefs = [] := by
    cases hrun₁
    cases hrun
    rfl
  refine ⟨t₁, t, hfirst, hlast, ?_, ?_, ?_, ?_⟩
  · cases hrun₁
    cases hrun
    rfl
  · rw [Db.blobManifestRefs, hrefs₁]
    rfl
  · rw [Db.blobManifestRefs, hrefs]
    rfl
  · rintro ⟨r, p, config, h₁, h⟩
    have hr : r.id = "r1" := by
      have hrepo := h₁.repository
      cases hrun₁
      cases hrepo
      rfl
    have hmem₁ : t₁.refersTo r.id (sha256OfEmpty [0]) (sha256OfEmpty []) := by
      rw [refersTo, hr, hrefs₁]
      exact mem_singleton_self _
    have hmem := (h.references _).mpr ((h₁.references _).mp hmem₁)
    rw [refersTo, hrefs] at hmem
    exact absurd hmem not_mem_nil

end Chicoree.Registryd
