import Chicoree.Registryd.Pushes

/-! # What a push writes

When the statements of a push leave the tables with the same rows, and what the resolution
of its repository does to them: read, or add a repository. -/

namespace Chicoree.Registryd

open Transition List PushTables

/-! ## Tables before and after -/

def SameRows {ρ : Type} (rows rows' : List ρ) : Prop := ∀ x, x ∈ rows' ↔ x ∈ rows

structure SameTables (t t' : PushTables) : Prop where
  repositories : SameRows t.db.repositories t'.db.repositories
  repositoryRedirects : SameRows t.repositoryRedirects t'.repositoryRedirects
  organizationRedirects : SameRows t.organizationRedirects t'.organizationRedirects
  blobs : SameRows t.db.blobs t'.db.blobs
  repositoryBlobs : SameRows t.db.repositoryBlobs t'.db.repositoryBlobs
  manifests : SameRows t.manifests t'.manifests
  manifestRefs : SameRows t.db.manifestRefs t'.db.manifestRefs
  tags : SameRows t.tags t'.tags

/-- No statement has written to the tables. -/
structure Unwritten (t t' : PushTables) : Prop where
  db : t'.db = t.db
  repositoryRedirects : t'.repositoryRedirects = t.repositoryRedirects
  organizationRedirects : t'.organizationRedirects = t.organizationRedirects
  manifests : t'.manifests = t.manifests
  tags : t'.tags = t.tags
  now : t'.storage.now = t.storage.now

def Grown (t t' : PushTables) : Prop :=
  ∃ r ∈ t'.db.repositories, r ∉ t.db.repositories

theorem SameRows.of_eq {ρ : Type} {rows rows' : List ρ} (h : rows' = rows) :
    SameRows rows rows' := fun _ => h ▸ Iff.rfl

theorem Unwritten.refl (t : PushTables) : Unwritten t t :=
  ⟨rfl, rfl, rfl, rfl, rfl, rfl⟩

variable {t t' : PushTables}

variable {t'' : PushTables}

theorem Unwritten.trans (h : Unwritten t t') (h' : Unwritten t' t'') : Unwritten t t'' :=
  ⟨h'.db.trans h.db, h'.repositoryRedirects.trans h.repositoryRedirects,
    h'.organizationRedirects.trans h.organizationRedirects, h'.manifests.trans h.manifests,
    h'.tags.trans h.tags, h'.now.trans h.now⟩

theorem Unwritten.same (h : Unwritten t t') : SameTables t t' where
  repositories := .of_eq (congrArg Db.repositories h.db)
  repositoryRedirects := .of_eq h.repositoryRedirects
  organizationRedirects := .of_eq h.organizationRedirects
  blobs := .of_eq (congrArg Db.blobs h.db)
  repositoryBlobs := .of_eq (congrArg Db.repositoryBlobs h.db)
  manifests := .of_eq h.manifests
  manifestRefs := .of_eq (congrArg Db.manifestRefs h.db)
  tags := .of_eq h.tags

theorem SameRows.symm {ρ : Type} {rows rows' : List ρ} (h : SameRows rows rows') :
    SameRows rows' rows := fun x => (h x).symm

theorem SameRows.trans {ρ : Type} {rows rows' rows'' : List ρ} (h : SameRows rows rows')
    (h' : SameRows rows' rows'') : SameRows rows rows'' := fun x => (h' x).trans (h x)

theorem SameTables.symm (h : SameTables t t') : SameTables t' t :=
  ⟨h.repositories.symm, h.repositoryRedirects.symm, h.organizationRedirects.symm,
    h.blobs.symm, h.repositoryBlobs.symm, h.manifests.symm, h.manifestRefs.symm, h.tags.symm⟩

theorem SameTables.trans (h : SameTables t t') (h' : SameTables t' t'') : SameTables t t'' :=
  ⟨h.repositories.trans h'.repositories, h.repositoryRedirects.trans h'.repositoryRedirects,
    h.organizationRedirects.trans h'.organizationRedirects, h.blobs.trans h'.blobs,
    h.repositoryBlobs.trans h'.repositoryBlobs, h.manifests.trans h'.manifests,
    h.manifestRefs.trans h'.manifestRefs, h.tags.trans h'.tags⟩

theorem Grown.not_same (h : Grown t t') : ¬ SameTables t t' := by
  rintro hsame
  obtain ⟨r, hr, hnew⟩ := h
  exact hnew ((hsame.repositories r).mp hr)

/-! ## Rows that are inserted or rewritten -/

section rows

variable {ρ κ : Type} [DecidableEq κ] {key : ρ → κ}

theorem sameRows_insertNew (r : ρ) (rows : List ρ) :
    SameRows rows (Table.insertNew key r rows) ↔ ∃ x ∈ rows, key x = key r := by
  constructor
  · intro h
    obtain ⟨x, hx, hkey⟩ := @Table.exists_key_insertNew _ _ _ key r rows
    exact ⟨x, (h x).mp hx, hkey⟩
  · rintro ⟨x, hx, hkey⟩
    unfold Table.insertNew
    rw [if_pos (any_eq_true.mpr ⟨x, hx, decide_eq_true hkey⟩)]
    exact fun _ => Iff.rfl

theorem sameRows_rewrite {p : ρ → Prop} [DecidablePred p] {f : ρ → ρ}
    (hf : ∀ x, f (f x) = f x) (rows : List ρ) :
    SameRows rows (rows.map fun x => if p x then f x else x) ↔ ∀ x ∈ rows, p x → f x = x := by
  constructor
  · intro h x hx hpx
    obtain ⟨y, -, hyx⟩ := mem_map.mp ((h x).mpr hx)
    split at hyx
    · rw [← hyx, hf]
    · rename_i hny
      rw [hyx] at hny
      exact absurd hpx hny
  · intro h
    have hid : rows.map (fun x => if p x then f x else x) = rows := by
      conv => rhs; rw [← map_id rows]
      refine map_congr_left fun x hx => ?_
      by_cases hpx : p x
      · rw [if_pos hpx, h x hx hpx]
        rfl
      · rw [if_neg hpx]
        rfl
    exact .of_eq hid

theorem sameRows_upsert (r : ρ) (rows : List ρ) : SameRows rows (Table.upsert key r rows) ↔
      (∃ x ∈ rows, key x = key r) ∧ ∀ x ∈ rows, key x = key r → x = r := by
  unfold Table.upsert
  split
  · rename_i hthere
    obtain ⟨x, hx, hkey⟩ := any_eq_true.mp hthere
    rw [sameRows_rewrite (f := fun _ => r) fun _ => rfl]
    refine ⟨fun h => ⟨⟨x, hx, of_decide_eq_true hkey⟩, fun y hy hky => (h y hy hky).symm⟩,
      fun h y hy hky => (h.2 y hy hky).symm⟩
  · rename_i hnone
    refine ⟨fun h => absurd ?_ hnone, ?_⟩
    · have hr : r ∈ rows := (h r).mp (by simp)
      exact any_eq_true.mpr ⟨r, hr, by simp⟩
    · rintro ⟨⟨x, hx, hkey⟩, -⟩
      exact absurd (any_eq_true.mpr ⟨x, hx, decide_eq_true hkey⟩) hnone

end rows

structure Recorded (t : PushTables) (row : Manifest) (refs : List Digest) : Prop where
  present : t.manifestExists row.repositoryId row.digest = true
  columns : ∀ m ∈ t.manifests, m.repositoryId = row.repositoryId ∧ m.digest = row.digest →
    Manifest.overwrite row m = m
  references : ∀ d, ⟨row.repositoryId, row.digest, d⟩ ∈ t.db.manifestRefs ↔ d ∈ refs

variable {d : Digest} {refs : List Digest}

theorem mem_rewriteRefs {repo : RepoId} {rows : List ManifestRef} {x : ManifestRef} :
    x ∈ rewriteRefs repo d refs rows ↔
      (x ∈ rows ∧ ¬(x.repositoryId = repo ∧ x.manifestDigest = d)) ∨
        (x.repositoryId = repo ∧ x.manifestDigest = d ∧ x.refDigest ∈ refs) := by
  unfold rewriteRefs
  simp only [mem_append, mem_filter, decide_eq_true_eq, mem_map, mem_eraseDups]
  refine or_congr Iff.rfl ⟨?_, ?_⟩
  · rintro ⟨r, hr, rfl⟩
    exact ⟨rfl, rfl, hr⟩
  · rintro ⟨rfl, rfl, hr⟩
    exact ⟨x.refDigest, hr, rfl⟩

theorem sameRows_upsertRow (row : Manifest) (t : PushTables) :
    SameRows t.manifests (upsertRow row t.manifests) ↔
      t.manifestExists row.repositoryId row.digest = true ∧
        ∀ m ∈ t.manifests, m.repositoryId = row.repositoryId ∧ m.digest = row.digest →
          Manifest.overwrite row m = m := by
  unfold upsertRow manifestExists
  split
  · rename_i hthere
    rw [sameRows_rewrite (f := Manifest.overwrite row) fun m => rfl]
    exact ⟨fun h => ⟨hthere, h⟩, fun h => h.2⟩
  · rename_i hnone
    refine ⟨fun h => absurd ?_ hnone, fun h => absurd h.1 hnone⟩
    have hrow : row ∈ t.manifests := (h row).mp (by simp)
    exact any_eq_true.mpr ⟨row, hrow, by simp⟩

theorem sameTables_upsertManifest {row : Manifest} (h : t.upsertManifest row refs = some t') :
    SameTables t t' ↔ Recorded t row refs := by
  unfold upsertManifest at h
  split at h
  · simp only [Option.some.injEq] at h
    subst h
    constructor
    · intro hsame
      obtain ⟨hpresent, hcolumns⟩ := (sameRows_upsertRow row t).mp hsame.manifests
      refine ⟨hpresent, hcolumns, fun d => ?_⟩
      have hd := hsame.manifestRefs ⟨row.repositoryId, row.digest, d⟩
      rw [← hd]
      exact mem_rewriteRefs.trans (by simp)
    · intro hrec
      refine ⟨.of_eq rfl, .of_eq rfl, .of_eq rfl, .of_eq rfl, .of_eq rfl,
        (sameRows_upsertRow row t).mpr ⟨hrec.present, hrec.columns⟩, fun x => ?_, .of_eq rfl⟩
      refine mem_rewriteRefs.trans ⟨?_, ?_⟩
      · rintro (⟨hx, -⟩ | ⟨hr, hd, hx⟩)
        · exact hx
        · have hx' := (hrec.references x.refDigest).mpr hx
          rw [← hr, ← hd] at hx'
          exact hx'
      · intro hx
        by_cases hkey : x.repositoryId = row.repositoryId ∧ x.manifestDigest = row.digest
        · refine .inr ⟨hkey.1, hkey.2, (hrec.references x.refDigest).mp ?_⟩
          rw [← hkey.1, ← hkey.2]
          exact hx
        · exact .inl ⟨hx, hkey⟩
  · contradiction

/-! ## Resolving alone -/

/-- Whether the repository is known to be there while it is resolved. -/
def Known (db : Db) (org name : String) : ResolvePc → Prop
  | .getRepository => True
  | .orgHasBlob r | .storageQuota r => db.getRepository org name = some r
  | .ensureInsert o _ => db.getRepository org name = none ∧ db.orgIdBySlug org = some o
  | _ => db.getRepository org name = none

/-- What a call of the resolution finds: it goes on, or has the repository. -/
def Resolved.Known (db : Db) (org name : String) : Resolved → Prop
  | .more pc => Registryd.Known db org name pc
  | .repo r => db.getRepository org name = some r
  | .answered _ => True

variable {org name : String} {pc : ResolvePc} {a : Answer} {out : Resolved}

theorem ReadCall.knows {db : Db} (hpc : Known db org name pc)
    (h : ReadCall db org name d pc a out) : out.Known db org name := by
  cases h with
  | answered => trivial
  | known row | unknown row | there row | missing row => exact row
  | ensureOrg slug => exact ⟨hpc, slug⟩
  | _ => exact hpc

theorem pushResolve_cases (hpc : Known t.db org name pc)
    (h : pushResolve t org name d pc a = some (t', out)) :
    (Unwritten t t' ∧ (∀ id acked, a ≠ .fresh id acked) ∧ out.Known t'.db org name) ∨
      ((∃ id acked, a = .fresh id acked) ∧ t.db.getRepository org name = none ∧
        Grown t t' ∧ ∀ pc', out ≠ .more pc') := by
  unfold pushResolve at h
  cases hr : resolveStep t.db org name d pc a with
  | none => simp [hr] at h
  | some res =>
    obtain ⟨db, out'⟩ := res
    rw [hr] at h
    cases resolveStep_call hr with
    | read reads =>
      have hfresh : ∀ id acked, a ≠ .fresh id acked := by
        rintro id acked rfl
        cases reads with
        | answered _ plain => simp at plain
      dsimp only at h
      split at h
      · exact absurd rfl (hfresh _ _)
      · cases h
        exact .inl ⟨.refl t, hfresh, reads.knows hpc⟩
    | @insert o v id acked fresh =>
      obtain ⟨hnone, ho⟩ := hpc
      cases h
      refine .inr ⟨⟨id, acked, rfl⟩, hnone, ⟨⟨id, o, name, v⟩, ?_, fun hmem => ?_⟩, ?_⟩
      · have hfind : Table.find (fun r : Repository => (r.orgId, r.name)) (o, name)
            t.db.repositories = none := by
          simpa only [Db.getRepository, ho] using hnone
        show _ ∈ (t.db.ensureRepository o name v id).1.repositories
        simp [Db.ensureRepository, hfind]
      · exact fresh _ hmem rfl
      · intro pc'
        cases acked <;> simp

end Chicoree.Registryd
