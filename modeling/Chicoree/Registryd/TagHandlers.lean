import Chicoree.Lib.Locks
import Chicoree.Lib.Machine
import Chicoree.Registryd.TagRules

/-! # Manifest pushes and deletes side by side

The tags of one repository under concurrent `PUT` and `DELETE` of manifests, with
the row locks of the database. A transaction's writes stay its own until it
commits. `SELECT … FOR UPDATE` locks the row its statement saw, and nothing when it
saw none; `INSERT … ON CONFLICT DO UPDATE` waits for whoever holds the row or is
inserting the same key, and its foreign key locks the manifest against deletion;
a delete waits for the rows it removes. A step that would wait is not enabled. -/

namespace Chicoree.Registryd

open Table

/-- A committed row of `tags`; `row` tells a row from a later one of that name. -/
structure TagRow where
  row : Nat
  name : String
  digest : Digest

/-- Manifests and tags of the repository as committed, and the locks held on
them: on a tag's row (or the key being inserted) exclusively, on a manifest as a
foreign key. -/
structure TagStore where
  manifests : List Digest
  tags : List TagRow
  locks : Locks.Table String
  shares : Locks.Table Digest
  nextRow : Nat

namespace TagStore

def findTag (s : TagStore) (tag : String) : Option TagRow :=
  Table.find TagRow.name tag s.tags

def resolveTag (s : TagStore) (tag : String) : Option Digest :=
  (s.findTag tag).map (·.digest)

def tagsForManifest (s : TagStore) (d : Digest) : List String :=
  (s.tags.filter fun r => decide (r.digest = d)).map (·.name)

/-- End of a task's transaction, by commit or rollback. -/
def unlock (s : TagStore) (i : Nat) : TagStore :=
  { s with locks := Locks.release s.locks i, shares := Locks.release s.shares i }

/-- The upsert of a tag as it becomes visible: an existing row keeps its
identity. -/
def writeTag (s : TagStore) (tag : String) (d : Digest) : TagStore :=
  match s.findTag tag with
  | some r =>
    { s with tags := Table.upsert TagRow.name { r with digest := d } s.tags }
  | none =>
    { s with tags := Table.upsert TagRow.name ⟨s.nextRow, tag, d⟩ s.tags
             nextRow := s.nextRow + 1 }

def upsertManifest (s : TagStore) (d : Digest) : TagStore :=
  { s with manifests := Table.insertNew id d s.manifests }

def deleteTag (s : TagStore) (tag : String) : TagStore :=
  { s with tags := s.tags.filter fun r => decide (r.name ≠ tag) }

/-- `DeleteManifest`: the foreign key removes the tag rows with it. -/
def deleteManifest (s : TagStore) (d : Digest) : TagStore :=
  { s with manifests := s.manifests.filter fun m => decide (m ≠ d)
           tags := s.tags.filter fun r => decide (r.digest ≠ d) }

end TagStore

/-! ## Requests -/

inductive PutPc where
  | checkTagImmutable
  | upsertManifest
  /-- `UpsertTagGuarded`: the `SELECT … FOR UPDATE` starts. -/
  | select
  /-- It saw this row and waits for its lock. -/
  | lockRow (row : Nat)
  /-- What the `SELECT` answered. -/
  | insert (current : Option Digest)
  | commit

inductive DeleteTagPc where
  | checkTagDeletable
  | resolveTag
  | deleteTag

inductive DeleteManifestPc where
  | checkManifestDeletable
  | tagsForManifest
  | deleteManifest

inductive TagTask where
  /-- `PUT` of a manifest under a tag, or under its digest alone. -/
  | put (tag : Option String) (d : Digest) (pc : PutPc)
  | deleteTag (tag : String) (pc : DeleteTagPc)
  | deleteManifest (d : Digest) (pc : DeleteManifestPc)
  | denied (e : PolicyError)
  | done (status : Nat)

/-- A request as it arrives: a push without a tag has no tag to check. -/
def TagTask.fresh : TagTask → Bool
  | .put (some _) _ .checkTagImmutable => true
  | .put none _ .upsertManifest => true
  | .deleteTag _ .checkTagDeletable => true
  | .deleteManifest _ .checkManifestDeletable => true
  | _ => false

/-- How a statement turned out; an error ends the request and rolls its
transaction back. -/
inductive Statement where
  | ok
  | failed

/-! ## Handlers -/

section Handlers

variable (rules : List TagRule)

/-- The `INSERT … ON CONFLICT DO UPDATE` of `UpsertTagGuarded`: it takes the row or
the key, and a digest new to the row is checked against `manifests`. -/
def insertTag (s : TagStore) (i : Nat) (tag : String) (d : Digest) : Option (TagStore × TagTask) :=
  if Locks.free s.locks tag i then
    if s.resolveTag tag = some d ∨ d ∈ s.manifests then
      some ({ s with locks := Locks.acquire s.locks tag i
                     shares := Locks.acquire s.shares d i },
        .put (some tag) d .commit)
    else some (s.unlock i, .done 500)
  else none

/-- One statement of the tagged part of `handleManifestPut`. -/
def putTag (s : TagStore) (i : Nat) (tag : String) (d : Digest) :
    PutPc → Option (TagStore × TagTask)
  | .checkTagImmutable =>
    match checkImmutable rules tag (s.resolveTag tag) d with
    | .error e => some (s, .denied e)
    | .ok () => some (s, .put (some tag) d .upsertManifest)
  | .upsertManifest => some (s.upsertManifest d, .put (some tag) d .select)
  | .select =>
    match s.findTag tag with
    | some r => some (s, .put (some tag) d (.lockRow r.row))
    | none => some (s, .put (some tag) d (.insert none))
  | .lockRow row =>
    match s.findTag tag with
    | none => some (s, .put (some tag) d (.insert none))
    | some r =>
      -- the row the statement saw was deleted: it answers no row
      if r.row ≠ row then some (s, .put (some tag) d (.insert none))
      else if Locks.free s.locks tag i then
        match checkImmutable rules tag (some r.digest) d with
        | .error e => some (s.unlock i, .denied e)
        | .ok () =>
          some ({ s with locks := Locks.acquire s.locks tag i },
            .put (some tag) d (.insert (some r.digest)))
      else none
  | .insert _ => insertTag s i tag d
  | .commit => some ((s.writeTag tag d).unlock i, .done 201)

/-- One statement of `handleManifestDelete` for a tag. -/
def deleteByTag (s : TagStore) (i : Nat) (tag : String) :
    DeleteTagPc → Option (TagStore × TagTask)
  | .checkTagDeletable =>
    match checkTagDeletable rules tag with
    | .error e => some (s, .denied e)
    | .ok () => some (s, .deleteTag tag .resolveTag)
  | .resolveTag => some (s, .deleteTag tag .deleteTag)
  | .deleteTag =>
    match s.findTag tag with
    | none => some (s, .done 404)
    | some _ =>
      if Locks.free s.locks tag i then some (s.deleteTag tag, .done 202) else none

/-- One statement of `handleManifestDelete` for a digest. -/
def deleteByDigest (s : TagStore) (i : Nat) (d : Digest) :
    DeleteManifestPc → Option (TagStore × TagTask)
  | .checkManifestDeletable =>
    match checkManifestDeletable rules d (s.tagsForManifest d) with
    | .error e => some (s, .denied e)
    | .ok () => some (s, .deleteManifest d .tagsForManifest)
  | .tagsForManifest => some (s, .deleteManifest d .deleteManifest)
  | .deleteManifest =>
    if d ∈ s.manifests then
      if Locks.unheld s.shares d &&
          (s.tagsForManifest d).all (fun t => Locks.free s.locks t i) then
        some (s.deleteManifest d, .done 202)
      else none
    else some (s, .done 404)

def tagAct (s : TagStore) (i : Nat) : TagTask → Statement → Option (TagStore × TagTask)
  | .denied _, _ => none
  | .done _, _ => none
  | _, .failed => some (s.unlock i, .done 500)
  | .put (some tag) d pc, .ok => putTag rules s i tag d pc
  | .put none d .upsertManifest, .ok => some (s.upsertManifest d, .done 201)
  | .put none _ _, .ok => none
  | .deleteTag tag pc, .ok => deleteByTag rules s i tag pc
  | .deleteManifest d pc, .ok => deleteByDigest rules s i d pc

/-- Any number of pushes and deletes, in any order of their statements, on a
repository whose rows have distinct names and identities. -/
def tagProgram : Transition.Program TagStore TagTask Statement Empty where
  init s := Table.Keyed TagRow.name s.tags ∧ (∀ r ∈ s.tags, r.row < s.nextRow) ∧
    s.locks = [] ∧ s.shares = []
  fresh := TagTask.fresh
  act := tagAct rules
  env _ e := nomatch e

end Handlers

/-! ## What one statement does to tags and locks

Everything the results about tags need to know of a statement: whose locks it
touches, and which of the committed tags it moves or removes. -/

open Transition

namespace TagStore

variable {s : TagStore} {tag u : String} {d : Digest} {i j : Nat}

@[simp] theorem unlock_resolveTag (s : TagStore) (i : Nat) (u : String) :
    (s.unlock i).resolveTag u = s.resolveTag u := rfl

@[simp] theorem unlock_tags (s : TagStore) (i : Nat) : (s.unlock i).tags = s.tags := rfl

@[simp] theorem unlock_locks (s : TagStore) (i : Nat) :
    (s.unlock i).locks = Locks.release s.locks i := rfl

@[simp] theorem upsertManifest_resolveTag (s : TagStore) (d : Digest) (u : String) :
    (s.upsertManifest d).resolveTag u = s.resolveTag u := rfl

@[simp] theorem writeTag_locks (s : TagStore) (tag : String) (d : Digest) :
    (s.writeTag tag d).locks = s.locks := by
  unfold writeTag
  split <;> rfl

theorem findTag_name {r : TagRow} (h : s.findTag tag = some r) : r.name = tag := (find_some h).2

theorem resolveTag_writeTag (s : TagStore) (tag : String) (d : Digest) (u : String) :
    (s.writeTag tag d).resolveTag u = if u = tag then some d else s.resolveTag u := by
  obtain ⟨r, hr, hd, hf⟩ : ∃ r : TagRow, r.name = tag ∧ r.digest = d ∧
      ∀ u, (s.writeTag tag d).findTag u = Table.find TagRow.name u
        (Table.upsert TagRow.name r s.tags) := by
    unfold writeTag
    split
    · rename_i r hr
      have hname := findTag_name hr
      exact ⟨{ r with digest := d }, hname, rfl, fun _ => rfl⟩
    · exact ⟨⟨s.nextRow, tag, d⟩, rfl, rfl, fun _ => rfl⟩
  unfold resolveTag
  rw [hf]
  by_cases hu : u = tag
  · subst hu
    rw [← hr, find_upsert_self]
    simp [hd]
  · rw [find_upsert_ne (by rw [hr]; exact hu), if_neg hu]
    rfl

theorem keyed_writeTag (h : Table.Keyed TagRow.name s.tags) (tag : String) (d : Digest) :
    Table.Keyed TagRow.name (s.writeTag tag d).tags := by
  unfold writeTag
  split <;> exact h.upsert _

theorem resolveTag_deleteTag (h : Table.Keyed TagRow.name s.tags) (tag u : String) :
    (s.deleteTag tag).resolveTag u = if u = tag then none else s.resolveTag u := by
  unfold resolveTag findTag deleteTag
  rw [find_filter h]
  cases hf : Table.find TagRow.name u s.tags with
  | none => simp
  | some r =>
    have hr : r.name = u := (find_some hf).2
    by_cases hu : u = tag
    · simp [Option.filter, hr, hu]
    · simp [Option.filter, hr, hu]

theorem resolveTag_deleteManifest (h : Table.Keyed TagRow.name s.tags) (d : Digest) (u : String) :
    (s.deleteManifest d).resolveTag u =
      if s.resolveTag u = some d then none else s.resolveTag u := by
  unfold resolveTag findTag deleteManifest
  rw [find_filter h]
  cases hf : Table.find TagRow.name u s.tags with
  | none => simp
  | some r =>
    by_cases hd : r.digest = d
    · simp [Option.filter, hd]
    · simp [Option.filter, hd]

theorem mem_tagsForManifest (h : s.resolveTag u = some d) : u ∈ s.tagsForManifest d := by
  obtain ⟨r, hr, hd⟩ := Option.map_eq_some_iff.mp h
  refine List.mem_map.mpr ⟨r, List.mem_filter.mpr ⟨(find_some hr).1, ?_⟩, findTag_name hr⟩
  simpa using hd

end TagStore

/-! ## Effects -/

/-- How a statement of task `i` changes the committed tags. -/
inductive TagChange (s : TagStore) (i : Nat) (s' : TagStore) :
    TagTask → Statement → Prop
  | same {t : TagTask} {a : Statement} :
      (∀ u, s'.resolveTag u = s.resolveTag u) → TagChange s i s' t a
  | write {tag : String} {d : Digest} :
      (∀ u, s'.resolveTag u = if u = tag then some d else s.resolveTag u) →
      TagChange s i s' (.put (some tag) d .commit) .ok
  | deleteTag {tag : String} : Locks.free s.locks tag i = true →
      (∀ u, s'.resolveTag u = if u = tag then none else s.resolveTag u) →
      TagChange s i s' (.deleteTag tag .deleteTag) .ok
  | deleteManifest {d : Digest} :
      (∀ u, s.resolveTag u = some d → Locks.free s.locks u i = true) →
      (∀ u, s'.resolveTag u = if s.resolveTag u = some d then none else s.resolveTag u) →
      TagChange s i s' (.deleteManifest d .deleteManifest) .ok

/-- What a statement of task `i` does: it leaves the locks of other tasks and the
discipline of the locks alone, and changes the tags in one of four ways. -/
structure StatementEffect (s : TagStore) (i : Nat) (t : TagTask) (a : Statement)
    (s' : TagStore) : Prop where
  others : ∀ k j, j ≠ i → (k, j) ∈ s.locks → (k, j) ∈ s'.locks
  exclusive : Locks.Exclusive s.locks → Locks.Exclusive s'.locks
  keyed : Table.Keyed TagRow.name s'.tags
  change : TagChange s i s' t a

variable {rules : List TagRule} {s s' : TagStore} {i : Nat} {t t' : TagTask} {a : Statement}

section

variable (hk : Table.Keyed TagRow.name s.tags)
include hk

theorem StatementEffect.read : StatementEffect s i t a s :=
  ⟨fun _ _ _ h => h, id, hk, .same fun _ => rfl⟩

theorem StatementEffect.rollback : StatementEffect s i t a (s.unlock i) :=
  ⟨fun _ _ hj h => Locks.mem_release.mpr ⟨h, hj⟩, fun h => h.release i, hk, .same fun _ => rfl⟩

variable {tag : String}

theorem StatementEffect.lock {shares : Locks.Table Digest} (hf : Locks.free s.locks tag i = true) :
    StatementEffect s i t a
      { s with locks := Locks.acquire s.locks tag i, shares := shares } :=
  ⟨fun _ _ _ h => Locks.mem_acquire.mpr (.inl h), fun h => h.acquire hf, hk, .same fun _ => rfl⟩

variable {d : Digest}

theorem insertTag_effect (h : insertTag s i tag d = some (s', t')) :
    StatementEffect s i t a s' := by
  unfold insertTag at h
  split at h
  · rename_i hf
    split at h <;> cases h
    · exact .lock hk hf
    · exact .rollback hk
  · contradiction

theorem putTag_effect {pc : PutPc} (h : putTag rules s i tag d pc = some (s', t')) :
    StatementEffect s i (.put (some tag) d pc) .ok s' := by
  cases pc with
  | checkTagImmutable | select =>
    simp only [putTag] at h
    split at h <;> cases h <;> exact .read hk
  | upsertManifest =>
    cases h
    exact ⟨fun _ _ _ h => h, id, hk, .same fun _ => rfl⟩
  | lockRow row =>
    simp only [putTag] at h
    split at h
    · cases h
      exact .read hk
    · split at h
      · cases h
        exact .read hk
      · split at h
        · rename_i hf
          split at h <;> cases h
          · exact .rollback hk
          · exact .lock hk hf
        · contradiction
  | insert current => exact insertTag_effect hk h
  | commit =>
    cases h
    refine ⟨fun k j hj hl => ?_, fun he => ?_, TagStore.keyed_writeTag hk tag d, .write ?_⟩
    · simpa [Locks.mem_release, hj] using hl
    · simpa using he.release i
    · simp [TagStore.resolveTag_writeTag]

theorem deleteByTag_effect {pc : DeleteTagPc} (h : deleteByTag rules s i tag pc = some (s', t')) :
    StatementEffect s i (.deleteTag tag pc) .ok s' := by
  cases pc with
  | checkTagDeletable =>
    simp only [deleteByTag] at h
    split at h <;> cases h <;> exact .read hk
  | resolveTag =>
    cases h
    exact .read hk
  | deleteTag =>
    simp only [deleteByTag] at h
    split at h
    · cases h
      exact .read hk
    · split at h
      · rename_i hf
        cases h
        exact ⟨fun _ _ _ h => h, id, hk.filter _,
          .deleteTag hf (TagStore.resolveTag_deleteTag hk tag)⟩
      · contradiction

theorem deleteByDigest_effect {pc : DeleteManifestPc}
  (h : deleteByDigest rules s i d pc = some (s', t')) :
    StatementEffect s i (.deleteManifest d pc) .ok s' := by
  cases pc with
  | checkManifestDeletable =>
    simp only [deleteByDigest] at h
    split at h <;> cases h <;> exact .read hk
  | tagsForManifest =>
    cases h
    exact .read hk
  | deleteManifest =>
    simp only [deleteByDigest] at h
    split at h
    · split at h
      · rename_i hw
        cases h
        simp only [Bool.and_eq_true, List.all_eq_true] at hw
        exact ⟨fun _ _ _ h => h, id, hk.filter _,
          .deleteManifest (fun u hu => hw.2 u (TagStore.mem_tagsForManifest hu))
            (TagStore.resolveTag_deleteManifest hk d)⟩
      · contradiction
    · cases h
      exact .read hk

/-- **Effect of a statement**, whatever request makes it. -/
theorem tagAct_effect (h : tagAct rules s i t a = some (s', t')) : StatementEffect s i t a s' := by
  unfold tagAct at h
  split at h
  · contradiction
  · contradiction
  · cases h
    exact .rollback hk
  · exact putTag_effect hk h
  · cases h
    exact ⟨fun _ _ _ h => h, id, hk, .same fun _ => rfl⟩
  · contradiction
  · exact deleteByTag_effect hk h
  · exact deleteByDigest_effect hk h

end

end Chicoree.Registryd
