import Chicoree.Lib.Machine
import Chicoree.Lib.Trimming
import Chicoree.Storage.BlobTree

/-! # Deleting orphaned objects

`registryd storage verify --delete-orphans` next to uploads that are being committed. Each call
of the driver and of the database is a step of its own. -/

namespace Chicoree.Storage

open Transition

/-! ## Digests -/

def isSeparator (c : UInt8) : Bool := c == 46 || c == 43 || c == 95 || c == 45

def isLowerAlnum (c : UInt8) : Bool := (48 ≤ c && c ≤ 57) || (97 ≤ c && c ≤ 122)

/-- `^[a-z0-9]+(?:[.+_-][a-z0-9]+)*:[a-f0-9]{32,}$` -/
def isDigest (digest : Text) : Bool :=
  let algo := digest.takeWhile (· ≠ colon)
  let hex := (digest.dropWhile (· ≠ colon)).tail
  digest.contains colon &&
    (algo.splitOnP isSeparator).all (fun word => !word.isEmpty && word.all isLowerAlnum) &&
    decide (32 ≤ hex.length) && hex.all isHexDigit

/-- A digest as the `blobs` table holds it. -/
abbrev BlobDigest : Type := {digest : Text // isDigest digest = true}

/-- An object and when it was written; `none` where the backend does not report it. -/
structure Stored where
  key : Text
  content : List UInt8
  modTime : Option Int
deriving DecidableEq

/-- An object of the listing, under the digest of its key. -/
structure Entry where
  digest : Text
  key : Text
  modTime : Option Int
deriving DecidableEq

structure World where
  now : Int
  /-- The backend lists its objects (`ObjectStore`). -/
  lists : Bool
  /-- The backend reports modification times. -/
  dated : Bool
  objects : List Stored
  rows : List BlobDigest
  /-- Which entries of its listing a verification has looked at, and when. -/
  examined : List (Text × Int)
  /-- The digests of the objects it has deleted. -/
  deleted : List Text
deriving DecidableEq

structure Options where
  orphans : Bool
  deleteOrphans : Bool
  orphanGrace : Int
deriving DecidableEq

namespace World

variable (w : World)

/-- `listBlobs`: the keys it reads a digest from, which are never two for one digest. -/
def inventory : List Entry :=
  w.objects.filterMap fun o =>
    if (blobsDir ++ [slash]).isPrefixOf o.key then
      (digestFromPath o.key).map fun digest => ⟨digest, o.key, o.modTime⟩
    else none

def stat (digest : Text) : Bool := w.objects.any fun o => decide (o.key = blobPath digest)

def put (digest : Text) (content : List UInt8) : World :=
  let new : Stored := ⟨blobPath digest, content, if w.dated then some w.now else none⟩
  { w with objects := Table.upsert Stored.key new w.objects }

def deleteObject (key : Text) : World :=
  { w with objects := w.objects.filter fun o => decide (o.key ≠ key) }

def examine (e : Entry) : World := { w with examined := w.examined ++ [(e.digest, w.now)] }

def remove (e : Entry) : World :=
  { (w.examine e).deleteObject e.key with deleted := w.deleted ++ [e.digest] }

/-- `UpsertBlob`, without the link of the repository. -/
def upsertBlob (digest : BlobDigest) : World :=
  { w with rows := Table.insertNew id digest w.rows }

end World

/-! ## Tasks -/

/-- Where `commitUpload` stands: it looks for the blob, writes it where it is absent, and adds
its row. -/
inductive CommitPc where
  | stat
  | put
  | upsert
  | done
deriving DecidableEq

/-- Where `Verify` stands, with its listing and the digests of the rows it has walked. -/
inductive VerifyPc where
  | listing
  | walking (inv : List Entry)
  | orphans (left : List Entry) (seen : List Text)
  | done
deriving DecidableEq

inductive Task where
  | commit (digest : BlobDigest) (content : List UInt8) (pc : CommitPc)
  | verify (opts : Options) (pc : VerifyPc)
deriving DecidableEq

/-- What a task does next: the call succeeds, or it fails (a write may have been published all
the same, and a request may be refused before it is made); or the next object of the listing,
in any order, and whether its deletion succeeds where it is to be deleted. -/
inductive Act where
  | go
  | fail (published : Bool)
  | entry (n : Nat) (deletes : Bool)

/-- An orphan that is old enough: no row was seen, and its age is known and not below the
grace period. -/
def orphaned (opts : Options) (now : Int) (seen : List Text) (e : Entry) : Bool :=
  !seen.contains e.digest && opts.deleteOrphans &&
    e.modTime.any fun modTime => !decide (now - modTime < opts.orphanGrace)

def commitAct (S : Sha256) (w : World) (digest : BlobDigest) (content : List UInt8) :
    CommitPc → Act → Option (World × CommitPc)
  | .stat, .go =>
    if w.stat digest.1 then
      -- the content is hashed all the same, and not stored again
      if S.digestOf content = digest.1 then some (w, .upsert) else some (w, .done)
    else some (w, .put)
  | .put, .go =>
    if S.digestOf content = digest.1 then some (w.put digest.1 content, .upsert)
    else some (w, .done)
  | .put, .fail published =>
    if published && S.digestOf content = digest.1 then some (w.put digest.1 content, .done)
    else some (w, .done)
  | .upsert, .go => some (w.upsertBlob digest, .done)
  | .stat, .fail _ => some (w, .done)
  | .upsert, .fail _ => some (w, .done)
  | _, _ => none

def verifyAct (w : World) (opts : Options) : VerifyPc → Act → Option (World × VerifyPc)
  | .listing, .go =>
    -- `ErrCannotList`
    if !w.lists then some (w, .done) else some (w, .walking w.inventory)
  | .walking inv, .go =>
    -- one query: the rows are those of its snapshot
    if opts.orphans || opts.deleteOrphans then some (w, .orphans inv (w.rows.map Subtype.val))
    else some (w, .done)
  | .orphans left seen, .entry n deletes =>
    match left[n]? with
    | none => none
    | some e =>
      if orphaned opts w.now seen e && deletes then
        some (w.remove e, .orphans (left.eraseIdx n) seen)
      else some (w.examine e, .orphans (left.eraseIdx n) seen)
  | .orphans [] _, .go => some (w, .done)
  | .listing, .fail _ => some (w, .done)
  | .walking _, .fail _ => some (w, .done)
  | _, _ => none

/-- Uploads and verifications over one backend and one database. An upload is committed under a
`sha256:` digest only. -/
def storageProgram (S : Sha256) : Program World Task Act Nat where
  init w := Table.Keyed Stored.key w.objects ∧ w.examined = [] ∧ w.deleted = []
  fresh
    | .commit digest _ pc => supportedDigest digest.1 && decide (pc = .stat)
    | .verify _ pc => decide (pc = .listing)
  act w _
    | .commit digest content pc, a =>
      (commitAct S w digest content pc a).map fun r => (r.1, .commit digest content r.2)
    | .verify opts pc, a =>
      (verifyAct w opts pc a).map fun r => (r.1, .verify opts r.2)
  env w ms := some { w with now := w.now + ms }

/-- Every blob row whose object a verification has deleted has an object again. -/
def World.Referenced (w : World) : Prop :=
  ∀ digest ∈ w.rows, digest.1 ∈ w.deleted → w.stat digest.1 = true

/-- The commit found or wrote its object and has its row still to add. -/
def Task.awaits (t : Task) (digest : Text) : Bool :=
  match t with
  | .commit d _ .upsert => decide (d.1 = digest)
  | _ => false

def deletes (p : Pool World Task) : Move Task Act Nat → Option Text
  | .act i (.entry n true) =>
    match p.tasks[i]? with
    | some (.verify opts (.orphans left seen)) =>
      left[n]?.bind fun e => if orphaned opts p.shared.now seen e then some e.digest else none
    | _ => none
  | _ => none

/-- When an object is deleted its digest has no row, and no commit is about to add one without
writing the object again. -/
def Spares (p : Pool World Task) (m : Move Task Act Nat) : Prop :=
  ∀ digest, deletes p m = some digest →
    (∀ row ∈ p.shared.rows, row.1 ≠ digest) ∧ ∀ t ∈ p.tasks, t.awaits digest = false

/-- One verification, no commit, and no deletion that fails. -/
def Alone (p : Pool World Task) : Move Task Act Nat → Prop
  | .spawn (.commit ..) => False
  | .spawn (.verify ..) => p.tasks = []
  | .act _ (.entry _ deletes) => deletes = true
  | _ => True

end Chicoree.Storage

/-! ## Deletions that spare the rows

No blob with a row loses its object while the deletions of verifications meet `Spares`, and one
that does not meet it costs a row its object. -/

namespace Chicoree.Storage

open Table
open List
open Transition

/-! ## Digests and their keys -/

section digests

variable {digest key : Text}

theorem isDigest_shape (h : isDigest digest = true) : ∃ algo hex,
    digest = algo ++ colon :: hex ∧ algo ≠ [] ∧ colon ∉ algo ∧ slash ∉ algo ∧
      32 ≤ hex.length ∧ hex.all isHexDigit = true := by
  unfold isDigest at h
  simp only [Bool.and_eq_true, decide_eq_true_eq, contains_iff_mem] at h
  obtain ⟨⟨⟨hcolon, hwords⟩, hlength⟩, hdigits⟩ := h
  have hcut : digest.takeWhile (· ≠ colon) ++ digest.dropWhile (· ≠ colon) = digest :=
    takeWhile_append_dropWhile
  have htake : colon ∉ digest.takeWhile (· ≠ colon) := by
    intro hmem
    have := mem_takeWhile_imp hmem
    simp at this
  have hslash : slash ∉ digest.takeWhile (· ≠ colon) := by
    intro hmem
    rcases Trimming.mem_splitOnP (p := isSeparator) hmem with hsep | ⟨word, hword, hmem⟩
    · exact absurd hsep (by decide)
    · have hall := all_eq_true.mp hwords word hword
      rw [Bool.and_eq_true] at hall
      exact absurd (all_eq_true.mp hall.2 slash hmem) (by decide)
  have halgo : digest.takeWhile (· ≠ colon) ≠ [] := by
    intro hnil
    rw [hnil] at hwords
    exact absurd hwords (by decide)
  cases hrest : digest.dropWhile (· ≠ colon) with
  | nil =>
    rw [hrest, append_nil] at hcut
    exact absurd hcolon (hcut ▸ htake)
  | cons c hex =>
    have hhead := head?_dropWhile_not (fun c => decide (c ≠ colon)) digest
    rw [hrest] at hhead
    have hc : c = colon := by simpa using hhead
    rw [hrest] at hlength hdigits hcut
    subst hc
    exact ⟨_, hex, hcut.symm, halgo, htake, hslash, hlength, hdigits⟩

theorem digestFromPath_blobPath (h : isDigest digest = true) :
    digestFromPath (blobPath digest) = some digest := by
  obtain ⟨algo, hex, rfl, halgo, hcolon, hslash, hlength, hdigits⟩ := isDigest_shape h
  have hne : hex ≠ [] := by
    rintro rfl
    exact absurd hlength (by decide)
  have hhex : slash ∉ hex :=
    fun hmem => (isHexDigit_ne (all_eq_true.mp hdigits slash hmem)).2 rfl
  have hsplit : (blobPath (algo ++ colon :: hex)).splitOn slash =
      [blobsDir, algo, hex.take 2, hex] := by
    have hparts : ∀ part ∈ [blobsDir, algo, hex.take 2, hex], slash ∉ part := by
      intro part hpart
      simp only [mem_cons, not_mem_nil, or_false] at hpart
      rcases hpart with rfl | rfl | rfl | rfl
      · decide
      · exact hslash
      · exact fun hmem => hhex (mem_of_mem_take hmem)
      · exact hhex
    rw [blobPath_parts halgo hcolon hne, ← splitOn_intercalate slash hparts (by simp)]
    simp [List.intercalate]
  unfold digestFromPath
  rw [hsplit]
  have hfan : (hex.take 2).length = 2 := by
    rw [length_take]
    omega
  have hprefix : (hex.take 2).isPrefixOf hex = true :=
    isPrefixOf_iff_prefix.mpr (List.take_prefix 2 hex)
  exact if_pos ⟨rfl, halgo, by omega, hprefix, hfan, hdigits⟩

theorem key_of_digest (h : isDigest digest = true) (hkey : digestFromPath key = some digest) :
    key = blobPath digest :=
  digestFromPath_inj hkey (digestFromPath_blobPath h)

/-- Paths of digests can be read back, and what is read from a key is a digest that has it as
its path. -/
structure Inverse (key digest : Text) : Prop where
  read : ∀ d, isDigest d = true → digestFromPath (blobPath d) = some d
  inj : ∀ d d', isDigest d = true → isDigest d' = true → blobPath d = blobPath d' → d = d'
  path : blobPath digest = key

theorem blobPath_inverse_iff (h : digestFromPath key = some digest) :
    Inverse key digest ↔ colon ∉ key := by
  obtain ⟨algo, hex, rfl, halgo, hcolon, hlength, rfl⟩ := digestFromPath_shape h
  have hne : hex ≠ [] := by
    rintro rfl
    cases hlength
  constructor
  · rintro ⟨-, -, hpath⟩ hmem
    have hin : colon ∈ algo := by
      simp only [mem_append, mem_cons] at hmem
      rcases hmem with hmem | hmem | hmem | hmem | hmem | hmem | hmem
      · exact absurd hmem (by decide)
      · exact absurd hmem (by decide)
      · exact hmem
      · exact absurd hmem (by decide)
      · exact absurd (mem_of_mem_take hmem) hcolon
      · exact absurd hmem (by decide)
      · exact absurd hmem hcolon
    obtain ⟨before, after, rfl, hbefore⟩ := eq_append_cons_of_mem hin
    rw [append_assoc, cons_append] at hpath
    cases before with
    | nil =>
      -- such a digest has no algorithm
      rw [blobPath, if_pos (.inr (.inl (by simp)))] at hpath
      simp [blobsDir, invalidDir, colon] at hpath
    | cons c before =>
      rw [blobPath_parts (cons_ne_nil c before) hbefore (by simp)] at hpath
      have hcut := (cons.inj (append_cancel_left hpath)).2
      rw [append_assoc] at hcut
      replace hcut := append_cancel_left hcut
      exact absurd (cons.inj hcut).1 (by decide)
  · intro hkey
    have hfirst : colon ∉ algo := by
      intro hmem
      exact hkey (by simp [hmem])
    refine ⟨fun d => digestFromPath_blobPath, fun d d' hd hd' heq => ?_,
      blobPath_parts halgo hfirst hne⟩
    have hread := digestFromPath_blobPath hd
    rw [heq, digestFromPath_blobPath hd'] at hread
    exact (Option.some.inj hread).symm

/-- `blobs/a/ab/abc` -/
theorem blobPath_inverse_example :
    Inverse "blobs/a/ab/abc".toUTF8.toList "a:abc".toUTF8.toList ∧
      ¬Inverse "blobs/a:b/ab/abc".toUTF8.toList "a:b:abc".toUTF8.toList :=
  ⟨(blobPath_inverse_iff (by decide +kernel)).mpr (by decide +kernel),
    mt (blobPath_inverse_iff (by decide +kernel)).mp (by decide +kernel)⟩

/-- The key `blobs/a:b/ab/abc` is no path of what is read from it. -/
theorem foreign_key_read : ¬ ∀ key digest, digestFromPath key = some digest →
    blobPath digest = key := by
  intro h
  have hpath := h "blobs/a:b/ab/abc".toUTF8.toList "a:b:abc".toUTF8.toList (by decide +kernel)
  exact absurd hpath (by decide +kernel)

end digests

section worlds

variable {w : World} {digest key : Text} {content : List UInt8} {e : Entry}

theorem World.stat_iff : w.stat digest = true ↔ ∃ o ∈ w.objects, o.key = blobPath digest := by
  unfold World.stat
  simp only [any_eq_true, decide_eq_true_eq]

theorem World.stat_put_self : (w.put digest content).stat digest = true :=
  World.stat_iff.mpr ⟨_, mem_upsert_self _ _, rfl⟩

theorem World.stat_put {digest' : Text} (h : w.stat digest = true) :
    (w.put digest' content).stat digest = true := by
  obtain ⟨o, ho, hkey⟩ := World.stat_iff.mp h
  by_cases hsame : blobPath digest' = blobPath digest
  · exact World.stat_iff.mpr ⟨_, mem_upsert_self _ _, hsame⟩
  · refine World.stat_iff.mpr ⟨o, mem_upsert_of_ne ho ?_, hkey⟩
    rw [hkey]
    exact Ne.symm hsame

theorem World.stat_remove :
    (w.remove e).stat digest = true ↔ w.stat digest = true ∧ blobPath digest ≠ e.key := by
  rw [World.stat_iff, World.stat_iff]
  constructor
  · rintro ⟨o, ho, hkey⟩
    obtain ⟨ho, hne⟩ := mem_filter.mp ho
    exact ⟨⟨o, ho, hkey⟩, hkey ▸ of_decide_eq_true hne⟩
  · rintro ⟨⟨o, ho, hkey⟩, hne⟩
    exact ⟨o, mem_filter.mpr ⟨ho, decide_eq_true (hkey ▸ hne)⟩, hkey⟩

theorem World.mem_inventory : e ∈ w.inventory ↔
    ∃ o ∈ w.objects, digestFromPath o.key = some e.digest ∧ e.key = o.key ∧
      e.modTime = o.modTime := by
  unfold World.inventory
  rw [mem_filterMap]
  constructor
  · rintro ⟨o, ho, hentry⟩
    by_cases hprefix : (blobsDir ++ [slash]).isPrefixOf o.key = true
    · rw [if_pos hprefix] at hentry
      obtain ⟨found, hfound, rfl⟩ := Option.map_eq_some_iff.mp hentry
      exact ⟨o, ho, hfound, rfl, rfl⟩
    · rw [if_neg hprefix] at hentry
      cases hentry
  · rintro ⟨o, ho, hdigest, hkey, hmod⟩
    have hprefix : (blobsDir ++ [slash]).isPrefixOf o.key = true := by
      obtain ⟨algo, hex, -, -, -, -, hshape⟩ := digestFromPath_shape hdigest
      refine isPrefixOf_iff_prefix.mpr ⟨algo ++ slash :: (hex.take 2 ++ slash :: hex), ?_⟩
      rw [hshape, append_assoc]
      rfl
    refine ⟨o, ho, ?_⟩
    rw [if_pos hprefix, hdigest]
    cases e
    simp_all

end worlds

/-! ## Single actions -/

variable {opts : Options} {i : Nat} {t t' : Task}

section acts

variable {S : Sha256} {w w' : World} {a : Act}

/-- An action of a commit leaves the store, publishes the object, or adds the row. A commit
that has only its row to add has found the object or published it. -/
theorem commitAct_cases {digest : BlobDigest} {content : List UInt8} {pc pc' : CommitPc}
    (h : commitAct S w digest content pc a = some (w', pc')) :
    (w' = w ∧ (pc' = .upsert → w.stat digest.1 = true)) ∨ w' = w.put digest.1 content ∨
      (pc = .upsert ∧ w' = w.upsertBlob digest ∧ pc' = .done) := by
  cases pc with
  | stat =>
    cases a with
    | go =>
      simp only [commitAct] at h
      split at h
      · rename_i hfound
        split at h <;> cases h
        · exact .inl ⟨rfl, fun _ => hfound⟩
        · exact .inl ⟨rfl, nofun⟩
      · cases h
        exact .inl ⟨rfl, nofun⟩
    | fail published =>
      cases h
      exact .inl ⟨rfl, nofun⟩
    | entry n deletes => cases h
  | put =>
    cases a with
    | go | fail published =>
      simp only [commitAct] at h
      split at h <;> cases h
      · exact .inr (.inl rfl)
      · exact .inl ⟨rfl, nofun⟩
    | entry n deletes => cases h
  | upsert =>
    cases a with
    | go =>
      cases h
      exact .inr (.inr ⟨rfl, rfl, rfl⟩)
    | fail published =>
      cases h
      exact .inl ⟨rfl, nofun⟩
    | entry n deletes => cases h
  | done => cases a <;> cases h

/-- An action of a verification takes its listing, or the rows, or ends, or looks at the next
entry and deletes its object or does not. -/
theorem verifyAct_cases {pc pc' : VerifyPc} (h : verifyAct w opts pc a = some (w', pc')) :
    (w' = w ∧ (pc' = .done ∨ (pc = .listing ∧ pc' = .walking w.inventory) ∨
      ∃ inv, pc = .walking inv ∧ pc' = .orphans inv (w.rows.map Subtype.val))) ∨
    ∃ left seen n deletes e, pc = .orphans left seen ∧ a = .entry n deletes ∧
      left[n]? = some e ∧ pc' = .orphans (left.eraseIdx n) seen ∧
        ((orphaned opts w.now seen e = true ∧ deletes = true ∧ w' = w.remove e) ∨
          ((orphaned opts w.now seen e && deletes) = false ∧ w' = w.examine e)) := by
  cases pc with
  | listing =>
    cases a with
    | go =>
      simp only [verifyAct] at h
      split at h <;> cases h
      · exact .inl ⟨rfl, .inl rfl⟩
      · exact .inl ⟨rfl, .inr (.inl ⟨rfl, rfl⟩)⟩
    | fail published =>
      cases h
      exact .inl ⟨rfl, .inl rfl⟩
    | entry n deletes => cases h
  | walking inv =>
    cases a with
    | go =>
      simp only [verifyAct] at h
      split at h <;> cases h
      · exact .inl ⟨rfl, .inr (.inr ⟨inv, rfl, rfl⟩)⟩
      · exact .inl ⟨rfl, .inl rfl⟩
    | fail published =>
      cases h
      exact .inl ⟨rfl, .inl rfl⟩
    | entry n deletes => cases h
  | orphans left seen =>
    cases a with
    | go =>
      cases left with
      | nil =>
        cases h
        exact .inl ⟨rfl, .inl rfl⟩
      | cons e left => cases h
    | fail published => cases left <;> cases h
    | entry n deletes =>
      cases hn : left[n]? with
      | none => simp only [verifyAct, hn] at h; cases h
      | some e =>
        by_cases hdelete : (orphaned opts w.now seen e && deletes) = true
        · simp only [verifyAct, hn, if_pos hdelete] at h
          cases h
          obtain ⟨horphaned, hdeletes⟩ := Bool.and_eq_true_iff.mp hdelete
          exact .inr ⟨left, seen, n, deletes, e, rfl, rfl, hn, rfl, .inl ⟨horphaned, hdeletes, rfl⟩⟩
        · simp only [verifyAct, hn, if_neg hdelete] at h
          cases h
          exact .inr ⟨left, seen, n, deletes, e, rfl, rfl, hn, rfl,
            .inr ⟨Bool.not_eq_true _ ▸ hdelete, rfl⟩⟩
  | done => cases a <;> cases h

theorem act_cases (h : (storageProgram S).act w i t a = some (w', t')) :
    (∃ digest content pc pc', t = .commit digest content pc ∧ t' = .commit digest content pc' ∧
      commitAct S w digest content pc a = some (w', pc')) ∨
    ∃ opts pc pc', t = .verify opts pc ∧ t' = .verify opts pc' ∧
      verifyAct w opts pc a = some (w', pc') := by
  cases t with
  | commit digest content pc =>
    obtain ⟨r, hr, heq⟩ := Option.map_eq_some_iff.mp h
    obtain ⟨rfl, rfl⟩ := Prod.mk.inj heq
    exact .inl ⟨digest, content, pc, r.2, rfl, rfl, hr⟩
  | verify opts pc =>
    obtain ⟨r, hr, heq⟩ := Option.map_eq_some_iff.mp h
    obtain ⟨rfl, rfl⟩ := Prod.mk.inj heq
    exact .inr ⟨opts, pc, r.2, rfl, rfl, hr⟩

end acts

/-! ## Deletions that spare the rows -/

/-- The entries of a verification are read from their own keys. -/
def ReadKeys : Task → Prop
  | .verify _ (.walking inv) => ∀ e ∈ inv, digestFromPath e.key = some e.digest
  | .verify _ (.orphans left _) => ∀ e ∈ left, digestFromPath e.key = some e.digest
  | _ => True

/-- A commit with only its row to add has its object, if one was ever deleted. -/
def Awaited (w : World) (t : Task) : Prop :=
  ∀ digest : BlobDigest, t.awaits digest.1 = true → digest.1 ∈ w.deleted → w.stat digest.1 = true

section spared

variable {S : Sha256} {p p' : Pool World Task} {m : Move Task Act Nat}

variable {w w' : World}

theorem act_readKeys {a : Act}
    (h : (storageProgram S).act w i t a = some (w', t')) (ht : ReadKeys t) : ReadKeys t' := by
  rcases act_cases h with ⟨digest, content, pc, pc', rfl, rfl, -⟩ | ⟨opts, pc, pc', rfl, rfl, hv⟩
  · trivial
  rcases verifyAct_cases hv with ⟨-, rfl | ⟨-, rfl⟩ | ⟨inv, rfl, rfl⟩⟩ |
      ⟨left, seen, n, deletes, e, rfl, -, -, rfl, -⟩
  · trivial
  · intro e he
    obtain ⟨o, -, hdigest, hkey, -⟩ := World.mem_inventory.mp he
    rw [hkey]
    exact hdigest
  · exact ht
  · intro e he
    exact ht e (mem_of_mem_eraseIdx he)

theorem fresh_awaits (h : (storageProgram S).fresh t = true) (digest : Text) :
    t.awaits digest = false ∧ ReadKeys t := by
  cases t with
  | commit d content pc =>
    obtain ⟨-, hpc⟩ := Bool.and_eq_true_iff.mp h
    cases of_decide_eq_true hpc
    exact ⟨rfl, trivial⟩
  | verify opts pc =>
    cases of_decide_eq_true h
    exact ⟨rfl, trivial⟩

theorem readKeys_run (h : (storageProgram S).machine.Reachable p) : ∀ t ∈ p.tasks, ReadKeys t := by
  have o : (storageProgram S).Outline (fun _ _ => True) (fun _ => True)
      (fun _ _ t => ReadKeys t) := by
    constructor
    · intros
      trivial
    · intro p t _ _ hfresh
      exact (fresh_awaits hfresh []).2
    · intro p i a t w' t' hp _ ht hact
      exact ⟨trivial, act_readKeys hact (hp.tasks i t ht)⟩
    · intro p i a t w' t' hp _ _ _ j q _ hq
      exact hp.tasks j q hq
    · intro p ms w' hp _ _
      exact ⟨trivial, hp.tasks⟩
  intro t ht
  obtain ⟨i, hi⟩ := mem_iff_getElem?.mp ht
  exact (o.run h).tasks i t hi

variable {e : Entry}

theorem stat_remove_ne (hkey : digestFromPath e.key = some e.digest)
    {digest : BlobDigest} (hne : digest.1 ≠ e.digest) (h : w.stat digest.1 = true) :
    (w.remove e).stat digest.1 = true := by
  refine World.stat_remove.mpr ⟨h, ?_⟩
  intro hsame
  rw [← hsame, digestFromPath_blobPath digest.2] at hkey
  exact hne (Option.some.inj hkey)

theorem stat_remove_self (hkey : digestFromPath e.key = some e.digest)
    {digest : BlobDigest} (heq : digest.1 = e.digest) : (w.remove e).stat digest.1 = false := by
  rw [Bool.eq_false_iff]
  intro h
  have hne := (World.stat_remove.mp h).2
  exact hne (key_of_digest digest.2 (heq ▸ hkey)).symm

variable {n : Nat} {left : List Entry} {seen : List Text}

theorem deletes_eq
    (ht : p.tasks[i]? = some (.verify opts (.orphans left seen))) (hn : left[n]? = some e)
    (horphaned : orphaned opts p.shared.now seen e = true) :
    deletes p (.act i (.entry n true)) = some e.digest := by
  simp only [deletes, ht, hn, Option.bind_some, if_pos horphaned]

theorem Awaited.of_stat (h : Awaited w t) (hdeleted : w'.deleted = w.deleted)
    (hstat : ∀ digest, w.stat digest = true → w'.stat digest = true) : Awaited w' t := by
  intro digest hawaits hmem
  rw [hdeleted] at hmem
  exact hstat _ (h digest hawaits hmem)

theorem spared_outline : (storageProgram S).Outline Spares World.Referenced
    (fun w _ t => Awaited w t ∧ ReadKeys t) := by
  constructor
  · rintro w ⟨-, -, hdeleted⟩ digest - hmem
    rw [hdeleted] at hmem
    exact absurd hmem not_mem_nil
  · intro p t _ _ hfresh
    refine ⟨?_, (fresh_awaits hfresh []).2⟩
    intro digest hawaits
    rw [(fresh_awaits hfresh digest.1).1] at hawaits
    cases hawaits
  · intro p i a t w' t' hp hspares ht hact
    obtain ⟨hawaited, hkeys⟩ := hp.tasks i t ht
    have hkeys' := act_readKeys hact hkeys
    rcases act_cases hact with ⟨digest, content, pc, pc', rfl, rfl, h⟩ | ⟨opts, pc, pc', rfl, rfl, h⟩
    · rcases commitAct_cases h with ⟨rfl, hfound⟩ | rfl | ⟨rfl, rfl, rfl⟩
      · refine ⟨hp.shared, ?_, trivial⟩
        intro d hawaits _
        cases pc' with
        | upsert => exact of_decide_eq_true hawaits ▸ hfound rfl
        | _ => cases hawaits
      · refine ⟨?_, ?_, trivial⟩
        · intro row hrow hmem
          exact World.stat_put (hp.shared row hrow hmem)
        · intro d hawaits _
          cases pc' with
          | upsert => exact of_decide_eq_true hawaits ▸ World.stat_put_self
          | _ => cases hawaits
      · refine ⟨?_, nofun, trivial⟩
        intro row hrow hmem
        rcases mem_of_mem_insertNew hrow with hrow | rfl
        · exact hp.shared row hrow hmem
        · -- the row that the commit had still to add
          exact hawaited row (decide_eq_true rfl) hmem
    · rcases verifyAct_cases h with ⟨rfl, -⟩ | ⟨left, seen, n, deletes, e, rfl, rfl, hn, rfl, hcase⟩
      · exact ⟨hp.shared, nofun, hkeys'⟩
      · rcases hcase with ⟨horphaned, rfl, rfl⟩ | ⟨-, rfl⟩
        · have hkey := hkeys e (mem_of_getElem? hn)
          have hspared := hspares e.digest (deletes_eq ht hn horphaned)
          refine ⟨?_, nofun, hkeys'⟩
          intro row hrow hmem
          have hne := hspared.1 row hrow
          rcases mem_append.mp hmem with hmem | hmem
          · exact stat_remove_ne hkey hne (hp.shared row hrow hmem)
          · exact absurd (mem_singleton.mp hmem) hne
        · exact ⟨hp.shared, nofun, hkeys'⟩
  · intro p i a t w' t' hp hspares ht hact j q _ hq
    obtain ⟨hawaited, hkeys⟩ := hp.tasks j q hq
    refine ⟨?_, hkeys⟩
    rcases act_cases hact with ⟨digest, content, pc, pc', rfl, rfl, h⟩ | ⟨opts, pc, pc', rfl, rfl, h⟩
    · rcases commitAct_cases h with ⟨rfl, -⟩ | rfl | ⟨-, rfl, -⟩
      · exact hawaited
      · exact hawaited.of_stat rfl fun _ => World.stat_put
      · exact hawaited.of_stat rfl fun _ h => h
    · rcases verifyAct_cases h with ⟨rfl, -⟩ | ⟨left, seen, n, deletes, e, rfl, rfl, hn, rfl, hcase⟩
      · exact hawaited
      · rcases hcase with ⟨horphaned, rfl, rfl⟩ | ⟨-, rfl⟩
        · have hkey := (hp.tasks i _ ht).2 e (mem_of_getElem? hn)
          have hspared := hspares e.digest (deletes_eq ht hn horphaned)
          intro d hawaits hmem
          have hne : d.1 ≠ e.digest := by
            intro heq
            have hnone := hspared.2 q (mem_of_getElem? hq)
            rw [heq, hnone] at hawaits
            cases hawaits
          rcases mem_append.mp hmem with hmem | hmem
          · exact stat_remove_ne hkey hne (hawaited d hawaits hmem)
          · exact absurd (mem_singleton.mp hmem) hne
        · exact hawaited.of_stat rfl fun _ h => h
  · intro p ms w' hp _ henv
    cases henv
    exact ⟨hp.shared, hp.tasks⟩

theorem of_deletes {digest : Text} (h : deletes p m = some digest) :
    ∃ i n opts left seen e, m = .act i (.entry n true) ∧
      p.tasks[i]? = some (.verify opts (.orphans left seen)) ∧ left[n]? = some e ∧
        orphaned opts p.shared.now seen e = true ∧ e.digest = digest := by
  unfold deletes at h
  split at h
  · rename_i i n
    split at h
    · rename_i opts left seen ht
      obtain ⟨e, hn, he⟩ := Option.bind_eq_some_iff.mp h
      by_cases horphaned : orphaned opts p.shared.now seen e = true
      · rw [if_pos horphaned] at he
        exact ⟨i, n, opts, left, seen, e, rfl, ht, hn, horphaned, Option.some.inj he⟩
      · rw [if_neg horphaned] at he
        cases he
    · cases h
  · cases h

theorem step_deletes (ht : p.tasks[i]? = some (.verify opts (.orphans left seen)))
    (hn : left[n]? = some e) (horphaned : orphaned opts p.shared.now seen e = true) :
    (storageProgram S).step p (.act i (.entry n true)) = some ⟨p.shared.remove e,
      p.tasks.set i (.verify opts (.orphans (left.eraseIdx n) seen))⟩ := by
  have hact : (storageProgram S).act p.shared i (.verify opts (.orphans left seen))
      (.entry n true) = some (p.shared.remove e,
        .verify opts (.orphans (left.eraseIdx n) seen)) := by
    have hdelete : (orphaned opts p.shared.now seen e && true) = true := by
      rw [horphaned]
      rfl
    simp only [storageProgram, verifyAct, hn, if_pos hdelete, Option.map_some]
  simp only [Program.step, ht, hact]

/-- A deletion that does not spare a digest leaves a row without an object: the row is there,
or the commit that was about to add it does so. -/
theorem lost_of_not_spares (h : (storageProgram S).machine.Reachable p)
    (hstep : (storageProgram S).step p m = some p') (hspares : ¬Spares p m) :
    ∃ q, (storageProgram S).machine.Path (fun _ _ => True) p' q ∧ ¬q.shared.Referenced := by
  simp only [Spares, not_forall] at hspares
  obtain ⟨digest, hdeletes, hnot⟩ := hspares
  obtain ⟨i, n, opts, left, seen, e, rfl, ht, hn, horphaned, rfl⟩ := of_deletes hdeletes
  have hkey : digestFromPath e.key = some e.digest :=
    readKeys_run h _ (mem_of_getElem? ht) e (mem_of_getElem? hn)
  obtain rfl := Option.some.inj ((step_deletes ht hn horphaned).symm.trans hstep)
  have hdeleted : e.digest ∈ (p.shared.remove e).deleted :=
    mem_append_right _ (mem_singleton.mpr rfl)
  by_cases hrow : ∃ row ∈ p.shared.rows, row.1 = e.digest
  · obtain ⟨row, hrow, heq⟩ := hrow
    refine ⟨_, .refl, ?_⟩
    intro hreferenced
    have hfound := hreferenced row hrow (heq ▸ hdeleted)
    rw [stat_remove_self hkey heq] at hfound
    cases hfound
  · have hawaits : ∃ t ∈ p.tasks, t.awaits e.digest = true := by
      by_contra hnone
      refine hnot ⟨fun row hmem heq => hrow ⟨row, hmem, heq⟩, fun t ht => ?_⟩
      rw [Bool.eq_false_iff]
      exact fun hawaits => hnone ⟨t, ht, hawaits⟩
    obtain ⟨t, hmem, hawaits⟩ := hawaits
    obtain ⟨j, hj⟩ := mem_iff_getElem?.mp hmem
    match t with
    | .commit d content .upsert =>
      have heq : d.1 = e.digest := of_decide_eq_true hawaits
      have hji : i ≠ j := by
        rintro rfl
        cases ht.symm.trans hj
      let q : Pool World Task := ⟨(p.shared.remove e).upsertBlob d, (p.tasks.set i
        (.verify opts (.orphans (left.eraseIdx n) seen))).set j (.commit d content .done)⟩
      have hrun : (storageProgram S).step ⟨p.shared.remove e, p.tasks.set i
          (.verify opts (.orphans (left.eraseIdx n) seen))⟩ (.act j .go) = some q := by
        have hj' : (p.tasks.set i (.verify opts (.orphans (left.eraseIdx n) seen)))[j]? =
            some (.commit d content .upsert) := by
          rw [getElem?_set_ne hji]
          exact hj
        simp only [Program.step, hj']
        rfl
      have hstep' : (storageProgram S).machine.step _ (.act j .go) = some q := hrun
      refine ⟨q, .step .refl trivial hstep', ?_⟩
      intro hreferenced
      have hadded : d ∈ ((p.shared.remove e).upsertBlob d).rows := by
        have hnew : ∃ row ∈ Table.insertNew id d (p.shared.remove e).rows, id row = id d :=
          exists_key_insertNew d _
        obtain ⟨row, hrow, hsame⟩ := hnew
        have hsame : row = d := hsame
        exact hsame ▸ hrow
      have hfound : (p.shared.remove e).stat d.1 = true := hreferenced d hadded (heq ▸ hdeleted)
      rw [stat_remove_self hkey heq] at hfound
      cases hfound

end spared

end Chicoree.Storage
