import Chicoree.Lib.Machine
import Chicoree.Registryd.Store

/-! # Upload commits, blob deletes and garbage collections side by side

The three handlers that change which content exists, each as the sequence of its
database transactions and driver calls. `hash` is the sha256 of a content in
digest form; a call that fails ends its request with 500, except in the loop of
the garbage collection, which goes on. -/

namespace Chicoree.Registryd

open List

/-- Content of an object or of an upload session. -/
abbrev Bytes := List UInt8

/-- What is staged for an upload: the bytes, and the offset its session row
records. -/
structure UploadSession where
  content : Bytes
  offset : Nat
deriving DecidableEq

/-! ## The storage driver -/

/-- The published objects, by digest. -/
abbrev Driver := List (Digest × Bytes)

namespace Driver

def stat (dr : Driver) (d : Digest) : Bool :=
  List.any dr fun o => decide (o.1 = d)

def put (dr : Driver) (d : Digest) (c : Bytes) : Driver :=
  Table.upsert Prod.fst (d, c) dr

def delete (dr : Driver) (d : Digest) : Driver :=
  List.filter (fun o => decide (o.1 ≠ d)) dr

end Driver

/-- What the requests share: database, storage driver and clock. -/
structure Storage where
  db : Db
  driver : Driver
  now : Time
deriving DecidableEq

/-- An upload commit whose digest parameter is a well-formed sha256 digest. -/
structure CommitRequest where
  org : String
  name : String
  expected : Digest
  session : UploadSession
deriving DecidableEq

inductive CommitPc where
  | stat
  | resolve (found : Bool) (pc : ResolvePc)
  | put (repo : Repository)
  | upsertBlob (repo : Repository)
deriving DecidableEq

inductive DeletePc where
  | getRepository
  | manifestRefs (repo : Repository)
  | unlink (repo : Repository)
  | erase
deriving DecidableEq

inductive GcPc where
  | unlinkGarbage
  | deleteOrphans (cutoff : Time)
  | erase (orphaned : List Digest)
deriving DecidableEq

inductive BlobTask where
  | commit (rq : CommitRequest) (pc : CommitPc)
  | blobDelete (org name : String) (d : Digest) (pc : DeletePc)
  | gc (grace : Nat) (pc : GcPc)
  | done (status : Nat)
deriving DecidableEq

namespace BlobTask

def fresh : BlobTask → Bool
  | .commit _ .stat => true
  | .blobDelete _ _ _ .getRepository => true
  | .gc _ .unlinkGarbage => true
  | _ => false

def isDone : BlobTask → Bool
  | .done _ => true
  | _ => false

end BlobTask

section Handlers

variable (hash : Bytes → Digest)

def commitUpload (s : Storage) (rq : CommitRequest) :
    CommitPc → Answer → Option (Storage × BlobTask)
  | .stat, .ok =>
    if s.driver.stat rq.expected then
      -- the content is hashed all the same: a wrong digest links nothing
      if hash rq.session.content ≠ rq.expected ∨ rq.session.content.length ≠ rq.session.offset then
        some (s, .done 400)
      else some (s, .commit rq (.resolve true .getRepository))
    else some (s, .commit rq (.resolve false .getRepository))
  | .stat, .failed => some (s, .done 500)
  | .resolve found pc, a =>
    match resolveStep s.db rq.org rq.name rq.expected pc a with
    | none => none
    | some (db, .more pc') => some ({ s with db := db }, .commit rq (.resolve found pc'))
    | some (db, .answered status) => some ({ s with db := db }, .done status)
    | some (db, .repo r) =>
      some ({ s with db := db }, .commit rq (if found then .upsertBlob r else .put r))
  | .put r, .ok =>
    if hash rq.session.content ≠ rq.expected then some (s, .done 400)
    else if rq.session.content.length ≠ rq.session.offset then some (s, .done 500)
    else
      some ({ s with driver := s.driver.put rq.expected rq.session.content },
        .commit rq (.upsertBlob r))
  | .put _, .lost =>
    if hash rq.session.content ≠ rq.expected ∨
        rq.session.content.length ≠ rq.session.offset then none
    else
      some ({ s with driver := s.driver.put rq.expected rq.session.content }, .done 500)
  | .put _, .failed => some (s, .done 500)
  | .upsertBlob r, .ok =>
    match s.db.upsertBlob r.id rq.expected rq.session.offset s.now with
    | some db => some ({ s with db := db }, .done 201)
    | none => some (s, .done 500)
  | .upsertBlob r, .lost =>
    match s.db.upsertBlob r.id rq.expected rq.session.offset s.now with
    | some db => some ({ s with db := db }, .done 500)
    | none => none
  | .upsertBlob _, .failed => some (s, .done 500)
  | _, _ => none

def handleBlobDelete (s : Storage) (org name : String) (d : Digest) :
    DeletePc → Answer → Option (Storage × BlobTask)
  | .getRepository, .ok =>
    match s.db.getRepository org name with
    | some r => some (s, .blobDelete org name d (.manifestRefs r))
    | none => some (s, .done 404)
  -- the name is a former name: deletes never follow a redirect
  | .getRepository, .refused =>
    match s.db.getRepository org name with
    | some _ => none
    | none => some (s, .done 403)
  | .manifestRefs r, .ok =>
    if s.db.blobManifestRefs r.id d > 0 then some (s, .done 409)
    else some (s, .blobDelete org name d (.unlink r))
  | .unlink r, .ok =>
    match s.db.unlinkBlob r.id d with
    | none => some (s, .done 404)
    | some (db, remaining) =>
      if remaining = 0 then some ({ s with db := db }, .blobDelete org name d .erase)
      else some ({ s with db := db }, .done 202)
  | .unlink r, .lost =>
    match s.db.unlinkBlob r.id d with
    | none => none
    | some (db, _) => some ({ s with db := db }, .done 500)
  | .erase, .ok => some ({ s with driver := s.driver.delete d }, .done 202)
  | .erase, .lost => some ({ s with driver := s.driver.delete d }, .done 500)
  | _, .failed => some (s, .done 500)
  | _, _ => none

/-- One call of `handleGC`: the two statements of `CollectGarbage`, then the
deletion of each orphaned digest from the driver. -/
def handleGC (s : Storage) (grace : Nat) :
    GcPc → Answer → Option (Storage × BlobTask)
  | .unlinkGarbage, .ok =>
    let cutoff := s.now - grace
    some ({ s with db := s.db.unlinkGarbage cutoff }, .gc grace (.deleteOrphans cutoff))
  | .unlinkGarbage, .lost =>
    some ({ s with db := s.db.unlinkGarbage (s.now - grace) }, .done 500)
  | .unlinkGarbage, .failed => some (s, .done 500)
  | .deleteOrphans cutoff, .ok =>
    let (db, orphaned) := s.db.deleteOrphans cutoff
    some ({ s with db := db }, .gc grace (.erase orphaned))
  | .deleteOrphans cutoff, .lost =>
    some ({ s with db := (s.db.deleteOrphans cutoff).1 }, .done 500)
  | .deleteOrphans _, .failed => some (s, .done 500)
  | .erase (d :: ds), .ok =>
    some ({ s with driver := s.driver.delete d }, .gc grace (.erase ds))
  | .erase (d :: ds), .lost =>
    some ({ s with driver := s.driver.delete d }, .gc grace (.erase ds))
  -- a failed deletion is logged and the loop goes on
  | .erase (_ :: ds), .failed => some (s, .gc grace (.erase ds))
  | .erase [], .ok => some (s, .done 200)
  | _, _ => none

def blobAct (s : Storage) (_ : Nat) : BlobTask → Answer → Option (Storage × BlobTask)
  | .commit rq pc, a => commitUpload hash s rq pc a
  | .blobDelete org name d pc, a => handleBlobDelete s org name d pc a
  | .gc grace pc, a => handleGC s grace pc a
  | .done _, _ => none

end Handlers

/-! ## What a call does -/

section calls

variable {hash : Bytes → Digest} {s s' : Storage} {a : Answer} {t' : BlobTask}

inductive CommitCall (hash : Bytes → Digest) (s : Storage) (rq : CommitRequest) :
    CommitPc → Answer → Storage → BlobTask → Prop
  | found (stat : s.driver.stat rq.expected = true) (digest : hash rq.session.content = rq.expected)
      (length : rq.session.content.length = rq.session.offset) :
      CommitCall hash s rq .stat .ok s (.commit rq (.resolve true .getRepository))
  | missing (stat : s.driver.stat rq.expected = false) :
      CommitCall hash s rq .stat .ok s (.commit rq (.resolve false .getRepository))
  | answered {pc : CommitPc} {a : Answer} {status : Nat} (refused : status ≠ 201)
      (known : a ≠ .lost) : CommitCall hash s rq pc a s (.done status)
  | more {found : Bool} {pc pc' : ResolvePc} {a : Answer} {db : Db}
      (resolve : resolveStep s.db rq.org rq.name rq.expected pc a = some (db, .more pc')) :
      CommitCall hash s rq (.resolve found pc) a { s with db := db }
        (.commit rq (.resolve found pc'))
  | resolveAnswered {found : Bool} {pc : ResolvePc} {a : Answer} {db : Db} {status : Nat}
      (resolve : resolveStep s.db rq.org rq.name rq.expected pc a = some (db, .answered status)) :
      CommitCall hash s rq (.resolve found pc) a { s with db := db } (.done status)
  | resolved {found : Bool} {pc : ResolvePc} {a : Answer} {db : Db} {r : Repository}
      (resolve : resolveStep s.db rq.org rq.name rq.expected pc a = some (db, .repo r)) :
      CommitCall hash s rq (.resolve found pc) a { s with db := db }
        (.commit rq (if found then .upsertBlob r else .put r))
  | put {r : Repository} (digest : hash rq.session.content = rq.expected)
      (length : rq.session.content.length = rq.session.offset) :
      CommitCall hash s rq (.put r) .ok
        { s with driver := s.driver.put rq.expected rq.session.content }
        (.commit rq (.upsertBlob r))
  | putLost {r : Repository} (digest : hash rq.session.content = rq.expected) :
      CommitCall hash s rq (.put r) .lost
        { s with driver := s.driver.put rq.expected rq.session.content } (.done 500)
  | upsert {r : Repository} {db : Db}
      (row : s.db.upsertBlob r.id rq.expected rq.session.offset s.now = some db) :
      CommitCall hash s rq (.upsertBlob r) .ok { s with db := db } (.done 201)
  | upsertLost {r : Repository} {db : Db}
      (row : s.db.upsertBlob r.id rq.expected rq.session.offset s.now = some db) :
      CommitCall hash s rq (.upsertBlob r) .lost { s with db := db } (.done 500)

theorem commitUpload_call {rq : CommitRequest} {pc : CommitPc}
    (h : commitUpload hash s rq pc a = some (s', t')) : CommitCall hash s rq pc a s' t' := by
  cases pc with
  | stat =>
    cases a <;> simp only [commitUpload, reduceCtorEq] at h
    case ok =>
      split at h
      · rename_i hstat
        split at h
        · cases h
          exact .answered (by decide) (by simp)
        · rename_i hok
          cases h
          have hok := not_or.mp hok
          exact .found hstat (not_not.mp hok.1) (not_not.mp hok.2)
      · rename_i hstat
        cases h
        exact .missing (Bool.eq_false_iff.mpr hstat)
    case failed =>
      cases h
      exact .answered (by decide) (by simp)
  | resolve found pc =>
    simp only [commitUpload] at h
    split at h
    · cases h
    all_goals
      rename_i hstep
      cases h
    · exact .more hstep
    · exact .resolveAnswered hstep
    · exact .resolved hstep
  | put r =>
    cases a <;> simp only [commitUpload, reduceCtorEq] at h
    case ok =>
      split at h
      · cases h
        exact .answered (by decide) (by simp)
      · rename_i hdigest
        split at h
        · cases h
          exact .answered (by decide) (by simp)
        · rename_i hlength
          cases h
          exact .put (not_not.mp hdigest) (not_not.mp hlength)
    case lost =>
      split at h
      · cases h
      · rename_i hok
        cases h
        exact .putLost (not_not.mp (not_or.mp hok).1)
    case failed =>
      cases h
      exact .answered (by decide) (by simp)
  | upsertBlob r =>
    cases a <;> simp only [commitUpload, reduceCtorEq] at h
    case ok =>
      split at h
      · rename_i db hdb
        cases h
        exact .upsert hdb
      · cases h
        exact .answered (by decide) (by simp)
    case lost =>
      split at h
      · rename_i db hdb
        cases h
        exact .upsertLost hdb
      · cases h
    case failed =>
      cases h
      exact .answered (by decide) (by simp)

inductive DeleteCall (s : Storage) (org name : String) (d : Digest) :
    DeletePc → Answer → Storage → BlobTask → Prop
  | answered {pc : DeletePc} {a : Answer} {status : Nat} :
      DeleteCall s org name d pc a s (.done status)
  | looked {pc : DeletePc} {a : Answer} {r : Repository} :
      DeleteCall s org name d pc a s (.blobDelete org name d (.manifestRefs r))
  | free {pc : DeletePc} {a : Answer} {r : Repository} :
      DeleteCall s org name d pc a s (.blobDelete org name d (.unlink r))
  | unlinkLast {r : Repository} {a : Answer} {db : Db} {n : Nat} (took : a ≠ .failed)
      (row : s.db.unlinkBlob r.id d = some (db, n)) :
      DeleteCall s org name d (.unlink r) a { s with db := db } (.blobDelete org name d .erase)
  | unlink {r : Repository} {a : Answer} {db : Db} {n status : Nat} (took : a ≠ .failed)
      (row : s.db.unlinkBlob r.id d = some (db, n)) :
      DeleteCall s org name d (.unlink r) a { s with db := db } (.done status)
  | erase {a : Answer} {status : Nat} (took : a ≠ .failed) :
      DeleteCall s org name d .erase a { s with driver := s.driver.delete d } (.done status)

theorem handleBlobDelete_call {org name : String} {d : Digest} {pc : DeletePc}
    (h : handleBlobDelete s org name d pc a = some (s', t')) :
    DeleteCall s org name d pc a s' t' := by
  cases pc with
  | getRepository =>
    cases a <;> simp only [handleBlobDelete, reduceCtorEq] at h
    case ok => split at h <;> cases h <;> [exact .looked; exact .answered]
    case refused =>
      split at h <;> cases h
      exact .answered
    case failed =>
      cases h
      exact .answered
  | manifestRefs r =>
    cases a <;> simp only [handleBlobDelete, reduceCtorEq] at h
    case ok => split at h <;> cases h <;> [exact .answered; exact .free]
    case failed =>
      cases h
      exact .answered
  | unlink r =>
    cases a <;> simp only [handleBlobDelete, reduceCtorEq] at h
    case ok =>
      split at h
      · cases h
        exact .answered
      · rename_i db n hdb
        split at h <;> cases h <;> [exact .unlinkLast (by simp) hdb; exact .unlink (by simp) hdb]
    case lost =>
      split at h
      · cases h
      · rename_i db n hdb
        cases h
        exact .unlink (by simp) hdb
    case failed =>
      cases h
      exact .answered
  | erase =>
    cases a <;> simp only [handleBlobDelete, reduceCtorEq] at h
    case failed =>
      cases h
      exact .answered
    all_goals
      cases h
      exact .erase (by simp)

inductive GcCall (s : Storage) (grace : Nat) : GcPc → Answer → Storage → BlobTask → Prop
  | ended {pc : GcPc} {a : Answer} {status : Nat} : GcCall s grace pc a s (.done status)
  | unlink : GcCall s grace .unlinkGarbage .ok { s with db := s.db.unlinkGarbage (s.now - grace) }
      (.gc grace (.deleteOrphans (s.now - grace)))
  | unlinkLost : GcCall s grace .unlinkGarbage .lost
      { s with db := s.db.unlinkGarbage (s.now - grace) } (.done 500)
  | orphans {cutoff : Time} : GcCall s grace (.deleteOrphans cutoff) .ok
      { s with db := (s.db.deleteOrphans cutoff).1 }
      (.gc grace (.erase (s.db.deleteOrphans cutoff).2))
  | orphansLost {cutoff : Time} : GcCall s grace (.deleteOrphans cutoff) .lost
      { s with db := (s.db.deleteOrphans cutoff).1 } (.done 500)
  | erase {a : Answer} {d : Digest} {ds : List Digest} (took : a ≠ .failed) :
      GcCall s grace (.erase (d :: ds)) a { s with driver := s.driver.delete d }
        (.gc grace (.erase ds))
  | kept {d : Digest} {ds : List Digest} :
      GcCall s grace (.erase (d :: ds)) .failed s (.gc grace (.erase ds))

theorem handleGC_call {grace : Nat} {pc : GcPc} (h : handleGC s grace pc a = some (s', t')) :
    GcCall s grace pc a s' t' := by
  unfold handleGC at h
  split at h <;> cases h
  · exact .unlink
  · exact .unlinkLost
  · exact .ended
  · exact .orphans
  · exact .orphansLost
  · exact .ended
  · exact .erase (by simp)
  · exact .erase (by simp)
  · exact .kept
  · exact .ended

end calls

/-- What else happens to the tables meanwhile: time passes, manifest pushes and
deletes change `manifest_refs`, a mount links a known blob, a repository is
deleted with its links. -/
inductive Surrounding where
  | tick (t : Nat)
  | manifestRefs (refs : List ManifestRef)
  | mount (repo : RepoId) (d : Digest)
  | deleteRepository (repo : RepoId)
deriving DecidableEq

def blobEnv (s : Storage) : Surrounding → Option Storage
  | .tick t => some { s with now := s.now + t }
  | .manifestRefs refs => some { s with db := { s.db with manifestRefs := refs } }
  | .mount repo d =>
    if s.db.blobs.any (fun b => decide (b.digest = d)) &&
        s.db.repositories.any (fun r => decide (r.id = repo)) then
      some { s with db := s.db.linkBlob repo d s.now }
    else none
  | .deleteRepository repo =>
    let links := s.db.repositoryBlobs.filter fun l => decide (l.repositoryId ≠ repo)
    let repositories := s.db.repositories.filter fun r => decide (r.id ≠ repo)
    some { s with db := { s.db with repositories := repositories, repositoryBlobs := links } }

/-- A registry without content: whatever organizations and repositories there
are, no blob is recorded and nothing is stored. -/
def emptyRegistry (s : Storage) : Prop :=
  s.db.blobs = [] ∧ s.db.repositoryBlobs = [] ∧ s.driver = []

/-- Any number of commits, deletes and collections, in any order of their steps. -/
def blobProgram (hash : Bytes → Digest) :
    Transition.Program Storage BlobTask Answer Surrounding where
  init := emptyRegistry
  fresh := BlobTask.fresh
  act := blobAct hash
  env := blobEnv

/-! ## Hashing while storing

The `VerifyingReader` that an upload commit hands to the driver, the copy loop that drains
it, and the filesystem driver's `Put`: bytes go to a temporary file, which is renamed onto
the blob only after a clean end. -/

/-! ## Readers -/

inductive ReadEnd where
  | eof
  | failed
deriving DecidableEq

/-- A reader: what its Reads return without an error, and what comes with the error. -/
structure Reader where
  chunks : List Bytes
  last : Bytes
  ending : ReadEnd
deriving DecidableEq

namespace Reader

def content (r : Reader) : Bytes := r.chunks.flatten ++ r.last

def read : Reader → Bytes × Option ReadEnd × Reader
  | ⟨c :: cs, last, ending⟩ => (c, none, ⟨cs, last, ending⟩)
  | ⟨[], last, ending⟩ => (last, some ending, ⟨[], [], ending⟩)

end Reader

/-- The error of a Read through a `VerifyingReader`. -/
inductive ReadError where
  | eof
  | failed
  /-- `ErrDigestMismatch` -/
  | mismatch
deriving DecidableEq

structure VerifyingReader where
  r : Reader
  /-- What the hash was given. -/
  hashed : Bytes := []
  /-- The error every further Read answers. -/
  done : Option ReadError := none
deriving DecidableEq

section verifying

variable (hash : Bytes → Digest) (expected : Digest)

/-- `VerifyingReader.Read`: at the end of the content a mismatch takes the place of
`io.EOF`. -/
def VerifyingReader.read (v : VerifyingReader) : Bytes × Option ReadError × VerifyingReader :=
  match v.done with
  | some e => ([], some e, v)
  | none =>
    let (c, e, r) := v.r.read
    let hashed := v.hashed ++ c
    match e with
    | none => (c, none, { r := r, hashed := hashed })
    | some .failed => (c, some .failed, { r := r, hashed := hashed })
    | some .eof =>
      let e := if hash hashed = expected then .eof else .mismatch
      (c, some e, { r := r, hashed := hashed, done := some e })

/-- `io.Copy` out of a `VerifyingReader`: what was written, and the error it ends with
(`none` for a clean end). `fuel` bounds the Reads. -/
def ioCopy : Nat → VerifyingReader → Bytes → Bytes × Option ReadError
  | 0, _, written => (written, some .failed)
  | fuel + 1, v, written =>
    match v.read hash expected with
    | (c, none, v') => ioCopy fuel v' (written ++ c)
    | (c, some .eof, _) => (written ++ c, none)
    | (c, some e, _) => (written ++ c, some e)

/-- How a `Put` went wrong. -/
inductive PutError where
  | mismatch
  | failed
  | shortWrite
deriving DecidableEq

/-- The filesystem driver's `Put` of a reader under verification. -/
def Driver.putVerified (dr : Driver) (src : Reader) (size : Nat) : Driver × Option PutError :=
  match ioCopy hash expected (src.chunks.length + 1) { r := src } [] with
  | (_, some .mismatch) => (dr, some .mismatch)
  | (_, some _) => (dr, some .failed)
  | (written, none) =>
    if written.length ≠ size then (dr, some .shortWrite)
    else (dr.put expected written, none)

theorem ioCopy_eq (chunks : List Bytes) (last : Bytes) (ending : ReadEnd)
    (hashed written : Bytes) (fuel : Nat) (hfuel : chunks.length < fuel) :
    ioCopy hash expected fuel { r := ⟨chunks, last, ending⟩, hashed := hashed } written =
      (written ++ (chunks.flatten ++ last),
        match ending with
        | .failed => some .failed
        | .eof =>
          if hash (hashed ++ (chunks.flatten ++ last)) = expected then none
          else some .mismatch) := by
  induction chunks generalizing hashed written fuel with
  | nil =>
    obtain ⟨fuel, rfl⟩ : ∃ n, fuel = n + 1 := ⟨fuel - 1, by omega⟩
    cases ending with
    | failed => rfl
    | eof =>
      simp only [ioCopy, VerifyingReader.read, Reader.read, flatten_nil, nil_append]
      by_cases h : hash (hashed ++ last) = expected
      · simp only [h, if_true]
      · simp only [h, if_false]
  | cons c cs ih =>
    obtain ⟨fuel, rfl⟩ : ∃ n, fuel = n + 1 := ⟨fuel - 1, by omega⟩
    have hlt : cs.length < fuel := by
      simp only [length_cons] at hfuel
      omega
    simp only [ioCopy, VerifyingReader.read, Reader.read]
    rw [ih (hashed ++ c) (written ++ c) fuel hlt]
    simp only [flatten_cons, append_assoc]

/-- **`Put` publishes all or nothing.** Content is published only after a clean end with
the expected digest and the expected length. -/
theorem Driver.putVerified_eq (dr : Driver) (src : Reader) (size : Nat) :
    dr.putVerified hash expected src size =
      if src.ending = .failed then (dr, some .failed)
      else if hash src.content ≠ expected then (dr, some .mismatch)
      else if src.content.length ≠ size then (dr, some .shortWrite)
      else (dr.put expected src.content, none) := by
  obtain ⟨chunks, last, ending⟩ := src
  unfold Driver.putVerified
  rw [ioCopy_eq hash expected chunks last ending [] [] _ (Nat.lt_succ_self _)]
  cases ending with
  | failed => rfl
  | eof =>
    simp only [Reader.content, nil_append, reduceCtorEq, if_false]
    by_cases h : hash (chunks.flatten ++ last) = expected
    · simp [h]
    · simp [h]

end verifying

def CommitRequest.afterPut (rq : CommitRequest) (r : Repository) :
    Option PutError → BlobTask
  | none => .commit rq (.upsertBlob r)
  | some .mismatch => .done 400
  | some _ => .done 500

/-- The `Put` of a commit is the streaming one of the filesystem driver, in whatever pieces the
staged content is read and however the reading ends. -/
theorem commitUpload_put_reader (hash : Bytes → Digest) (s : Storage) (org name : String)
    (expected : Digest) (offset : Nat) (r : Repository) (src : Reader) :
    let rq : CommitRequest := ⟨org, name, expected, ⟨src.content, offset⟩⟩
    let out := s.driver.putVerified hash expected src offset
    commitUpload hash s rq (.put r) (if src.ending = .eof then .ok else .failed) =
      some ({ s with driver := out.1 }, rq.afterPut r out.2) := by
  intro rq out
  have hout : out = _ := Driver.putVerified_eq hash expected s.driver src offset
  cases hend : src.ending with
  | failed =>
    rw [hend, if_pos rfl] at hout
    rw [hout]
    rfl
  | eof =>
    rw [hend, if_neg (by simp)] at hout
    simp only [rq, commitUpload, if_true]
    by_cases hhash : hash src.content = expected
    · by_cases hlen : src.content.length = offset
      · simp only [hhash, hlen, ne_eq, not_true_eq_false, if_false] at hout ⊢
        rw [hout]
        rfl
      · simp only [hhash, hlen, ne_eq, not_true_eq_false, not_false_eq_true, if_false,
          if_true] at hout ⊢
        rw [hout]
        rfl
    · simp only [hhash, ne_eq, not_false_eq_true, if_true] at hout ⊢
      rw [hout]
      rfl

end Chicoree.Registryd
