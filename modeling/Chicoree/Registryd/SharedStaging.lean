import Chicoree.Registryd.BlobHandlers

/-! # Upload sessions shared by all replicas

The session rows in the database, the chunk objects in the storage backend, and the
operations of `SharedStaging` on them (`shared.go`, `uploads.go`), each as the sequence of
its calls. A replica that dies leaves a task that never acts again.

Beside the two stores the state keeps a record of the run: which session ids and chunk
keys were given out, and which appends have reported success, in order. No operation
reads it, except that a key or id is never given out twice. -/

namespace Chicoree.Registryd

open List Table

/-- One staged piece of a shared session. -/
structure UploadChunk where
  seq : Nat
  size : Nat
  key : String
deriving DecidableEq

structure UploadSessionRow where
  id : String
  org : String
  repo : String
  offset : Nat
  chunks : List UploadChunk
deriving DecidableEq

/-- An append that has reported success. -/
structure Reported where
  task : Nat
  key : String
  session : String
  body : Bytes

structure SharedStaging where
  sessions : List UploadSessionRow := []
  objects : List (String × Bytes) := []
  issuedIds : List String := []
  issuedKeys : List (String × Nat) := []
  reported : List Reported := []

/-! ## Chunk keys -/

def uploadsPrefix : String := "_uploads/"

def chunkKey (id : String) (seq : Nat) (nonce : String) : String :=
  uploadsPrefix ++ id ++ "/" ++ toString seq ++ "-" ++ nonce

def sessionOfKey (key : String) : String :=
  if uploadsPrefix.toList.isPrefixOf key.toList then
    String.ofList ((key.toList.drop uploadsPrefix.toList.length).takeWhile (· ≠ '/'))
  else ""

/-- What an upload handler takes as the id of a session: a fresh UUID, in particular no
path. -/
def isSessionId (id : String) : Bool :=
  id ≠ "" && id.toList.all (· ≠ '/')

namespace SharedStaging

def getUploadSession (s : SharedStaging) (id : String) : Option UploadSessionRow :=
  Table.find UploadSessionRow.id id s.sessions

def createUploadSession (s : SharedStaging) (id org repo : String) : SharedStaging :=
  { s with sessions := s.sessions ++ [⟨id, org, repo, 0, []⟩]
           issuedIds := s.issuedIds ++ [id] }

def appendedRow (row : UploadSessionRow) (chunk : UploadChunk) : UploadSessionRow :=
  { row with offset := row.offset + chunk.size, chunks := row.chunks ++ [chunk] }

/-- The update of `AppendUploadChunk`: only while the stored offset is the one the caller
saw. Answers the new offset, `none` when no row matched. -/
def appendUploadChunk (s : SharedStaging) (id : String) (expected : Nat)
    (chunk : UploadChunk) : Option (List UploadSessionRow × Nat) :=
  match s.getUploadSession id with
  | none => none
  | some row =>
    if row.offset = expected then
      some (s.sessions.map fun r => if r.id = id then appendedRow r chunk else r,
        row.offset + chunk.size)
    else none

def dropSessions (s : SharedStaging) (p : UploadSessionRow → Bool) : SharedStaging :=
  { s with sessions := s.sessions.filter fun r => !p r }

def getObject (s : SharedStaging) (key : String) : Option Bytes :=
  (Table.find Prod.fst key s.objects).map Prod.snd

def putObject (s : SharedStaging) (key : String) (body : Bytes) : SharedStaging :=
  { s with objects := Table.upsert Prod.fst (key, body) s.objects }

def deleteObject (s : SharedStaging) (key : String) : SharedStaging :=
  { s with objects := s.objects.filter fun o => decide (o.1 ≠ key) }

/-! ## The record of the run -/

def issueKey (s : SharedStaging) (key : String) (task : Nat) : SharedStaging :=
  { s with issuedKeys := s.issuedKeys ++ [(key, task)] }

def reportedTo (s : SharedStaging) (id : String) : List Reported :=
  s.reported.filter fun r => decide (r.session = id)

def confirmed (s : SharedStaging) (id : String) : Bytes :=
  ((s.reportedTo id).map Reported.body).flatten

end SharedStaging

/-! ## Operations -/

/-- How a call ends. `failed` has no effect; `lost` has its effect and answers with an
error; the others carry a choice made in the call. -/
inductive StagingAnswer where
  | ok
  | failed
  | lost
  /-- the fresh id of a session, and whether the creator hears of it -/
  | created (id : String) (acked : Bool)
  /-- the random suffix of a chunk key -/
  | nonce (n : String)
  /-- `PutObject` fails, and may leave an object of some bytes -/
  | broken (left : Option Bytes)
  /-- `GetObject` answers without a size -/
  | unsized
  /-- the sessions that the clock makes expired, and whether the sweeper hears of them -/
  | expired (ids : List String) (acked : Bool)

inductive AppendResult where
  | offset (n : Nat)
  | notFound
  | mismatch (n : Nat)
  | failed
deriving DecidableEq

inductive AppendPc where
  | getSession
  | putObject (chunk : UploadChunk)
  | appendChunk (chunk : UploadChunk)
  /-- the compare-and-set was lost (`lost`), or a call failed -/
  | dropObject (key : String) (lost : Bool)
  | reread (key : String)
  | finished (key : Option String) (result : AppendResult)
deriving DecidableEq

inductive OpenPc where
  | getSession
  /-- `offset` is the size that `Open` reported, `read` what was read so far -/
  | reading (offset : Nat) (rest : List UploadChunk) (read : Bytes)
  | complete (offset : Nat) (read : Bytes)
  | failed
deriving DecidableEq

inductive SweepPc where
  | deleteExpired
  | deleteChunks (todo : List UploadChunk) (removed : Nat)
  | listObjects (removed : Nat)
  | listIds (keys : List String) (removed : Nat)
  | deleteOrphans (todo : List String) (orphans : List String) (removed : Nat)
  | swept (removed : Nat)
  | failed (removed : Nat)
deriving DecidableEq

inductive StagingTask where
  | create (org repo : String)
  | append (id : String) (expected : Nat) (body : Bytes) (pc : AppendPc)
  | openSession (id : String) (pc : OpenPc)
  | remove (id : String)
  | deleteChunks (todo : List UploadChunk)
  | sweep (pc : SweepPc)
  | done
deriving DecidableEq

namespace StagingTask

def fresh : StagingTask → Bool
  | .create _ _ => true
  | .append _ _ _ .getSession => true
  | .openSession _ .getSession => true
  | .remove _ => true
  | .sweep .deleteExpired => true
  | _ => false

end StagingTask

namespace SharedStaging

def create (s : SharedStaging) (org repo : String) :
    StagingAnswer → Option (SharedStaging × StagingTask)
  | .created id _ =>
    if isSessionId id && !s.issuedIds.contains id then
      some (s.createUploadSession id org repo, .done)
    else none
  | .failed => some (s, .done)
  | _ => none

def append (s : SharedStaging) (i : Nat) (id : String) (expected : Nat) (body : Bytes) :
    AppendPc → StagingAnswer → Option (SharedStaging × AppendPc)
  | .getSession, .nonce n =>
    match s.getUploadSession id with
    | none => some (s, .finished none .notFound)
    | some row =>
      if row.offset ≠ expected then some (s, .finished none (.mismatch row.offset))
      else
        let key := chunkKey id row.chunks.length n
        if s.issuedKeys.any (fun k => decide (k.1 = key)) then none
        else some (s.issueKey key i, .putObject ⟨row.chunks.length, 0, key⟩)
  | .getSession, .failed => some (s, .finished none .failed)
  -- the body first goes into an object of its own
  | .putObject chunk, .ok =>
    some (s.putObject chunk.key body, .appendChunk { chunk with size := body.length })
  | .putObject chunk, .broken none => some (s, .dropObject chunk.key false)
  | .putObject chunk, .broken (some left) =>
    some (s.putObject chunk.key left, .dropObject chunk.key false)
  | .appendChunk chunk, .ok =>
    match s.appendUploadChunk id expected chunk with
    | some (sessions, offset) =>
      some ({ s with sessions := sessions, reported := s.reported ++ [⟨i, chunk.key, id, body⟩] },
        .finished (some chunk.key) (.offset offset))
    | none => some (s, .dropObject chunk.key true)
  | .appendChunk chunk, .failed => some (s, .dropObject chunk.key false)
  -- the error of the delete is ignored
  | .dropObject key lost, .ok | .dropObject key lost, .lost =>
    some (s.deleteObject key, if lost then .reread key else .finished (some key) .failed)
  | .dropObject key lost, .failed =>
    some (s, if lost then .reread key else .finished (some key) .failed)
  | .reread key, .ok =>
    match s.getUploadSession id with
    | none => some (s, .finished (some key) .notFound)
    | some row => some (s, .finished (some key) (.mismatch row.offset))
  | .reread key, .failed => some (s, .finished (some key) .failed)
  | _, _ => none

/-- One call of `Open`, or of the reader it returns: the chunk objects, one after the
other. -/
def openSession (s : SharedStaging) (id : String) :
    OpenPc → StagingAnswer → Option OpenPc
  | .getSession, .ok =>
    match s.getUploadSession id with
    | none => some .failed
    | some row => some (.reading row.offset row.chunks [])
  | .getSession, .failed => some .failed
  | .reading offset [] read, .ok => some (.complete offset read)
  | .reading offset (chunk :: rest) read, .ok =>
    match s.getObject chunk.key with
    | none => some .failed
    | some body =>
      if body.length ≠ chunk.size then some .failed
      else some (.reading offset rest (read ++ body))
  | .reading offset (chunk :: rest) read, .unsized =>
    match s.getObject chunk.key with
    | none => some .failed
    | some body => some (.reading offset rest (read ++ body))
  | .reading _ (_ :: _) _, .failed => some .failed
  | _, _ => none

/-- `Remove` deletes the row, and then the chunks it named. -/
def remove (s : SharedStaging) (id : String) :
    StagingAnswer → Option (SharedStaging × StagingTask)
  | .ok =>
    match s.getUploadSession id with
    | none => some (s, .done)
    | some row => some (s.dropSessions fun r => decide (r.id = id), .deleteChunks row.chunks)
  | .lost => some (s.dropSessions fun r => decide (r.id = id), .done)
  | .failed => some (s, .done)
  | _ => none

/-- One delete of `deleteChunks`; a failed one is left to the sweeper. -/
def deleteChunk (s : SharedStaging) (chunk : UploadChunk) :
    StagingAnswer → Option SharedStaging
  | .ok | .lost => some (s.deleteObject chunk.key)
  | .failed => some s
  | _ => none

def orphanKeys (keys live : List String) : List String :=
  keys.filter fun k => decide (sessionOfKey k ≠ "") && !live.contains (sessionOfKey k)

/-- One call of `Sweep`. The objects are listed before the live ids are read. -/
def sweep (s : SharedStaging) : SweepPc → StagingAnswer → Option (SharedStaging × SweepPc)
  | .deleteExpired, .expired ids acked =>
    let rows := s.sessions.filter fun r => ids.contains r.id
    let s' := s.dropSessions fun r => ids.contains r.id
    if acked then some (s', .deleteChunks (rows.flatMap UploadSessionRow.chunks) rows.length)
    else some (s', .failed 0)
  | .deleteExpired, .failed => some (s, .failed 0)
  | .deleteChunks [] removed, .ok => some (s, .listObjects removed)
  | .deleteChunks (chunk :: todo) removed, a =>
    (s.deleteChunk chunk a).map fun s' => (s', .deleteChunks todo removed)
  | .listObjects removed, .ok =>
    if s.objects.isEmpty then some (s, .swept removed)
    else some (s, .listIds (s.objects.map Prod.fst) removed)
  | .listObjects removed, .failed => some (s, .failed removed)
  | .listIds keys removed, .ok =>
    some (s, .deleteOrphans (orphanKeys keys (s.sessions.map UploadSessionRow.id)) [] removed)
  | .listIds _ removed, .failed => some (s, .failed removed)
  | .deleteOrphans [] orphans removed, .ok => some (s, .swept (removed + orphans.length))
  | .deleteOrphans (key :: todo) orphans removed, .ok =>
    some (s.deleteObject key, .deleteOrphans todo (orphans.insert (sessionOfKey key)) removed)
  | .deleteOrphans (key :: todo) orphans removed, .lost =>
    some (s.deleteObject key, .deleteOrphans todo orphans removed)
  | .deleteOrphans (_ :: todo) orphans removed, .failed =>
    some (s, .deleteOrphans todo orphans removed)
  | _, _ => none

def act (s : SharedStaging) (i : Nat) :
    StagingTask → StagingAnswer → Option (SharedStaging × StagingTask)
  | .create org repo, a => s.create org repo a
  | .append id expected body pc, a =>
    (s.append i id expected body pc a).map fun (s', pc') => (s', .append id expected body pc')
  | .openSession id pc, a => (s.openSession id pc a).map fun pc' => (s, .openSession id pc')
  | .remove id, a => s.remove id a
  | .deleteChunks [], .ok => some (s, .done)
  | .deleteChunks (chunk :: todo), a =>
    (s.deleteChunk chunk a).map fun s' => (s', .deleteChunks todo)
  | .sweep pc, a => (s.sweep pc a).map fun (s', pc') => (s', .sweep pc')
  | _, _ => none

end SharedStaging

/-- Any number of operations on any number of sessions, from any number of replicas, over
stores that start empty. -/
def stagingProgram : Transition.Program SharedStaging StagingTask StagingAnswer Empty where
  init s := s = {}
  fresh := StagingTask.fresh
  act := SharedStaging.act
  env _ e := nomatch e

abbrev sharedStaging : Transition.Machine (Transition.Pool SharedStaging StagingTask)
    (Transition.Move StagingTask StagingAnswer Empty) :=
  stagingProgram.machine

/-! ## What one call does to the staged sessions

Every call of every operation has one of seven effects on the two stores; `Kept` is the
invariant that they keep. -/

open Transition

namespace SharedStaging

variable {s s' : SharedStaging} {i j : Nat} {id key : String}

/-! ## Invariant -/

def Live (s : SharedStaging) (id : String) : Prop :=
  ∃ row ∈ s.sessions, row.id = id

/-- The key belongs to a session that was, and is no more. -/
def Gone (s : SharedStaging) (key : String) : Prop :=
  sessionOfKey key ∈ s.issuedIds ∧ ¬ s.Live (sessionOfKey key)

/-- The task was given the key, for a chunk of the session that it has not recorded. -/
structure Owns (s : SharedStaging) (i : Nat) (id key : String) : Prop where
  issued : (key, i) ∈ s.issuedKeys
  session : sessionOfKey key = id
  unrecorded : ∀ r ∈ s.reported, r.key ≠ key

/-- What holds of the session rows, the chunk objects and the appends reported so far. -/
structure Kept (s : SharedStaging) : Prop where
  sessions : Table.Keyed UploadSessionRow.id s.sessions
  created : ∀ row ∈ s.sessions, row.id ∈ s.issuedIds
  ids : ∀ id ∈ s.issuedIds, isSessionId id = true
  keys : Table.Keyed Prod.fst s.issuedKeys
  keyIds : ∀ k ∈ s.issuedKeys, sessionOfKey k.1 ∈ s.issuedIds
  objects : ∀ o ∈ s.objects, ∃ i, (o.1, i) ∈ s.issuedKeys
  reported : ∀ r ∈ s.reported, (r.key, r.task) ∈ s.issuedKeys ∧ sessionOfKey r.key = r.session
  rows : ∀ row ∈ s.sessions, row.chunks.map (fun c => (c.key, c.size)) =
    (s.reportedTo row.id).map fun r => (r.key, r.body.length)
  offset : ∀ row ∈ s.sessions, row.offset = (s.confirmed row.id).length
  fixed : ∀ r ∈ s.reported, ∀ b, (r.key, b) ∈ s.objects → b = r.body
  stored : ∀ r ∈ s.reported, s.Live r.session → (r.key, r.body) ∈ s.objects

theorem Kept.empty : Kept {} := by
  constructor <;> simp [Table.Keyed]

theorem sessionOfKey_chunkKey (hid : isSessionId id = true) (seq : Nat) (nonce : String) :
    sessionOfKey (chunkKey id seq nonce) = id := by
  simp only [isSessionId, Bool.and_eq_true, all_eq_true, decide_eq_true_eq] at hid
  have hkey : (chunkKey id seq nonce).toList = uploadsPrefix.toList ++
      (id.toList ++ '/' :: ((toString seq ++ "-" ++ nonce).toList)) := by
    simp [chunkKey, append_assoc]
  have hprefix : uploadsPrefix.toList.isPrefixOf (chunkKey id seq nonce).toList = true := by
    rw [hkey, isPrefixOf_iff_prefix]
    exact prefix_append _ _
  rw [sessionOfKey, if_pos hprefix, hkey, drop_left, takeWhile_append_of_pos]
  · simp
  · exact fun c hc => by simpa using hid.2 c hc

/-- What a call of the task with number `i` does to the state. -/
inductive Effect (s : SharedStaging) (i : Nat) : SharedStaging → Prop
  | none : Effect s i s
  | created {id : String} (org repo : String) : isSessionId id = true → id ∉ s.issuedIds →
      Effect s i (s.createUploadSession id org repo)
  | issued {key : String} : (∀ k ∈ s.issuedKeys, k.1 ≠ key) →
      sessionOfKey key ∈ s.issuedIds → Effect s i (s.issueKey key i)
  | put {id key : String} (body : Bytes) : s.Owns i id key → Effect s i (s.putObject key body)
  | appended {id : String} {expected offset : Nat} {chunk : UploadChunk} {body : Bytes}
      {sessions : List UploadSessionRow} : s.Owns i id chunk.key → chunk.size = body.length →
      (s.Live id → (chunk.key, body) ∈ s.objects) →
      (∀ b, (chunk.key, b) ∈ s.objects → b = body) →
      s.appendUploadChunk id expected chunk = some (sessions, offset) →
      Effect s i { s with sessions := sessions
                          reported := s.reported ++ [⟨i, chunk.key, id, body⟩] }
  | dropped (p : UploadSessionRow → Bool) : Effect s i (s.dropSessions p)
  | deleted {key : String} : (∃ id, s.Owns i id key) ∨ s.Gone key →
      Effect s i (s.deleteObject key)

variable {expected offset : Nat} {chunk : UploadChunk} {sessions : List UploadSessionRow}

theorem appendUploadChunk_some
    (h : s.appendUploadChunk id expected chunk = some (sessions, offset)) :
    (∃ row ∈ s.sessions, row.id = id ∧ row.offset = expected) ∧ offset = expected + chunk.size ∧
      sessions = s.sessions.map fun r => if r.id = id then appendedRow r chunk else r := by
  unfold appendUploadChunk at h
  split at h
  · cases h
  · rename_i row hrow
    split at h
    · rename_i hoffset
      simp only [Option.some.injEq, Prod.mk.injEq] at h
      obtain ⟨rfl, rfl⟩ := h
      obtain ⟨hmem, hid⟩ := find_some hrow
      exact ⟨⟨row, hmem, hid, hoffset⟩, by rw [hoffset], rfl⟩
    · cases h

theorem mem_appended {row : UploadSessionRow}
    (h : row ∈ s.sessions.map fun r => if r.id = id then appendedRow r chunk else r) :
    (row.id ≠ id ∧ row ∈ s.sessions) ∨ ∃ r ∈ s.sessions, r.id = id ∧ row = appendedRow r chunk := by
  obtain ⟨r, hr, hrow⟩ := mem_map.mp h
  by_cases hid : r.id = id
  · rw [if_pos hid] at hrow
    exact .inr ⟨r, hr, hid, hrow.symm⟩
  · rw [if_neg hid] at hrow
    exact .inl ⟨hrow ▸ hid, hrow ▸ hr⟩

theorem keys_appended (chunk : UploadChunk) :
    (s.sessions.map fun r => if r.id = id then appendedRow r chunk else r).map
      UploadSessionRow.id = s.sessions.map UploadSessionRow.id := by
  rw [map_map]
  refine map_congr_left fun r _ => ?_
  by_cases hid : r.id = id
  · simp [hid, appendedRow]
  · simp [hid]

theorem live_iff : s.Live id ↔ id ∈ s.sessions.map UploadSessionRow.id := by
  simp [Live]

variable {new : String}

theorem live_createUploadSession {org repo : String}
    (h : (s.createUploadSession new org repo).Live id) : s.Live id ∨ id = new := by
  obtain ⟨row, hrow, hid⟩ := h
  rcases mem_append.mp hrow with hrow | hrow
  · exact .inl ⟨row, hrow, hid⟩
  · rw [mem_singleton] at hrow
    subst hrow
    exact .inr hid.symm

theorem live_dropSessions {p : UploadSessionRow → Bool} (h : (s.dropSessions p).Live id) :
    s.Live id := by
  obtain ⟨row, hrow, hid⟩ := h
  exact ⟨row, (mem_filter.mp hrow).1, hid⟩

variable {b : Bytes}

theorem getObject_some (h : s.getObject key = some b) : (key, b) ∈ s.objects := by
  obtain ⟨o, ho, hb⟩ := Option.map_eq_some_iff.mp h
  obtain ⟨hmem, hkey⟩ := find_some ho
  subst hkey hb
  exact hmem

theorem exists_getObject (h : (key, b) ∈ s.objects) : ∃ b', s.getObject key = some b' := by
  unfold getObject
  cases hfind : Table.find Prod.fst key s.objects with
  | none => exact absurd rfl (find_none hfind h)
  | some o => exact ⟨o.2, rfl⟩

section

variable (h : Effect s i s')
include h

variable {x : String}

theorem Effect.issuedIds (hx : x ∈ s.issuedIds) : x ∈ s'.issuedIds := by
  cases h with
  | created org repo hid hnew => exact mem_append_left _ hx
  | _ => exact hx

theorem Effect.issuedKeys {k : String × Nat} (hk : k ∈ s.issuedKeys) : k ∈ s'.issuedKeys := by
  cases h with
  | issued hnew hid => exact mem_append_left _ hk
  | _ => exact hk

theorem Effect.live (hx : s'.Live x) : s.Live x ∨ x ∉ s.issuedIds := by
  cases h with
  | created org repo hid hnew =>
    rcases live_createUploadSession hx with hlive | rfl
    · exact .inl hlive
    · exact .inr hnew
  | appended howns hsize hlive hfixed happend =>
    obtain ⟨-, -, rfl⟩ := appendUploadChunk_some happend
    rw [live_iff, keys_appended, ← live_iff] at hx
    exact .inl hx
  | dropped p => exact .inl (live_dropSessions hx)
  | _ => exact .inl hx

theorem Effect.reported :
    ∃ new, s'.reported = s.reported ++ new ∧ ∀ r ∈ new, (r.key, i) ∈ s.issuedKeys := by
  cases h with
  | appended howns hsize hlive hfixed happend =>
    refine ⟨_, rfl, fun r hr => ?_⟩
    rw [mem_singleton] at hr
    exact hr ▸ howns.issued
  | _ => exact ⟨[], (append_nil _).symm, by simp⟩

variable {o : String × Bytes}

theorem Effect.objects_new (ho : o ∈ s'.objects) : o ∈ s.objects ∨ (o.1, i) ∈ s.issuedKeys := by
  cases h with
  | put body howns =>
    rcases mem_of_mem_upsert ho with ho | rfl
    · exact .inl ho
    · exact .inr howns.issued
  | deleted hkey => exact .inl (mem_filter.mp ho).1
  | _ => exact .inl ho

theorem Effect.objects_kept (ho : o ∈ s.objects) :
    o ∈ s'.objects ∨ (o.1, i) ∈ s.issuedKeys ∨ s.Gone o.1 := by
  cases h with
  | @put id key body howns =>
    by_cases hkey : o.1 = key
    · exact .inr (.inl (hkey ▸ howns.issued))
    · exact .inl (mem_upsert_of_ne ho hkey)
  | @deleted key hwhy =>
    by_cases hkey : o.1 = key
    · rcases hwhy with ⟨id, howns⟩ | hgone
      · exact .inr (.inl (hkey ▸ howns.issued))
      · exact .inr (.inr (hkey ▸ hgone))
    · exact .inl (mem_filter.mpr ⟨ho, decide_eq_true hkey⟩)
  | _ => exact .inl ho

end

/-! ## The invariant is kept -/

theorem reportedTo_append (r : Reported) (sessions : List UploadSessionRow) (x : String) :
    ({ s with sessions := sessions, reported := s.reported ++ [r] } : SharedStaging).reportedTo x =
      if r.session = x then s.reportedTo x ++ [r] else s.reportedTo x := by
  by_cases hx : r.session = x
  · simp [reportedTo, hx]
  · simp [reportedTo, hx]

variable {body : Bytes}

section

variable (hs : Kept s)
include hs

theorem Kept.reported_issued {r : Reported} (hr : r ∈ s.reported) : r.session ∈ s.issuedIds := by
  obtain ⟨hissued, hsession⟩ := hs.reported r hr
  exact hsession ▸ hs.keyIds _ hissued

theorem Kept.owner {x y : Nat} (hx : (key, x) ∈ s.issuedKeys) (hy : (key, y) ∈ s.issuedKeys)
    : x = y :=
  congrArg Prod.snd (hs.keys.eq_of_key hx hy rfl)

theorem Kept.createUploadSession (org repo : String) (hid : isSessionId new = true)
  (hnew : new ∉ s.issuedIds) : Kept (s.createUploadSession new org repo) := by
  have hempty : s.reportedTo new = [] := by
    refine filter_eq_nil_iff.mpr fun r hr => ?_
    have hne : r.session ≠ new := fun he => hnew (he ▸ hs.reported_issued hr)
    simpa using hne
  constructor
  case sessions =>
    refine hs.sessions.append fun row hrow hsame => hnew ?_
    have hsame : row.id = new := hsame
    exact hsame ▸ hs.created row hrow
  case created =>
    intro row hrow
    rcases mem_append.mp hrow with hrow | hrow
    · exact mem_append_left _ (hs.created row hrow)
    · rw [mem_singleton] at hrow
      subst hrow
      exact mem_append_right _ (mem_singleton_self new)
  case ids =>
    intro x hx
    rcases mem_append.mp hx with hx | hx
    · exact hs.ids x hx
    · rwa [mem_singleton.mp hx]
  case keys => exact hs.keys
  case keyIds => exact fun k hk => mem_append_left _ (hs.keyIds k hk)
  case objects => exact hs.objects
  case reported => exact hs.reported
  case rows =>
    intro row hrow
    rcases mem_append.mp hrow with hrow | hrow
    · exact hs.rows row hrow
    · rw [mem_singleton] at hrow
      subst hrow
      change [] = (s.reportedTo new).map _
      rw [hempty]
      rfl
  case offset =>
    intro row hrow
    rcases mem_append.mp hrow with hrow | hrow
    · exact hs.offset row hrow
    · rw [mem_singleton] at hrow
      subst hrow
      change 0 = ((s.reportedTo new).map Reported.body).flatten.length
      rw [hempty]
      rfl
  case fixed => exact hs.fixed
  case stored =>
    intro r hr hlive
    rcases live_createUploadSession hlive with hlive | hsame
    · exact hs.stored r hr hlive
    · exact absurd (hsame ▸ hs.reported_issued hr) hnew

theorem Kept.issueKey (hnew : ∀ k ∈ s.issuedKeys, k.1 ≠ key) (hid : sessionOfKey key ∈ s.issuedIds)
    : Kept (s.issueKey key i) where
  sessions := hs.sessions
  created := hs.created
  ids := hs.ids
  keys := hs.keys.append hnew
  keyIds := by
    intro k hk
    rcases mem_append.mp hk with hk | hk
    · exact hs.keyIds k hk
    · rw [mem_singleton] at hk
      exact hk ▸ hid
  objects := fun o ho =>
    let ⟨i, hi⟩ := hs.objects o ho
    ⟨i, mem_append_left _ hi⟩
  reported := fun r hr => ⟨mem_append_left _ (hs.reported r hr).1, (hs.reported r hr).2⟩
  rows := hs.rows
  offset := hs.offset
  fixed := hs.fixed
  stored := hs.stored

theorem Kept.putObject (body : Bytes) (howns : s.Owns i id key) : Kept (s.putObject key body) where
  sessions := hs.sessions
  created := hs.created
  ids := hs.ids
  keys := hs.keys
  keyIds := hs.keyIds
  objects := by
    intro o ho
    rcases mem_of_mem_upsert ho with ho | rfl
    · exact hs.objects o ho
    · exact ⟨i, howns.issued⟩
  reported := hs.reported
  rows := hs.rows
  offset := hs.offset
  fixed := by
    intro r hr b hb
    rcases mem_of_mem_upsert hb with hb | hb
    · exact hs.fixed r hr b hb
    · exact absurd (congrArg Prod.fst hb) (howns.unrecorded r hr)
  stored := fun r hr hlive =>
    mem_upsert_of_ne (hs.stored r hr hlive) (howns.unrecorded r hr)

theorem Kept.dropSessions (p : UploadSessionRow → Bool) : Kept (s.dropSessions p) where
  sessions := hs.sessions.filter _
  created := fun row hrow => hs.created row (mem_filter.mp hrow).1
  ids := hs.ids
  keys := hs.keys
  keyIds := hs.keyIds
  objects := hs.objects
  reported := hs.reported
  rows := fun row hrow => hs.rows row (mem_filter.mp hrow).1
  offset := fun row hrow => hs.offset row (mem_filter.mp hrow).1
  fixed := hs.fixed
  stored := fun r hr hlive => hs.stored r hr (live_dropSessions hlive)

theorem Kept.deleteObject (hwhy : (∃ id, s.Owns i id key) ∨ s.Gone key) :
    Kept (s.deleteObject key) where
  sessions := hs.sessions
  created := hs.created
  ids := hs.ids
  keys := hs.keys
  keyIds := hs.keyIds
  objects := fun o ho => hs.objects o (mem_filter.mp ho).1
  reported := hs.reported
  rows := hs.rows
  offset := hs.offset
  fixed := fun r hr b hb => hs.fixed r hr b (mem_filter.mp hb).1
  stored := by
    intro r hr hlive
    refine mem_filter.mpr ⟨hs.stored r hr hlive, decide_eq_true fun hkey => ?_⟩
    rcases hwhy with ⟨id, howns⟩ | hgone
    · exact howns.unrecorded r hr hkey
    · rw [← hkey] at hgone
      exact hgone.2 ((hs.reported r hr).2 ▸ hlive)

theorem Kept.appendUploadChunk (howns : s.Owns i id chunk.key)
  (hsize : chunk.size = body.length) (hbody : s.Live id → (chunk.key, body) ∈ s.objects)
  (hfixed : ∀ b, (chunk.key, b) ∈ s.objects → b = body)
  (happend : s.appendUploadChunk id expected chunk = some (sessions, offset)) :
    Kept { s with sessions := sessions, reported := s.reported ++ [⟨i, chunk.key, id, body⟩] } := by
  obtain ⟨⟨found, -, -, -⟩, rfl, rfl⟩ := appendUploadChunk_some happend
  constructor
  case sessions =>
    change ((s.sessions.map _).map UploadSessionRow.id).Nodup
    rw [keys_appended]
    exact hs.sessions
  case created =>
    intro row hrow
    rcases mem_appended hrow with ⟨-, hrow⟩ | ⟨r, hr, -, rfl⟩
    · exact hs.created row hrow
    · exact hs.created r hr
  case ids => exact hs.ids
  case keys => exact hs.keys
  case keyIds => exact hs.keyIds
  case objects => exact hs.objects
  case reported =>
    intro r hr
    rcases mem_append.mp hr with hr | hr
    · exact hs.reported r hr
    · rw [mem_singleton] at hr
      subst hr
      exact ⟨howns.issued, howns.session⟩
  case rows =>
    intro row hrow
    rw [reportedTo_append]
    rcases mem_appended hrow with ⟨hne, hrow⟩ | ⟨r, hr, hrid, rfl⟩
    · rw [if_neg (Ne.symm hne)]
      exact hs.rows row hrow
    · rw [if_pos (show id = (appendedRow r chunk).id from hrid.symm)]
      simp only [appendedRow, map_append, hs.rows r hr, hsize, map_cons, map_nil]
  case offset =>
    intro row hrow
    unfold confirmed
    rw [reportedTo_append]
    rcases mem_appended hrow with ⟨hne, hrow⟩ | ⟨r, hr, hrid, rfl⟩
    · rw [if_neg (Ne.symm hne)]
      exact hs.offset row hrow
    · rw [if_pos (show id = (appendedRow r chunk).id from hrid.symm)]
      have hoffset := hs.offset r hr
      unfold confirmed at hoffset
      simp only [appendedRow, map_append, flatten_append, length_append, hoffset,
        hsize, map_cons, map_nil, flatten_cons, flatten_nil, append_nil]
  case fixed =>
    intro r hr b hb
    rcases mem_append.mp hr with hr | hr
    · exact hs.fixed r hr b hb
    · rw [mem_singleton] at hr
      subst hr
      exact hfixed b hb
  case stored =>
    intro r hr hlive
    rw [live_iff, keys_appended, ← live_iff] at hlive
    rcases mem_append.mp hr with hr | hr
    · exact hs.stored r hr hlive
    · rw [mem_singleton] at hr
      subst hr
      exact hbody hlive

end

/-- **Every call keeps the invariant.** -/
theorem Effect.kept (h : Effect s i s') (hs : Kept s) : Kept s' := by
  cases h with
  | none => exact hs
  | created org repo hid hnew => exact hs.createUploadSession org repo hid hnew
  | issued hnew hid => exact hs.issueKey hnew hid
  | put body howns => exact hs.putObject body howns
  | appended howns hsize hbody hfixed happend =>
    exact hs.appendUploadChunk howns hsize hbody hfixed happend
  | dropped p => exact hs.dropSessions p
  | deleted hwhy => exact hs.deleteObject hwhy

theorem Owns.other (hs : Kept s) (hne : j ≠ i) (he : Effect s i s') (h : s.Owns j id key) :
    s'.Owns j id key where
  issued := he.issuedKeys h.issued
  session := h.session
  unrecorded := by
    intro r hr hkey
    obtain ⟨new, hreported, hnew⟩ := he.reported
    rw [hreported] at hr
    rcases mem_append.mp hr with hr | hr
    · exact h.unrecorded r hr hkey
    · have hissued := hnew r hr
      rw [hkey] at hissued
      exact hne (hs.owner h.issued hissued)

/-- The object under the key is the body, and is there while the session is. -/
structure Holding (s : SharedStaging) (id key : String) (body : Bytes) : Prop where
  stored : s.Live id → (key, body) ∈ s.objects
  fixed : ∀ b, (key, b) ∈ s.objects → b = body

theorem Holding.other (hs : Kept s) (hne : j ≠ i) (he : Effect s i s')
    (howns : s.Owns j id key) (h : s.Holding id key body) : s'.Holding id key body where
  stored := by
    intro hlive
    rcases he.live hlive with hlive | hnew
    · rcases he.objects_kept (h.stored hlive) with ho | howned | hgone
      · exact ho
      · exact absurd (hs.owner howns.issued howned) hne
      · exact absurd (howns.session.symm ▸ hlive) hgone.2
    · exact absurd (howns.session ▸ hs.keyIds _ howns.issued) hnew
  fixed := by
    intro b hb
    rcases he.objects_new hb with hb | howned
    · exact h.fixed b hb
    · exact absurd (hs.owner howns.issued howned) hne

theorem Gone.mono (he : Effect s i s') (h : s.Gone key) : s'.Gone key := by
  refine ⟨he.issuedIds h.1, fun hlive => ?_⟩
  rcases he.live hlive with hlive | hnew
  · exact h.2 hlive
  · exact hnew h.1

theorem reportedTo_mono (he : Effect s i s') (x : String) :
    ∃ new, s'.reportedTo x = s.reportedTo x ++ new := by
  obtain ⟨new, hreported, -⟩ := he.reported
  exact ⟨new.filter fun r => decide (r.session = x), by
    unfold reportedTo
    rw [hreported, filter_append]⟩

end SharedStaging

end Chicoree.Registryd
