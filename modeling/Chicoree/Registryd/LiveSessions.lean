import Chicoree.Registryd.SharedStaging

/-! # Live sessions stay intact

Every interleaving of the operations of shared staging: a live session is the appends
that reported success, in that order, and nothing of the others. -/

namespace Chicoree.Registryd

open Transition List Option Table

namespace SharedStaging

variable {s s' : SharedStaging} {i j : Nat} {id : String} {a : StagingAnswer}

/-! ## What a running operation knows -/

/-- An append owns the key it was given until it has recorded the chunk. -/
def AppendOk (s : SharedStaging) (i : Nat) (id : String) (body : Bytes) : AppendPc → Prop
  | .putObject chunk => s.Owns i id chunk.key
  | .appendChunk chunk =>
    s.Owns i id chunk.key ∧ chunk.size = body.length ∧ s.Holding id chunk.key body
  | .dropObject key _ | .reread key => s.Owns i id key
  | .finished (some key) result => (∀ n, result ≠ .offset n) → s.Owns i id key
  | _ => True

def joined (rs : List Reported) : Bytes := (rs.map Reported.body).flatten

/-- A reader has read the first appends of its session, and goes on to those that follow,
up to the offset that it was told. -/
def OpenOk (s : SharedStaging) (id : String) : OpenPc → Prop
  | .reading offset rest read => ∃ past next later, s.reportedTo id = past ++ next ++ later ∧
      read = joined past ∧ offset = (joined (past ++ next)).length ∧
      rest.map (fun c => (c.key, c.size)) = next.map fun r => (r.key, r.body.length)
  | .complete offset read => ∃ past later, s.reportedTo id = past ++ later ∧
      read = joined past ∧ offset = read.length
  | _ => True

def SweepOk (s : SharedStaging) : SweepPc → Prop
  | .deleteChunks todo _ => ∀ c ∈ todo, s.Gone c.key
  | .listIds keys _ => ∀ k ∈ keys, sessionOfKey k ∈ s.issuedIds
  | .deleteOrphans todo _ _ => ∀ k ∈ todo, s.Gone k
  | _ => True

def TaskOk (s : SharedStaging) (i : Nat) : StagingTask → Prop
  | .append id _ body pc => s.AppendOk i id body pc
  | .openSession id pc => s.OpenOk id pc
  | .deleteChunks todo => ∀ c ∈ todo, s.Gone c.key
  | .sweep pc => s.SweepOk pc
  | _ => True

/-! ## One call of each operation -/

theorem Owns.same {key : String} (h : s.Owns i id key) (hkeys : s'.issuedKeys = s.issuedKeys)
    (hreported : s'.reported = s.reported) : s'.Owns i id key :=
  ⟨hkeys ▸ h.issued, h.session, hreported ▸ h.unrecorded⟩

theorem create_effect {org repo : String} {t' : StagingTask}
    (h : s.create org repo a = some (s', t')) : Effect s i s' ∧ t' = .done := by
  cases a <;> simp only [create, reduceCtorEq] at h
  case created new acked =>
    split at h
    · rename_i hnew
      cases h
      simp only [Bool.and_eq_true, Bool.not_eq_true', contains_eq_mem,
        decide_eq_false_iff_not] at hnew
      exact ⟨.created org repo hnew.1 hnew.2, rfl⟩
    · cases h
  case failed =>
    cases h
    exact ⟨.none, rfl⟩

theorem append_effect {expected : Nat} {body : Bytes} {pc pc' : AppendPc} (hs : Kept s)
    (hpc : s.AppendOk i id body pc) (h : s.append i id expected body pc a = some (s', pc')) :
    Effect s i s' ∧ s'.AppendOk i id body pc' := by
  cases pc with
  | getSession =>
    cases a <;> simp only [append, reduceCtorEq] at h
    case failed =>
      cases h
      exact ⟨.none, trivial⟩
    case nonce n =>
      split at h
      · cases h
        exact ⟨.none, trivial⟩
      · rename_i row hrow
        split at h
        · cases h
          exact ⟨.none, trivial⟩
        · split at h
          · cases h
          · rename_i hnew
            cases h
            obtain ⟨hmem, hid⟩ := find_some hrow
            have hcreated : id ∈ s.issuedIds := hid ▸ hs.created row hmem
            have hsession := sessionOfKey_chunkKey (hs.ids id hcreated) row.chunks.length n
            have hnew' : ∀ k ∈ s.issuedKeys, k.1 ≠ chunkKey id row.chunks.length n :=
              fun k hk hkey => hnew (any_eq_true.mpr ⟨k, hk, decide_eq_true hkey⟩)
            refine ⟨.issued hnew' (hsession.symm ▸ hcreated), ?_, hsession, fun r hr hkey => ?_⟩
            · exact mem_append_right _ (mem_singleton_self _)
            · exact hnew' _ (hs.reported r hr).1 hkey
  | putObject chunk =>
    have howns : s.Owns i id chunk.key := hpc
    cases a <;> simp only [append, reduceCtorEq] at h
    case ok =>
      cases h
      refine ⟨.put body howns, howns.same rfl rfl, rfl, fun _ => ?_, fun b hb => ?_⟩
      · exact mem_upsert_self (chunk.key, body) s.objects
      · exact congrArg Prod.snd (eq_of_mem_upsert hb rfl)
    case broken left =>
      cases left with
      | none =>
        cases h
        exact ⟨.none, howns⟩
      | some left =>
        cases h
        exact ⟨.put left howns, howns.same rfl rfl⟩
  | appendChunk chunk =>
    obtain ⟨howns, hsize, hholding⟩ := hpc
    cases a <;> simp only [append, reduceCtorEq] at h
    case ok =>
      cases happend : s.appendUploadChunk id expected chunk with
      | none =>
        rw [happend] at h
        cases h
        exact ⟨.none, howns⟩
      | some out =>
        rw [happend] at h
        cases h
        exact ⟨.appended howns hsize hholding.stored hholding.fixed happend,
          fun hlost => absurd rfl (hlost _)⟩
    case failed =>
      cases h
      exact ⟨.none, howns⟩
  | dropObject key lost =>
    have howns : s.Owns i id key := hpc
    have hdropped : ∀ {s₁ : SharedStaging}, s₁.Owns i id key → s₁.AppendOk i id body
        (if lost then .reread key else .finished (some key) .failed) := by
      intro s₁ h₁
      cases lost with
      | true => exact h₁
      | false => exact fun _ => h₁
    cases a <;> simp only [append, reduceCtorEq] at h
    case ok =>
      cases h
      exact ⟨.deleted (.inl ⟨id, howns⟩), hdropped (howns.same rfl rfl)⟩
    case lost =>
      cases h
      exact ⟨.deleted (.inl ⟨id, howns⟩), hdropped (howns.same rfl rfl)⟩
    case failed =>
      cases h
      exact ⟨.none, hdropped howns⟩
  | reread key =>
    have howns : s.Owns i id key := hpc
    cases a <;> simp only [append, reduceCtorEq] at h
    case ok => split at h <;> cases h <;> exact ⟨.none, fun _ => howns⟩
    case failed =>
      cases h
      exact ⟨.none, fun _ => howns⟩
  | finished key result => cases a <;> simp [append] at h

theorem getObject_reported (hs : Kept s) {r : Reported} (hr : r ∈ s.reportedTo id) {b : Bytes}
    (h : s.getObject r.key = some b) : b = r.body :=
  hs.fixed r (mem_filter.mp hr).1 b (getObject_some h)

theorem OpenOk.next (hs : Kept s) {offset : Nat} {chunk : UploadChunk}
    {rest : List UploadChunk} {read b : Bytes}
    (hpc : s.OpenOk id (.reading offset (chunk :: rest) read))
    (hb : s.getObject chunk.key = some b) : s.OpenOk id (.reading offset rest (read ++ b)) := by
  obtain ⟨past, next, later, hreported, hread, hoffset, hrest⟩ := hpc
  cases next with
  | nil => simp at hrest
  | cons r next =>
    simp only [map_cons, List.cons.injEq, Prod.mk.injEq] at hrest
    obtain ⟨⟨hkey, -⟩, hrest⟩ := hrest
    have hr : r ∈ s.reportedTo id := by simp [hreported]
    have hbody : b = r.body := getObject_reported hs hr (hkey ▸ hb)
    refine ⟨past ++ [r], next, later, ?_, ?_, ?_, hrest⟩
    · simpa using hreported
    · simp [hread, hbody, joined]
    · simpa using hoffset

theorem openSession_ok {pc pc' : OpenPc} (hs : Kept s) (hpc : s.OpenOk id pc)
    (h : s.openSession id pc a = some pc') : s.OpenOk id pc' := by
  cases pc with
  | getSession =>
    cases a <;> simp only [openSession, reduceCtorEq] at h
    case failed =>
      cases h
      trivial
    case ok =>
      split at h
      · cases h
        trivial
      · rename_i row hrow
        cases h
        obtain ⟨hmem, hid⟩ := find_some hrow
        subst hid
        exact ⟨[], s.reportedTo row.id, [], by simp, rfl, hs.offset row hmem, hs.rows row hmem⟩
  | reading offset rest read =>
    cases rest with
    | nil =>
      cases a <;> simp only [openSession, reduceCtorEq] at h
      case ok =>
        cases h
        obtain ⟨past, next, later, hreported, hread, hoffset, hrest⟩ := hpc
        have hnext : next = [] := by simpa using hrest.symm
        subst hnext
        exact ⟨past, later, by simpa using hreported, hread, by simpa [hread] using hoffset⟩
    | cons chunk rest =>
      cases a <;> simp only [openSession, reduceCtorEq] at h
      case ok =>
        split at h
        · cases h
          trivial
        · rename_i b hb
          split at h <;> cases h
          · trivial
          · exact hpc.next hs hb
      case unsized =>
        split at h
        · cases h
          trivial
        · rename_i b hb
          cases h
          exact hpc.next hs hb
      case failed =>
        cases h
        trivial
  | complete offset read | failed => cases a <;> simp [openSession] at h

theorem gone_of_dropped (hs : Kept s) {p : UploadSessionRow → Bool} {row : UploadSessionRow}
    (hrow : row ∈ s.sessions) (hp : p row = true) {c : UploadChunk} (hc : c ∈ row.chunks) :
    (s.dropSessions p).Gone c.key := by
  have hkey : (c.key, c.size) ∈ row.chunks.map fun c => (c.key, c.size) := mem_map_of_mem hc
  rw [hs.rows row hrow] at hkey
  obtain ⟨r, hr, hrc⟩ := mem_map.mp hkey
  simp only [Prod.mk.injEq] at hrc
  obtain ⟨hreported, hsession⟩ := mem_filter.mp hr
  have hid : sessionOfKey c.key = row.id := by
    rw [← hrc.1, (hs.reported r hreported).2]
    exact of_decide_eq_true hsession
  refine ⟨hid.symm ▸ hs.created row hrow, ?_⟩
  rw [hid]
  rintro ⟨row', hrow', hsame⟩
  obtain ⟨hmem, hkept⟩ := mem_filter.mp hrow'
  have heq := hs.sessions.eq_of_key hmem hrow hsame
  subst heq
  simp [hp] at hkept

theorem remove_effect {t' : StagingTask} (hs : Kept s) (h : s.remove id a = some (s', t')) :
    Effect s i s' ∧ s'.TaskOk i t' := by
  cases a <;> simp only [remove, reduceCtorEq] at h
  case ok =>
    split at h
    · cases h
      exact ⟨.none, trivial⟩
    · rename_i row hrow
      cases h
      obtain ⟨hmem, hid⟩ := find_some hrow
      exact ⟨.dropped _, fun c hc => gone_of_dropped hs hmem (decide_eq_true hid) hc⟩
  case lost =>
    cases h
    exact ⟨.dropped _, trivial⟩
  case failed =>
    cases h
    exact ⟨.none, trivial⟩

theorem deleteChunk_effect {c : UploadChunk} (hc : s.Gone c.key)
    (h : s.deleteChunk c a = some s') : Effect s i s' := by
  cases a <;> simp only [deleteChunk, reduceCtorEq, Option.some.injEq] at h <;> subst h
  case ok => exact .deleted (.inr hc)
  case lost => exact .deleted (.inr hc)
  case failed => exact .none

theorem gone_of_orphan {keys : List String} (hkeys : ∀ k ∈ keys, sessionOfKey k ∈ s.issuedIds)
    {k : String} (hk : k ∈ orphanKeys keys (s.sessions.map UploadSessionRow.id)) : s.Gone k := by
  obtain ⟨hmem, hdead⟩ := mem_filter.mp hk
  refine ⟨hkeys k hmem, fun hlive => ?_⟩
  rw [live_iff] at hlive
  simp [hlive] at hdead

theorem sweep_effect {pc pc' : SweepPc} (hs : Kept s) (hpc : s.SweepOk pc)
    (h : s.sweep pc a = some (s', pc')) : Effect s i s' ∧ s'.SweepOk pc' := by
  cases pc with
  | deleteExpired =>
    cases a <;> simp only [sweep, reduceCtorEq] at h
    case failed =>
      cases h
      exact ⟨.none, trivial⟩
    case expired ids acked =>
      split at h <;> cases h
      · refine ⟨.dropped _, fun c hc => ?_⟩
        obtain ⟨row, hrow, hchunk⟩ := mem_flatMap.mp hc
        obtain ⟨hmem, hexpired⟩ := mem_filter.mp hrow
        exact gone_of_dropped hs hmem hexpired hchunk
      · exact ⟨.dropped _, trivial⟩
  | deleteChunks todo removed =>
    cases todo with
    | nil =>
      cases a <;> simp only [sweep, reduceCtorEq] at h
      case ok =>
        cases h
        exact ⟨.none, trivial⟩
    | cons chunk todo =>
      simp only [sweep] at h
      obtain ⟨s₁, hdelete, heq⟩ := map_eq_some_iff.mp h
      cases heq
      have heffect : Effect s i s' := deleteChunk_effect (hpc chunk mem_cons_self) hdelete
      exact ⟨heffect, fun c hc => (hpc c (mem_cons_of_mem _ hc)).mono heffect⟩
  | listObjects removed =>
    cases a <;> simp only [sweep, reduceCtorEq] at h
    case ok =>
      split at h <;> cases h
      · exact ⟨.none, trivial⟩
      · refine ⟨.none, fun k hk => ?_⟩
        obtain ⟨o, ho, rfl⟩ := mem_map.mp hk
        obtain ⟨owner, howner⟩ := hs.objects o ho
        exact hs.keyIds _ howner
    case failed =>
      cases h
      exact ⟨.none, trivial⟩
  | listIds keys removed =>
    cases a <;> simp only [sweep, reduceCtorEq] at h
    case ok =>
      cases h
      exact ⟨.none, fun k hk => gone_of_orphan hpc hk⟩
    case failed =>
      cases h
      exact ⟨.none, trivial⟩
  | deleteOrphans todo orphans removed =>
    cases todo with
    | nil =>
      cases a <;> simp only [sweep, reduceCtorEq] at h
      case ok =>
        cases h
        exact ⟨.none, trivial⟩
    | cons key todo =>
      have hdeleted : Effect s i (s.deleteObject key) := .deleted (.inr (hpc key mem_cons_self))
      cases a <;> simp only [sweep, reduceCtorEq] at h
      case ok =>
        cases h
        exact ⟨hdeleted, fun k hk => (hpc k (mem_cons_of_mem _ hk)).mono hdeleted⟩
      case lost =>
        cases h
        exact ⟨hdeleted, fun k hk => (hpc k (mem_cons_of_mem _ hk)).mono hdeleted⟩
      case failed =>
        cases h
        exact ⟨.none, fun k hk => hpc k (mem_cons_of_mem _ hk)⟩
  | swept removed | failed removed => cases a <;> simp [sweep] at h

/-- **One call.** It has one of the effects, and its task knows again what it relies on. -/
theorem act_effect {t t' : StagingTask} (hs : Kept s) (ht : s.TaskOk i t)
    (h : s.act i t a = some (s', t')) : Effect s i s' ∧ s'.TaskOk i t' := by
  cases t with
  | create org repo =>
    obtain ⟨heffect, rfl⟩ := create_effect (i := i) h
    exact ⟨heffect, trivial⟩
  | append id expected body pc =>
    obtain ⟨out, happend, heq⟩ := map_eq_some_iff.mp h
    cases heq
    exact append_effect hs ht happend
  | openSession id pc =>
    obtain ⟨pc', hopen, heq⟩ := map_eq_some_iff.mp h
    cases heq
    exact ⟨.none, openSession_ok hs ht hopen⟩
  | remove id => exact remove_effect hs h
  | deleteChunks todo =>
    cases todo with
    | nil =>
      cases a <;> simp only [act, reduceCtorEq] at h
      cases h
      exact ⟨.none, trivial⟩
    | cons chunk todo =>
      obtain ⟨s₁, hdelete, heq⟩ := map_eq_some_iff.mp h
      cases heq
      have heffect : Effect s i s' := deleteChunk_effect (ht chunk mem_cons_self) hdelete
      exact ⟨heffect, fun c hc => (ht c (mem_cons_of_mem _ hc)).mono heffect⟩
  | sweep pc =>
    obtain ⟨out, hsweep, heq⟩ := map_eq_some_iff.mp h
    cases heq
    exact sweep_effect hs ht hsweep
  | done => cases a <;> simp [act] at h

theorem AppendOk.other {body : Bytes} {pc : AppendPc} (hs : Kept s) (hne : j ≠ i)
    (he : Effect s i s') (h : s.AppendOk j id body pc) : s'.AppendOk j id body pc := by
  cases pc with
  | getSession => trivial
  | putObject chunk =>
    have howns : s.Owns j id chunk.key := h
    exact howns.other hs hne he
  | appendChunk chunk =>
    obtain ⟨howns, hsize, hholding⟩ := h
    exact ⟨howns.other hs hne he, hsize, hholding.other hs hne he howns⟩
  | dropObject key lost | reread key =>
    have howns : s.Owns j id key := h
    exact howns.other hs hne he
  | finished key result =>
    cases key with
    | none => trivial
    | some key => exact fun hlost => (h hlost).other hs hne he

theorem OpenOk.mono {pc : OpenPc} (he : Effect s i s') (h : s.OpenOk id pc) : s'.OpenOk id pc := by
  obtain ⟨new, hnew⟩ := reportedTo_mono he id
  cases pc with
  | getSession | failed => trivial
  | reading offset rest read =>
    obtain ⟨past, next, later, hreported, hrest⟩ := h
    exact ⟨past, next, later ++ new, by rw [hnew, hreported, append_assoc], hrest⟩
  | complete offset read =>
    obtain ⟨past, later, hreported, hrest⟩ := h
    exact ⟨past, later ++ new, by rw [hnew, hreported, append_assoc], hrest⟩

theorem SweepOk.mono {pc : SweepPc} (he : Effect s i s') (h : s.SweepOk pc) : s'.SweepOk pc := by
  cases pc with
  | deleteChunks todo removed => exact fun c hc => (h c hc).mono he
  | listIds keys removed => exact fun k hk => he.issuedIds (h k hk)
  | deleteOrphans todo orphans removed => exact fun k hk => (h k hk).mono he
  | deleteExpired | listObjects removed | swept removed | failed removed => trivial

/-- **No interference.** What a task relies on survives the calls of the others. -/
theorem TaskOk.other {t : StagingTask} (hs : Kept s) (hne : j ≠ i) (he : Effect s i s')
    (h : s.TaskOk j t) : s'.TaskOk j t := by
  cases t with
  | append id expected body pc =>
    have hpc : s.AppendOk j id body pc := h
    exact hpc.other hs hne he
  | openSession id pc =>
    have hpc : s.OpenOk id pc := h
    exact hpc.mono he
  | deleteChunks todo => exact fun c hc => (h c hc).mono he
  | sweep pc =>
    have hpc : s.SweepOk pc := h
    exact hpc.mono he
  | create org repo | remove id | done => trivial

theorem TaskOk.spawn {t : StagingTask} (h : t.fresh = true) : s.TaskOk i t := by
  cases t with
  | append id expected body pc | openSession id pc =>
    cases pc with
    | getSession => trivial
    | _ => simp [StagingTask.fresh] at h
  | deleteChunks todo => simp [StagingTask.fresh] at h
  | sweep pc =>
    cases pc with
    | deleteExpired => trivial
    | _ => simp [StagingTask.fresh] at h
  | create org repo | remove id | done => trivial

theorem stagingOutline :
    stagingProgram.Outline (fun _ _ => True) Kept (fun s i t => s.TaskOk i t) where
  init := by
    intro s hs
    have hs : s = {} := hs
    exact hs ▸ Kept.empty
  spawn := fun p t _ _ hfresh => TaskOk.spawn hfresh
  act := by
    intro p i a t s' t' h _ ht hact
    obtain ⟨heffect, hok⟩ := act_effect h.shared (h.tasks i t ht) hact
    exact ⟨heffect.kept h.shared, hok⟩
  interfere := by
    intro p i a t s' t' h _ ht hact j q hne hq
    obtain ⟨heffect, -⟩ := act_effect h.shared (h.tasks i t ht) hact
    exact (h.tasks j q hq).other h.shared hne heffect
  env := fun _ e => nomatch e

end SharedStaging

/-! ## Reports and successes -/

def StagingTask.succeeded : StagingTask → Bool
  | .append _ _ _ (.finished _ (.offset _)) => true
  | _ => false

/-- An append that ended with success, for this session and this body. -/
def Succeeds (t : StagingTask) (r : Reported) : Prop :=
  ∃ expected key n, t = .append r.session expected r.body (.finished key (.offset n))

/-- The report list names exactly the appends that ended with success, each once. -/
abbrev ReportsTrue (p : Pool SharedStaging StagingTask) : Prop :=
  Program.TrueRecord SharedStaging.reported Reported.task Succeeds p

theorem Succeeds.succeeded {t : StagingTask} {r : Reported} (h : Succeeds t r) :
    t.succeeded = true := by
  obtain ⟨expected, key, n, rfl⟩ := h
  rfl

theorem not_succeeds {t : StagingTask} (h : t.succeeded = false) (r : Reported) : ¬ Succeeds t r :=
  fun hr => by simp [hr.succeeded] at h

namespace SharedStaging

variable {s s' : SharedStaging} {i : Nat} {a : StagingAnswer}

theorem deleteChunk_reported {c : UploadChunk} (h : s.deleteChunk c a = some s') :
    s'.reported = s.reported := by
  cases a <;> simp only [deleteChunk, reduceCtorEq, Option.some.injEq] at h <;> subst h <;> rfl

theorem append_reported {id : String} {expected : Nat} {body : Bytes} {pc pc' : AppendPc}
    (h : s.append i id expected body pc a = some (s', pc')) :
    (∀ key n, pc ≠ .finished key (.offset n)) ∧
      ((s'.reported = s.reported ∧ ∀ key n, pc' ≠ .finished key (.offset n)) ∨
        ∃ key n, pc' = .finished (some key) (.offset n) ∧
          s'.reported = s.reported ++ [⟨i, key, id, body⟩]) := by
  cases pc with
  | getSession =>
    refine ⟨by simp, .inl ?_⟩
    cases a <;> simp only [append, reduceCtorEq] at h
    case failed =>
      cases h
      simp
    case nonce n =>
      split at h
      · cases h
        simp
      · split at h
        · cases h
          simp
        · split at h <;> cases h
          exact ⟨rfl, by simp⟩
  | putObject chunk =>
    refine ⟨by simp, .inl ?_⟩
    cases a <;> simp only [append, reduceCtorEq] at h
    case ok =>
      cases h
      exact ⟨rfl, by simp⟩
    case broken left =>
      cases left <;> cases h <;> exact ⟨rfl, by simp⟩
  | appendChunk chunk =>
    refine ⟨by simp, ?_⟩
    cases a <;> simp only [append, reduceCtorEq] at h
    case ok =>
      split at h
      · rename_i sessions offset happend
        cases h
        exact .inr ⟨chunk.key, offset, rfl, rfl⟩
      · cases h
        exact .inl ⟨rfl, by simp⟩
    case failed =>
      cases h
      exact .inl ⟨rfl, by simp⟩
  | dropObject key lost =>
    refine ⟨by simp, .inl ?_⟩
    cases a <;> simp only [append, reduceCtorEq] at h
    case ok => cases lost <;> cases h <;> exact ⟨rfl, by simp⟩
    case lost => cases lost <;> cases h <;> exact ⟨rfl, by simp⟩
    case failed => cases lost <;> cases h <;> exact ⟨rfl, by simp⟩
  | reread key =>
    refine ⟨by simp, .inl ?_⟩
    cases a <;> simp only [append, reduceCtorEq] at h
    case ok => split at h <;> cases h <;> exact ⟨rfl, by simp⟩
    case failed =>
      cases h
      exact ⟨rfl, by simp⟩
  | finished key result => cases a <;> simp [append] at h

theorem sweep_reported {pc pc' : SweepPc} (h : s.sweep pc a = some (s', pc')) :
    s'.reported = s.reported := by
  cases pc with
  | deleteExpired =>
    cases a <;> simp only [sweep, reduceCtorEq] at h
    case failed =>
      cases h
      rfl
    case expired ids acked => split at h <;> cases h <;> rfl
  | deleteChunks todo removed =>
    cases todo with
    | nil =>
      cases a <;> simp only [sweep, reduceCtorEq] at h
      case ok =>
        cases h
        rfl
    | cons chunk todo =>
      simp only [sweep] at h
      obtain ⟨s₁, hdelete, heq⟩ := map_eq_some_iff.mp h
      cases heq
      exact deleteChunk_reported hdelete
  | listObjects removed =>
    cases a <;> simp only [sweep, reduceCtorEq] at h
    case ok => split at h <;> cases h <;> rfl
    case failed =>
      cases h
      rfl
  | listIds keys removed =>
    cases a <;> simp only [sweep, reduceCtorEq] at h
    case ok =>
      cases h
      rfl
    case failed =>
      cases h
      rfl
  | deleteOrphans todo orphans removed =>
    cases todo <;> cases a <;> simp only [sweep, reduceCtorEq] at h <;> cases h <;> rfl
  | swept removed | failed removed => cases a <;> simp [sweep] at h

theorem act_reported {t t' : StagingTask} (h : s.act i t a = some (s', t')) : t.succeeded = false ∧
      ((s'.reported = s.reported ∧ t'.succeeded = false) ∨
        ∃ r, r.task = i ∧ Succeeds t' r ∧ s'.reported = s.reported ++ [r]) := by
  cases t with
  | append id expected body pc =>
    obtain ⟨⟨s₁, pc'⟩, happend, heq⟩ := map_eq_some_iff.mp h
    cases heq
    obtain ⟨hrunning, hend⟩ := append_reported happend
    have hnot : ∀ {q : AppendPc}, (∀ key n, q ≠ .finished key (.offset n)) →
        (StagingTask.append id expected body q).succeeded = false := by
      intro q hq
      cases q with
      | finished key result =>
        cases result with
        | offset n => exact absurd rfl (hq key n)
        | _ => rfl
      | _ => rfl
    refine ⟨hnot hrunning, ?_⟩
    rcases hend with ⟨hsame, hlost⟩ | ⟨key, n, rfl, hreported⟩
    · exact .inl ⟨hsame, hnot hlost⟩
    · exact .inr ⟨⟨i, key, id, body⟩, rfl, ⟨expected, some key, n, rfl⟩, hreported⟩
  | create org repo =>
    refine ⟨rfl, .inl ?_⟩
    have h : s.create org repo a = some (s', t') := h
    cases a <;> simp only [create, reduceCtorEq] at h
    case created new acked =>
      split at h <;> cases h
      exact ⟨rfl, rfl⟩
    case failed =>
      cases h
      exact ⟨rfl, rfl⟩
  | openSession id pc =>
    obtain ⟨pc', -, heq⟩ := map_eq_some_iff.mp h
    cases heq
    exact ⟨rfl, .inl ⟨rfl, rfl⟩⟩
  | remove id =>
    refine ⟨rfl, .inl ?_⟩
    have h : s.remove id a = some (s', t') := h
    cases a <;> simp only [remove, reduceCtorEq] at h
    case ok => split at h <;> cases h <;> exact ⟨rfl, rfl⟩
    case lost =>
      cases h
      exact ⟨rfl, rfl⟩
    case failed =>
      cases h
      exact ⟨rfl, rfl⟩
  | deleteChunks todo =>
    refine ⟨rfl, .inl ?_⟩
    cases todo with
    | nil =>
      cases a <;> simp only [act, reduceCtorEq] at h
      cases h
      exact ⟨rfl, rfl⟩
    | cons chunk todo =>
      obtain ⟨s₁, hdelete, heq⟩ := map_eq_some_iff.mp h
      cases heq
      exact ⟨deleteChunk_reported hdelete, rfl⟩
  | sweep pc =>
    obtain ⟨⟨s₁, pc'⟩, hsweep, heq⟩ := map_eq_some_iff.mp h
    cases heq
    exact ⟨rfl, .inl ⟨sweep_reported hsweep, rfl⟩⟩
  | done => cases a <;> simp [act] at h

end SharedStaging

theorem stagingRecorder :
    stagingProgram.Recorder SharedStaging.reported Reported.task Succeeds where
  init := by
    intro s hs
    have hs : s = {} := hs
    exact hs ▸ rfl
  fresh := by
    rintro t r hfresh ⟨expected, key, n, rfl⟩
    simp [stagingProgram, StagingTask.fresh] at hfresh
  act := by
    intro s i t a s' t' hact
    obtain ⟨hrunning, hend⟩ := SharedStaging.act_reported hact
    refine ⟨not_succeeds hrunning, ?_⟩
    rcases hend with ⟨hsame, hnot⟩ | hreport
    · exact .inl ⟨hsame, not_succeeds hnot⟩
    · exact .inr hreport
  env := fun _ e => nomatch e

/-! ## Live sessions -/

namespace SharedStaging

def contentOf (s : SharedStaging) : List UploadChunk → Option Bytes
  | [] => some []
  | chunk :: rest =>
    match s.getObject chunk.key with
    | none => none
    | some body =>
      if body.length ≠ chunk.size then none else (s.contentOf rest).map (body ++ ·)

structure Intact (s : SharedStaging) (row : UploadSessionRow) : Prop where
  content : s.contentOf row.chunks = some (s.confirmed row.id)
  offset : row.offset = (s.confirmed row.id).length
  stored : ∀ c ∈ row.chunks, ∃ b, s.getObject c.key = some b ∧ b.length = c.size

variable {s : SharedStaging} {row : UploadSessionRow}

theorem Kept.getObject (hs : Kept s) {r : Reported} (hr : r ∈ s.reported)
    (hlive : s.Live r.session) : s.getObject r.key = some r.body := by
  obtain ⟨b, hb⟩ := exists_getObject (hs.stored r hr hlive)
  rw [hb, hs.fixed r hr b (getObject_some hb)]

theorem contentOf_eq (hs : Kept s) {chunks : List UploadChunk} {rs : List Reported}
    (hrs : ∀ r ∈ rs, r ∈ s.reported ∧ s.Live r.session)
    (h : chunks.map (fun c => (c.key, c.size)) = rs.map fun r => (r.key, r.body.length)) :
    s.contentOf chunks = some (joined rs) := by
  induction rs generalizing chunks with
  | nil =>
    have hnil : chunks = [] := by simpa using h
    subst hnil
    rfl
  | cons r rs ih =>
    cases chunks with
    | nil => simp at h
    | cons c chunks =>
      simp only [map_cons, List.cons.injEq, Prod.mk.injEq] at h
      obtain ⟨⟨hkey, hsize⟩, hrest⟩ := h
      obtain ⟨hreported, hlive⟩ := hrs r mem_cons_self
      have hbody := hs.getObject hreported hlive
      have hrest := ih (fun r hr => hrs r (mem_cons_of_mem _ hr)) hrest
      simp only [contentOf, hkey, hbody, hsize, ne_eq, not_true_eq_false, if_false, hrest, map_some]
      rfl

theorem Kept.intact (hs : Kept s) (hrow : row ∈ s.sessions) : s.Intact row := by
  have hrs : ∀ r ∈ s.reportedTo row.id, r ∈ s.reported ∧ s.Live r.session := by
    intro r hr
    obtain ⟨hmem, hsession⟩ := mem_filter.mp hr
    exact ⟨hmem, row, hrow, (of_decide_eq_true hsession).symm⟩
  refine ⟨contentOf_eq hs hrs (hs.rows row hrow), hs.offset row hrow, fun c hc => ?_⟩
  have hkey : (c.key, c.size) ∈ row.chunks.map fun c => (c.key, c.size) := mem_map_of_mem hc
  rw [hs.rows row hrow] at hkey
  obtain ⟨r, hr, hrc⟩ := mem_map.mp hkey
  simp only [Prod.mk.injEq] at hrc
  obtain ⟨hmem, hlive⟩ := hrs r hr
  exact ⟨r.body, hrc.1 ▸ hs.getObject hmem hlive, hrc.2⟩

theorem Kept.recorded (hs : Kept s) (hrow : row ∈ s.sessions) {c : UploadChunk}
    (hc : c ∈ row.chunks) : ∃ r ∈ s.reported, r.key = c.key := by
  have hkey : (c.key, c.size) ∈ row.chunks.map fun c => (c.key, c.size) := mem_map_of_mem hc
  rw [hs.rows row hrow] at hkey
  obtain ⟨r, hr, hrc⟩ := mem_map.mp hkey
  exact ⟨r, (mem_filter.mp hr).1, congrArg Prod.fst hrc⟩

end SharedStaging

def AppendPc.key : AppendPc → Option String
  | .getSession => none
  | .putObject chunk | .appendChunk chunk => some chunk.key
  | .dropObject key _ | .reread key => some key
  | .finished key _ => key

theorem AppendPc.owns {s : SharedStaging} {i : Nat} {id key : String} {expected : Nat}
    {body : Bytes} {pc : AppendPc} (h : s.AppendOk i id body pc)
    (hlost : (StagingTask.append id expected body pc).succeeded = false)
    (hkey : pc.key = some key) : s.Owns i id key := by
  cases pc with
  | getSession => cases hkey
  | putObject chunk | dropObject key lost | reread key => exact Option.some.inj hkey ▸ h
  | appendChunk chunk => exact Option.some.inj hkey ▸ h.1
  | finished key result =>
    have hkey : key = some _ := hkey
    subst hkey
    refine h fun n hn => ?_
    subst hn
    simp [StagingTask.succeeded] at hlost

/-- **Live sessions stay intact.** In every state that any replicas reach, the chunks of a
live session are the bodies of exactly the appends that reported success, in that order,
its offset is their total length and every chunk is stored; an append that has not
succeeded has no chunk recorded anywhere. -/
theorem live_sessions_intact {p : Pool SharedStaging StagingTask} (h : sharedStaging.Reachable p) :
    ReportsTrue p ∧ (∀ row ∈ p.shared.sessions, p.shared.Intact row) ∧
      ∀ (i : Nat) (id : String) (expected : Nat) (body : Bytes) (pc : AppendPc) (key : String),
        p.tasks[i]? = some (.append id expected body pc) →
        (StagingTask.append id expected body pc).succeeded = false → pc.key = some key →
          ∀ row ∈ p.shared.sessions, ∀ c ∈ row.chunks, c.key ≠ key := by
  have hrun := SharedStaging.stagingOutline.run h
  refine ⟨stagingRecorder.run h, fun row hrow => hrun.shared.intact hrow, ?_⟩
  intro i id expected body pc key ht hlost hkey row hrow c hc hsame
  have howns := AppendPc.owns (hrun.tasks i _ ht) hlost hkey
  obtain ⟨r, hr, hrkey⟩ := hrun.shared.recorded hrow hc
  exact howns.unrecorded r hr (hrkey.trans hsame)

/-- Two appends race for one offset while a sweeper runs: one is recorded, the other drops
its object. -/
def racingAppends : List (Move StagingTask StagingAnswer Empty) :=
  [.spawn (.create "acme" "app"), .act 0 (.created "s1" true),
    .spawn (.append "s1" 0 [104, 105] .getSession), .spawn (.append "s1" 0 [111] .getSession),
    .spawn (.sweep .deleteExpired), .act 1 (.nonce "aa"), .act 2 (.nonce "bb"),
    .act 3 (.expired [] true), .act 1 .ok, .act 3 .ok, .act 2 .ok, .act 3 .ok, .act 2 .ok,
    .act 1 .ok, .act 3 .ok, .act 1 .ok, .act 1 .ok, .act 3 .ok]

theorem live_sessions_intact_race : ∃ p, sharedStaging.Reachable p ∧
      p.shared.sessions = [⟨"s1", "acme", "app", 1, [⟨0, 1, "_uploads/s1/0-bb"⟩]⟩] ∧
      p.tasks[1]? = some (.append "s1" 0 [104, 105]
        (.finished (some "_uploads/s1/0-aa") (.mismatch 1))) ∧
      ReportsTrue p ∧ ∀ row ∈ p.shared.sessions, p.shared.Intact row := by
  obtain ⟨p, hp⟩ : ∃ p, sharedStaging.replay (fun _ _ => True) ⟨{}, []⟩ racingAppends = some p :=
    ⟨_, rfl⟩
  have hinit : sharedStaging.init ⟨{}, []⟩ := ⟨rfl, rfl⟩
  have hrun : sharedStaging.Reachable p := Machine.run_of_replay hinit hp
  have hview : (sharedStaging.replay (fun _ _ => True) ⟨{}, []⟩ racingAppends).map
      (fun p => (p.shared.sessions, p.tasks[1]?)) =
        some ([⟨"s1", "acme", "app", 1, [⟨0, 1, "_uploads/s1/0-bb"⟩]⟩],
          some (.append "s1" 0 [104, 105]
            (.finished (some "_uploads/s1/0-aa") (.mismatch 1)))) := by decide +kernel
  rw [hp] at hview
  simp only [map_some, Option.some.injEq, Prod.mk.injEq] at hview
  obtain ⟨hreports, hintact, -⟩ := live_sessions_intact hrun
  exact ⟨p, hrun, hview.1, hview.2, hreports, hintact⟩

end Chicoree.Registryd
