import Chicoree.Storage.Migration

/-! # A complete migration

When a migration says that it is complete, every blob is on the target. What the target has under
a digest is then the content of that digest, whichever way a row was settled, and a second
migration finds nothing to copy. -/

namespace Chicoree.Storage

open Transition List Option

variable {S : Sha256} {job : Job}

/-! ## The statement -/

def Holds (S : Sha256) (target : Backend) (digest : Text) : Prop :=
  ∃ content, target.get digest = some content ∧ S.digestOf content = digest

/-- Objects of the size a row says are trusted to be its content. The object of a row has the path
of the digest as its key, or a key that the digest is read from. -/
def Trusted (S : Sha256) (job : Job) : Prop :=
  job.verify = false → ∀ b ∈ job.blobs, ∀ o ∈ job.target.objects,
    o.key = blobPath b.digest ∨ digestFromPath o.key = some b.digest →
      (o.content.length : Int) = b.size → S.digestOf o.content = b.digest

def Sized (job : Job) : Prop :=
  ∀ b ∈ job.blobs, ∀ content, job.source.get b.digest = some content →
    (content.length : Int) = b.size

/-- A step on which no operation fails and nobody interrupts the run. -/
def ErrorFree (_ : Pool Migration Worker) : Move Worker Choice Event → Prop
  | .spawn _ => True
  | .act _ choice => choice = .done
  | .env .feed => True
  | .env (.sourceReturns err) => err = false
  | .env .cancel => False

/-- `Blobs = Copied + Skipped + Missing + Corrupt + Failed` -/
def MigrateReport.AddsUp (r : MigrateReport) : Prop :=
  r.blobs = r.copied + r.skipped + r.missing + r.corrupt + r.failed

/-- A migration that is over without an error and complete. -/
structure Completed (p : Pool Migration Worker) : Prop where
  finished : Finished p
  noError : ¬Failed p.shared
  complete : p.shared.report.Complete

/-- The content under the digest of a row hashes to that, and has the row's size if rows have the
sizes of what the source has. -/
def StoredAs (S : Sha256) (job : Job) (target : Backend) (b : Blob) : Prop :=
  ∃ content, target.get b.digest = some content ∧ S.digestOf content = b.digest ∧
    (Sized job → (content.length : Int) = b.size)

structure Puts (S : Sha256) (job : Job) (target : Backend) (target' : Backend) (digest : Text)
    (content : List UInt8) : Prop where
  target : target' = target.put digest content
  hashes : S.digestOf content = digest
  source : job.source.get digest = some content

section target

variable {target target' : Backend} {digest : Text} {content : List UInt8} {b : Blob}

theorem Puts.get (h : Puts S job target target' digest content)
    (hb : supportedDigest b.digest = true) :
    target'.get b.digest = target.get b.digest ∨
      b.digest = digest ∧ target'.get b.digest = some content := by
  rw [h.target]
  by_cases hpath : blobPath b.digest = blobPath digest
  · have heq : b.digest = digest := by
      rw [← h.hashes] at hpath ⊢
      exact eq_digestOf_of_blobPath hb hpath
    rw [heq]
    exact .inr ⟨rfl, Backend.get_put_self⟩
  · exact .inl (Backend.get_put_ne hpath)

theorem StoredAs.puts (h : StoredAs S job target b) (hb : b ∈ job.blobs)
    (hputs : Puts S job target target' digest content) : StoredAs S job target' b := by
  obtain ⟨found, hget, hhash, hsize⟩ := h
  have hsupported : supportedDigest b.digest = true := by
    rw [← hhash]
    exact supportedDigest_digestOf
  rcases hputs.get hsupported with hsame | ⟨heq, hnew⟩
  · exact ⟨found, hsame.trans hget, hhash, hsize⟩
  · refine ⟨content, hnew, hputs.hashes.trans heq.symm, fun hsized => ?_⟩
    exact hsized b hb content (heq ▸ hputs.source)

end target

/-! ## The invariant of a run -/

structure Sound (S : Sha256) (job : Job) (s : Migration) : Prop where
  objects : ∀ o ∈ s.target.objects, o ∈ job.target.objects ∨
    ∃ digest, o.key = blobPath digest ∧ S.digestOf o.content = digest ∧
      job.source.get digest = some o.content
  kept : ∀ b ∈ job.blobs, StoredAs S job job.target b → StoredAs S job s.target b
  drained : s.returned = some false → s.pending = []
  rows : ∀ b, b ∈ s.pending ∨ b ∈ s.channel → b ∈ job.blobs

structure Working (S : Sha256) (job : Job) (s : Migration) (t : Worker) : Prop where
  row : ∀ b, t.row = some b → b ∈ job.blobs ∧ supportedDigest b.digest = true
  content : ∀ b replace content, t = .putting b replace content →
    job.source.get b.digest = some content
  hashing : ∀ b, t = .hashing b → Sized job → ∀ content, s.target.get b.digest = some content →
    S.digestOf content = b.digest → (content.length : Int) = b.size

variable {s' : Migration}

section run

variable {s : Migration} {t t' : Worker} {choice : Choice} {b : Blob} {target : Backend}
  {o : Outcome}

theorem Ends.row (h : Ends S job s t choice b target o) : t.row = some b := by
  cases h <;> rfl

theorem GoesOn.row (h : GoesOn S job s t choice t') : t'.row = t.row := by
  cases h <;> rfl

theorem Ends.target_cases (h : Ends S job s t choice b target o) (hw : Working S job s t) :
    target = s.target ∨ ∃ content, Puts S job s.target target b.digest content := by
  cases h with
  | @stored b replace content heq | @late b replace content heq =>
    exact .inr ⟨content, rfl, heq, hw.content b replace content rfl⟩
  | _ => exact .inl rfl

@[simp] theorem settle_target (s : Migration) (b : Blob) (o : Outcome) :
    (s.settle b o).target = s.target := by cases o <;> rfl

@[simp] theorem settle_pending (s : Migration) (b : Blob) (o : Outcome) :
    (s.settle b o).pending = s.pending := by cases o <;> rfl

@[simp] theorem settle_channel (s : Migration) (b : Blob) (o : Outcome) :
    (s.settle b o).channel = s.channel := by cases o <;> rfl

@[simp] theorem settle_returned (s : Migration) (b : Blob) (o : Outcome) :
    (s.settle b o).returned = s.returned := by cases o <;> rfl

@[simp] theorem settle_cancelled (s : Migration) (b : Blob) (o : Outcome) :
    (s.settle b o).cancelled = s.cancelled := by cases o <;> rfl

theorem Sound.congr (h : Sound S job s) (htarget : s'.target = s.target)
    (hdrained : s'.returned = some false → s'.pending = [])
    (hrows : ∀ b, b ∈ s'.pending ∨ b ∈ s'.channel → b ∈ job.blobs) : Sound S job s' where
  objects := htarget ▸ h.objects
  kept := htarget ▸ h.kept
  drained := hdrained
  rows := hrows

theorem Sound.channel_tail {rest : List Blob} (h : Sound S job s)
    (hchannel : s.channel = b :: rest) {c : Blob} (hc : c ∈ s.pending ∨ c ∈ rest) :
    c ∈ job.blobs := by
  rcases hc with hc | hc
  · exact h.rows c (.inl hc)
  · exact h.rows c (.inr (by rw [hchannel]; exact mem_cons_of_mem _ hc))

variable {digest : Text} {content : List UInt8}

theorem Sound.puts (h : Sound S job s) (hputs : Puts S job s.target target digest content) :
    Sound S job { s with target := target } where
  objects := by
    intro o ho
    have ho : o ∈ (s.target.put digest content).objects := hputs.target ▸ ho
    rcases Backend.mem_put ho with ho | rfl
    · exact h.objects o ho
    · exact .inr ⟨digest, rfl, hputs.hashes, hputs.source⟩
  kept := fun b hb hstored => (h.kept b hb hstored).puts hb hputs
  drained := h.drained
  rows := h.rows

theorem Working.congr (h : Working S job s t) (htarget : s'.target = s.target) :
    Working S job s' t where
  row := h.row
  content := h.content
  hashing := htarget ▸ h.hashing

theorem Working.puts (h : Working S job s t) (hputs : Puts S job s.target target digest content) :
    Working S job { s with target := target } t where
  row := h.row
  content := h.content
  hashing := by
    intro b ht hsized found hget hhash
    have hrow : t.row = some b := by rw [ht]; rfl
    obtain ⟨hb, hsupported⟩ := h.row b hrow
    rcases hputs.get hsupported with hsame | ⟨heq, hnew⟩
    · exact h.hashing b ht hsized found (hsame.symm.trans hget) hhash
    · have hfound : content = found := Option.some.inj (hnew.symm.trans hget)
      rw [← hfound]
      exact hsized b hb content (heq ▸ hputs.source)

/-- An object that the inventory or the target itself has under a supported digest is the content
of that, or was there from the start. -/
theorem Sound.get_cases (h : Sound S job s) (hb : supportedDigest b.digest = true)
    (hget : s.target.get b.digest = some content) :
    ⟨blobPath b.digest, content⟩ ∈ job.target.objects ∨
      S.digestOf content = b.digest ∧ job.source.get b.digest = some content := by
  rcases h.objects _ (Backend.get_eq_some.mp hget) with hold | ⟨digest, hkey, hhash, hsource⟩
  · exact .inl hold
  · have heq : b.digest = digest := by
      rw [← hhash] at hkey ⊢
      exact eq_digestOf_of_blobPath hb hkey
    rw [heq]
    exact .inr ⟨hhash, hsource⟩

theorem stat_some {n : Nat} (h : stat job target digest choice = some (some n)) :
    (∃ o ∈ job.target.objects, digestFromPath o.key = some digest ∧ o.content.length = n) ∨
      ∃ content, target.get digest = some content ∧ content.length = n := by
  unfold stat at h
  cases hentry : job.listBlobs.bind fun inventory => sizeIn inventory digest with
  | some size =>
    simp only [hentry] at h
    cases h
    obtain ⟨inventory, hlist, hsize⟩ := bind_eq_some_iff.mp hentry
    unfold Job.listBlobs at hlist
    split at hlist
    · cases hlist
      exact .inl (Backend.exists_of_sizeIn hsize)
    · cases hlist
  | none =>
    simp only [hentry] at h
    by_cases hdone : choice = .done
    · rw [if_pos hdone] at h
      exact .inr (map_eq_some_iff.mp (Option.some.inj h))
    · rw [if_neg hdone] at h
      cases h

theorem Working.goesOn (h : Working S job s t) (hs : Sound S job s)
    (hstep : GoesOn S job s t choice t') : Working S job s t' where
  row := fun b hb => h.row b (hstep.row ▸ hb)
  content := by
    rintro b replace content rfl
    cases hstep with
    | put hget => exact hget
  hashing := by
    rintro b rfl hsized content hget hhash
    cases hstep with
    | @hash b choice n hstat hn hverify =>
      obtain ⟨hb, hsupported⟩ := h.row b rfl
      rcases hs.get_cases hsupported hget with hold | ⟨_, hsource⟩
      · rcases stat_some hstat with ⟨o, ho, hpath, hlength⟩ | ⟨found, hfound, hlength⟩
        · -- the listing has it under the path of the digest
          have hkey : o.key = blobPath b.digest := by
            rw [← hhash] at hpath ⊢
            exact eq_blobPath_of_digestFromPath hpath
          have hsame : o = ⟨blobPath b.digest, content⟩ := job.target.keyed.eq_of_key ho hold hkey
          rw [hsame] at hlength
          rw [← hn, ← hlength]
        · rw [Option.some.inj (hget.symm.trans hfound), ← hn, ← hlength]
      · exact hsized b hb content hsource

theorem outline (S : Sha256) (job : Job) (C : Pool Migration Worker →
    Move Worker Choice Event → Prop) :
    (migrate S job).Outline C (Sound S job) (fun s _ t => Working S job s t) where
  init := by
    rintro s rfl
    exact ⟨fun o ho => .inl ho, fun b _ hb => hb, nofun, fun b hb => hb.elim id (nomatch ·)⟩
  spawn := by
    intro p t _ _ hfresh
    have ht : t = .idle := of_decide_eq_true hfresh
    subst ht
    exact ⟨nofun, nofun, nofun⟩
  act := by
    intro p i choice t s' t' h _ ht hact
    have hw := h.tasks i t ht
    cases workerStep_cases hact with
    | drops hchannel _ | refuses hchannel _ _ =>
      exact ⟨h.shared.congr rfl h.shared.drained fun c hc => h.shared.channel_tail hchannel hc,
        ⟨nofun, nofun, nofun⟩⟩
    | @takes choice b rest hchannel _ hsupported =>
      refine ⟨h.shared.congr rfl h.shared.drained
        fun c hc => h.shared.channel_tail hchannel hc, ?_, nofun, nofun⟩
      intro c hc
      cases hc
      have hb : b ∈ p.shared.channel := by rw [hchannel]; exact mem_cons_self
      exact ⟨h.shared.rows b (.inr hb), hsupported⟩
    | goesOn hstep => exact ⟨h.shared, hw.goesOn h.shared hstep⟩
    | @ends t choice b target o hstep =>
      refine ⟨?_, nofun, nofun, nofun⟩
      rcases hstep.target_cases hw with rfl | ⟨content, hputs⟩
      · exact h.shared.congr (by simp) (by simpa using h.shared.drained)
          (by simpa using h.shared.rows)
      · exact (h.shared.puts hputs).congr (by simp) (by simpa using h.shared.drained)
          (by simpa using h.shared.rows)
  interfere := by
    intro p i choice t s' t' h _ ht hact j q _ hq
    have hw := h.tasks i t ht
    have hother := h.tasks j q hq
    cases workerStep_cases hact with
    | drops | takes | refuses => exact hother.congr rfl
    | goesOn hstep => exact hother
    | ends hstep =>
      rcases hstep.target_cases hw with rfl | ⟨content, hputs⟩
      · exact hother.congr (by simp)
      · exact (hother.puts hputs).congr (by simp)
  env := by
    intro p e s' h _ he
    cases surroundings_cases he with
    | feed hpending hgoing =>
      refine ⟨h.shared.congr rfl (fun hreturned => ?_) (fun c hc => h.shared.rows c ?_),
        fun j q hq => (h.tasks j q hq).congr rfl⟩
      · cases hgoing.symm.trans hreturned
      · rcases hc with hc | hc
        · exact .inl (by rw [hpending]; exact mem_cons_of_mem _ hc)
        · rcases mem_append.mp hc with hc | hc
          · exact .inr hc
          · rw [mem_singleton.mp hc, hpending]
            exact .inl mem_cons_self
    | returns hgoing hdrained =>
      refine ⟨h.shared.congr rfl (fun hfalse => ?_) h.shared.rows,
        fun j q hq => (h.tasks j q hq).congr rfl⟩
      cases hfalse
      exact hdrained.resolve_left (by decide)
    | cancels =>
      exact ⟨h.shared.congr rfl h.shared.drained h.shared.rows,
        fun j q hq => (h.tasks j q hq).congr rfl⟩

end run

/-! ## The counters -/

section counters

variable {r : MigrateReport} {b : Blob} {kind : ProblemKind}

def MigrateReport.settled (r : MigrateReport) : Nat :=
  r.copied + r.skipped + r.missing + r.corrupt + r.failed

theorem problem_settled : (r.problem b kind).settled = r.settled + 1 := by
  unfold MigrateReport.problem MigrateReport.settled
  cases kind <;> dsimp only <;> split <;> dsimp only <;> omega

theorem problem_blobs : (r.problem b kind).blobs = r.blobs := by
  unfold MigrateReport.problem
  cases kind <;> dsimp only <;> split <;> rfl

theorem problem_copied : (r.problem b kind).copied = r.copied := by
  unfold MigrateReport.problem
  cases kind <;> dsimp only <;> split <;> rfl

theorem problem_not_complete : ¬(r.problem b kind).Complete := by
  unfold MigrateReport.problem MigrateReport.Complete
  cases kind <;> dsimp only <;> split <;> dsimp only <;> omega

theorem settle_settled (s : Migration) (b : Blob) (o : Outcome) :
    (s.settle b o).report.settled = s.report.settled + 1 := by
  cases o with
  | problem kind => exact problem_settled
  | skipped =>
    show s.report.copied + (s.report.skipped + 1) + s.report.missing + s.report.corrupt +
      s.report.failed = s.report.settled + 1
    unfold MigrateReport.settled
    omega
  | copied size replaced =>
    show s.report.copied + 1 + s.report.skipped + s.report.missing + s.report.corrupt +
      s.report.failed = s.report.settled + 1
    unfold MigrateReport.settled
    omega

theorem settle_blobs (s : Migration) (b : Blob) (o : Outcome) :
    (s.settle b o).report.blobs = s.report.blobs := by
  cases o with
  | problem kind => exact problem_blobs
  | skipped | copied size replaced => rfl

theorem settle_complete {s : Migration} {o : Outcome} (h : (s.settle b o).report.Complete) :
    s.report.Complete := by
  cases o with
  | problem kind => exact absurd h problem_not_complete
  | skipped | copied size replaced => exact h

def busy (ts : List Worker) : Nat := ts.countP fun t => t.row.isSome

variable {ts : List Worker} {i : Nat}

theorem exists_split {t : Worker} (h : ts[i]? = some t) :
    ∃ before after, ts = before ++ t :: after ∧ ∀ t', ts.set i t' = before ++ t' :: after := by
  obtain ⟨hi, rfl⟩ := List.getElem?_eq_some_iff.mp h
  refine ⟨ts.take i, ts.drop (i + 1), ?_, fun t' => set_eq_take_append_cons_drop ..|>.trans ?_⟩
  · rw [← drop_eq_getElem_cons hi, take_append_drop]
  · rw [if_pos hi]

theorem busy_set {t : Worker} (h : ts[i]? = some t) (t' : Worker) :
    busy (ts.set i t') + (if t.row.isSome then 1 else 0) =
      busy ts + (if t'.row.isSome then 1 else 0) := by
  obtain ⟨before, after, hts, hset⟩ := exists_split h
  rw [hset t', hts]
  unfold busy
  simp only [countP_append, countP_cons]
  omega

variable {C : Pool Migration Worker → Move Worker Choice Event → Prop} {p : Pool Migration Worker}

theorem counted (h : (migrate S job).machine.Run C p) :
    p.shared.report.blobs = p.shared.report.settled + busy p.tasks := by
  refine Machine.Run.invariant
    (I := fun p => p.shared.report.blobs = p.shared.report.settled + busy p.tasks)
    ?_ (fun p m p' _ hp _ hstep => ?_) h
  · rintro ⟨s, ts⟩ ⟨rfl, rfl⟩
    rfl
  · rcases Program.step_cases hstep with ⟨t, rfl, hfresh, rfl⟩ |
        ⟨i, choice, t, s', t', rfl, ht, hact, rfl⟩ | ⟨e, s', rfl, he, rfl⟩
    · have ht : t = .idle := of_decide_eq_true hfresh
      subst ht
      have hbusy : busy (p.tasks ++ [.idle]) = busy p.tasks := by
        unfold busy
        rw [countP_append]
        rfl
      rw [hbusy]
      exact hp
    · have hset := busy_set ht t'
      show s'.report.blobs = s'.report.settled + busy (p.tasks.set i t')
      cases workerStep_cases hact with
      | drops _ _ =>
        simp only [Worker.row, isSome_none] at hset
        show p.shared.report.blobs = p.shared.report.settled + _
        omega
      | takes _ _ _ =>
        simp only [Worker.row, isSome_none, isSome_some] at hset
        show p.shared.report.blobs + 1 = p.shared.report.settled + _
        simp only [if_true, Bool.false_eq_true, if_false] at hset
        omega
      | refuses _ _ _ =>
        rw [settle_settled, settle_blobs]
        simp only [Worker.row, isSome_none] at hset
        show p.shared.report.blobs + 1 = p.shared.report.settled + 1 + _
        omega
      | goesOn h =>
        rw [h.row] at hset
        omega
      | ends h =>
        rw [settle_settled, settle_blobs]
        rw [h.row] at hset
        simp only [Worker.row, isSome_none, isSome_some, if_true] at hset
        show p.shared.report.blobs = p.shared.report.settled + 1 + _
        simp only [Bool.false_eq_true, if_false] at hset
        omega
    · have hreport : s'.report = p.shared.report := by
        cases surroundings_cases he <;> rfl
      rw [hreport]
      exact hp

theorem Finished.addsUp (hp : Finished p) (h : (migrate S job).machine.Run C p) :
    p.shared.report.AddsUp := by
  have hcounted := counted h
  have hbusy : busy p.tasks = 0 := by
    unfold busy
    rw [countP_eq_zero]
    intro t ht
    rw [hp.workers t ht]
    exact Bool.false_ne_true
  rw [hbusy] at hcounted
  exact hcounted

end counters

/-! ## No row is left -/

section rows

variable {p : Pool Migration Worker}

/-- A row of a migration that might still be complete, and that the target lacks: a worker has
it. -/
structure Owed (S : Sha256) (job : Job) (s : Migration) (b : Blob) : Prop where
  mem : b ∈ job.blobs
  taken : b ∉ s.pending ∧ b ∉ s.channel
  complete : s.report.Complete
  going : s.cancelled = false
  lacking : ¬StoredAs S job s.target b

variable {b : Blob}

theorem Ends.stored_as {s : Migration} {t : Worker} {choice : Choice}
    {target : Backend} {o : Outcome} (h : Ends S job s t choice b target o)
    (hreal : job.dryRun = false) (htrust : Trusted S job) (hs : Sound S job s)
    (hw : Working S job s t) (hcomplete : ({ s with target := target }.settle b o).report.Complete) :
    StoredAs S job target b := by
  obtain ⟨hb, hsupported⟩ := hw.row b h.row
  cases h with
  | statFails | hashFails | missing | openFails | mismatch | late | putFails =>
    exact absurd hcomplete problem_not_complete
  | plan _ hdry | replan _ _ hdry =>
    rw [hreal] at hdry
    cases hdry
  | @trusted b choice n hstat hn hverify =>
    rcases stat_some hstat with ⟨o, ho, hpath, hlength⟩ | ⟨found, hget, hlength⟩
    · have hhash := htrust hverify b hb o ho (.inr hpath) (by rw [hlength, hn])
      have hkey : o.key = blobPath b.digest := by
        rw [← hhash] at hpath ⊢
        exact eq_blobPath_of_digestFromPath hpath
      refine hs.kept b hb ⟨o.content, Backend.get_eq_some.mpr (hkey ▸ ho), hhash, fun _ => ?_⟩
      rw [hlength, hn]
    · refine ⟨found, hget, ?_, fun _ => by rw [hlength, hn]⟩
      rcases hs.get_cases hsupported hget with hold | ⟨hhash, _⟩
      · exact htrust hverify b hb _ hold (.inl rfl) (by rw [hlength, hn])
      · exact hhash
  | @verified b content hget heq =>
    exact ⟨content, hget, heq, fun hsized => hw.hashing b rfl hsized content hget heq⟩
  | @stored b replace content heq =>
    refine ⟨content, Backend.get_put_self, heq, fun hsized => ?_⟩
    exact hsized b hb content (hw.content b replace content rfl)

theorem Owed.back {s : Migration} (h : Owed S job s' b) (htaken : b ∉ s.pending ∧ b ∉ s.channel)
    (hcomplete : s'.report.Complete → s.report.Complete) (hgoing : s'.cancelled = s.cancelled)
    (hstored : StoredAs S job s.target b → StoredAs S job s'.target b) : Owed S job s b where
  mem := h.mem
  taken := htaken
  complete := hcomplete h.complete
  going := hgoing ▸ h.going
  lacking := fun hthere => h.lacking (hstored hthere)

theorem settles (hreal : job.dryRun = false) (htrust : Trusted S job)
    (C : Pool Migration Worker → Move Worker Choice Event → Prop) :
    (migrate S job).Settles C (Owed S job) (fun _ t b => t.row = some b) where
  init := by
    rintro s rfl b h
    exact h.taken.1 h.mem
  act := by
    intro p i choice t s' t' hrun hcarried _ ht hact b howed
    have hholds := (outline S job C).run hrun
    have hw := hholds.tasks i t ht
    -- a row that was owed before is carried by this worker or another one
    have hback (hbefore : Owed S job p.shared b) :
        t.row = some b ∨ Program.CarriedByOther (fun _ t b => t.row = some b) p.tasks i s' b :=
      (hcarried.cases ht hbefore).imp_right fun h => h.mono fun _ hq => hq
    cases workerStep_cases hact with
    | @drops choice c rest hchannel hcancelled =>
      have hgoing : p.shared.cancelled = false := howed.going
      rw [hcancelled] at hgoing
      cases hgoing
    | @takes choice c rest hchannel _ _ =>
      by_cases hbc : b = c
      · rw [hbc]
        exact .inl rfl
      · refine (hback (howed.back ⟨howed.taken.1, fun hmem => ?_⟩ id rfl id)).imp (nomatch ·) id
        rw [hchannel] at hmem
        exact howed.taken.2 ((mem_cons.mp hmem).resolve_left hbc)
    | @refuses choice c rest hchannel _ _ =>
      exact absurd howed.complete problem_not_complete
    | goesOn h =>
      rcases hback howed with hrow | hother
      · exact .inl (h.row.trans hrow)
      · exact .inr hother
    | @ends t choice c target o h =>
      have hbefore : Owed S job p.shared b := by
        refine howed.back (by simpa using howed.taken) settle_complete (by simp) fun hstored => ?_
        rw [settle_target]
        rcases h.target_cases hw with rfl | ⟨content, hputs⟩
        · exact hstored
        · exact hstored.puts howed.mem hputs
      rcases hback hbefore with hrow | hother
      · have hbc : c = b := Option.some.inj (h.row.symm.trans hrow)
        subst hbc
        have hstored := h.stored_as hreal htrust hholds.shared hw howed.complete
        exact absurd (by rw [settle_target]; exact hstored) howed.lacking
      · exact .inr hother
  env := by
    intro p e s' _ hcarried _ he b howed
    cases surroundings_cases he with
    | feed hpending =>
      refine hcarried b (howed.back ⟨fun hmem => ?_, fun hmem => ?_⟩ id rfl id)
      · rw [hpending] at hmem
        rcases mem_cons.mp hmem with rfl | hmem
        · exact howed.taken.2 (mem_append_right _ mem_cons_self)
        · exact howed.taken.1 hmem
      · exact howed.taken.2 (mem_append_left _ hmem)
    | returns => exact hcarried b (howed.back howed.taken id rfl id)
    | cancels => exact nomatch howed.going

theorem Completed.stored (h : Completed p) (hreal : job.dryRun = false) (htrust : Trusted S job)
    (hrun : (migrate S job).machine.Reachable p) (hb : b ∈ job.blobs) :
    StoredAs S job p.shared.target b := by
  by_contra hlacking
  have hgoing : p.shared.cancelled = false :=
    Bool.eq_false_iff.mpr fun hcancelled => h.noError (.inr hcancelled)
  have hreturned : p.shared.returned = some false := by
    cases hr : p.shared.returned with
    | none => exact absurd hr h.finished.returned
    | some err =>
      cases err with
      | true => exact absurd (.inl hr) h.noError
      | false => rfl
  have hpending := ((outline S job _).run hrun).shared.drained hreturned
  have howed : Owed S job p.shared b :=
    ⟨hb, by rw [hpending, h.finished.channel]; exact ⟨nofun, nofun⟩, h.complete, hgoing, hlacking⟩
  obtain ⟨t, ht, hrow⟩ := (settles hreal htrust _).run hrun b howed
  rw [h.finished.workers t ht] at hrow
  cases hrow

end rows

/-! ## A second migration -/

section second

variable {s : Migration} {t t' : Worker} {choice : Choice} {b : Blob}
  {C : Pool Migration Worker → Move Worker Choice Event → Prop}

def Full (S : Sha256) (job : Job) : Prop :=
  ∀ b ∈ job.blobs, ∃ content, job.target.get b.digest = some content ∧
    S.digestOf content = b.digest ∧ (content.length : Int) = b.size

/-- Nothing has been copied, and without failures nothing has gone wrong. -/
structure Untouched (job : Job) (C : Pool Migration Worker → Move Worker Choice Event → Prop)
    (s : Migration) : Prop where
  target : s.target = job.target
  copied : s.report.copied = 0
  rows : ∀ b, b ∈ s.pending ∨ b ∈ s.channel → b ∈ job.blobs
  errorFree : (∀ p m, C p m → ErrorFree p m) → s.report.Complete ∧ ¬Failed s

def Looking (job : Job) : Worker → Prop
  | .idle => True
  | .checking b => b ∈ job.blobs
  | .hashing b => b ∈ job.blobs
  | _ => False

section

variable (hfull : Full S job) (hs : Untouched job C s)
include hfull hs

theorem stat_full (hb : b ∈ job.blobs) {found : Option Nat}
  (h : stat job s.target b.digest choice = some found) :
    ∃ n : Nat, found = some n ∧ (n : Int) = b.size := by
  obtain ⟨content, hget, hhash, hlength⟩ := hfull b hb
  refine ⟨content.length, ?_, hlength⟩
  unfold stat at h
  cases hentry : job.listBlobs.bind fun inventory => sizeIn inventory b.digest with
  | some size =>
    simp only [hentry] at h
    cases h
    obtain ⟨inventory, hlist, hsize⟩ := bind_eq_some_iff.mp hentry
    unfold Job.listBlobs at hlist
    split at hlist
    · cases hlist
      obtain ⟨o, ho, hpath, hsize⟩ := Backend.exists_of_sizeIn hsize
      rw [← hhash] at hpath hget
      have hkey := eq_blobPath_of_digestFromPath hpath
      have hsame := job.target.keyed.eq_of_key ho (Backend.get_eq_some.mp hget) hkey
      rw [← hsize, hsame]
    · cases hlist
  | none =>
    simp only [hentry] at h
    by_cases hdone : choice = .done
    · rw [if_pos hdone, hs.target, hget] at h
      exact (Option.some.inj h).symm
    · rw [if_neg hdone] at h
      cases h

theorem not_needs (hb : b ∈ job.blobs) {replace : Bool} : ¬Needs job s b choice replace := by
  intro h
  cases h with
  | absent h =>
    obtain ⟨n, hn, _⟩ := stat_full hfull hs hb h
    cases hn
  | size h hne =>
    obtain ⟨n, hn, hsize⟩ := stat_full hfull hs hb h
    cases hn
    exact hne hsize

theorem get_full (hb : b ∈ job.blobs) {content : List UInt8}
  (h : s.target.get b.digest = some content) : S.digestOf content = b.digest := by
  obtain ⟨found, hget, hhash, _⟩ := hfull b hb
  rw [hs.target, hget] at h
  exact Option.some.inj h ▸ hhash

theorem Looking.goesOn (h : Looking job t) (hstep : GoesOn S job s t choice t')
    : Looking job t' := by
  cases hstep with
  | hash => exact h
  | «open» hneeds => exact absurd hneeds (not_needs hfull hs h)
  | replace hget hne => exact absurd (get_full hfull hs h hget) hne
  | put => exact False.elim h

theorem Looking.ends (h : Looking job t) {target : Backend} {o : Outcome}
  (hstep : Ends S job s t choice b target o) :
    target = s.target ∧ (o = .skipped ∨ choice ≠ .done ∧ o = .problem .failed) := by
  cases hstep with
  | statFails hfails => exact ⟨rfl, .inr ⟨hfails, rfl⟩⟩
  | trusted | verified => exact ⟨rfl, .inl rfl⟩
  | plan hneeds => exact absurd hneeds (not_needs hfull hs h)
  | hashFails hfails =>
    refine ⟨rfl, .inr ⟨hfails.resolve_right fun hnone => ?_, rfl⟩⟩
    obtain ⟨content, hget, _⟩ := hfull _ h
    rw [hs.target, hget] at hnone
    cases hnone
  | replan hget hne => exact absurd (get_full hfull hs h hget) hne
  | missing | openFails | stored | mismatch | late | putFails => exact False.elim h

end

theorem Untouched.congr (h : Untouched job C s) (htarget : s'.target = s.target)
    (hreport : s'.report.copied = s.report.copied)
    (hrows : ∀ b, b ∈ s'.pending ∨ b ∈ s'.channel → b ∈ job.blobs)
    (hfree : (∀ p m, C p m → ErrorFree p m) → s.report.Complete ∧ ¬Failed s →
      s'.report.Complete ∧ ¬Failed s') : Untouched job C s' where
  target := htarget.trans h.target
  copied := hreport.trans h.copied
  rows := hrows
  errorFree := fun hC => hfree hC (h.errorFree hC)

theorem supported_of_full (hfull : Full S job) (hb : b ∈ job.blobs) :
    supportedDigest b.digest = true := by
  obtain ⟨content, _, hhash, _⟩ := hfull b hb
  rw [← hhash]
  exact supportedDigest_digestOf

theorem fullOutline (hfull : Full S job) :
    (migrate S job).Outline C (Untouched job C) (fun _ _ t => Looking job t) where
  init := by
    rintro s rfl
    exact ⟨rfl, rfl, fun b hb => hb.elim id (nomatch ·), fun _ =>
      ⟨⟨rfl, rfl, rfl⟩, fun hfailed => hfailed.elim (nomatch ·) (nomatch ·)⟩⟩
  spawn := by
    intro p t _ _ hfresh
    have ht : t = .idle := of_decide_eq_true hfresh
    rw [ht]
    exact True.intro
  act := by
    intro p i choice t s' t' h hc ht hact
    have hl := h.tasks i t ht
    have hrest {c : Blob} {rest : List Blob} (hchannel : p.shared.channel = c :: rest) (b : Blob)
        (hb : b ∈ p.shared.pending ∨ b ∈ rest) : b ∈ job.blobs := by
      rcases hb with hb | hb
      · exact h.shared.rows b (.inl hb)
      · exact h.shared.rows b (.inr (by rw [hchannel]; exact mem_cons_of_mem _ hb))
    have hhead {c : Blob} {rest : List Blob} (hchannel : p.shared.channel = c :: rest) :
        c ∈ job.blobs :=
      h.shared.rows c (.inr (by rw [hchannel]; exact mem_cons_self))
    cases workerStep_cases hact with
    | drops hchannel _ =>
      exact ⟨h.shared.congr rfl rfl (hrest hchannel) fun _ hfree => hfree, True.intro⟩
    | takes hchannel _ _ =>
      exact ⟨h.shared.congr rfl rfl (hrest hchannel) fun _ hfree => hfree, hhead hchannel⟩
    | refuses hchannel _ hsupported =>
      rw [supported_of_full hfull (hhead hchannel)] at hsupported
      cases hsupported
    | goesOn hstep => exact ⟨h.shared, hl.goesOn hfull h.shared hstep⟩
    | ends hstep =>
      refine ⟨?_, True.intro⟩
      obtain ⟨rfl, rfl | ⟨hfails, rfl⟩⟩ := hl.ends hfull h.shared hstep
      · exact h.shared.congr rfl rfl h.shared.rows fun _ hfree => hfree
      · exact h.shared.congr rfl problem_copied h.shared.rows
          fun hC _ => absurd (hC _ _ hc) hfails
  interfere := fun p _ _ _ _ _ h _ _ _ j q _ hq => h.tasks j q hq
  env := by
    intro p e s' h hc he
    refine ⟨?_, h.tasks⟩
    cases surroundings_cases he with
    | feed hpending =>
      refine h.shared.congr rfl rfl (fun c hc => h.shared.rows c ?_) fun _ hfree => hfree
      rw [hpending]
      rcases hc with hc | hc
      · exact .inl (mem_cons_of_mem _ hc)
      · rcases mem_append.mp hc with hc | hc
        · exact .inr hc
        · rw [mem_singleton.mp hc]
          exact .inl mem_cons_self
    | @returns err =>
      refine h.shared.congr rfl rfl h.shared.rows fun hC hfree => ⟨hfree.1, ?_⟩
      have herr : err = false := hC _ _ hc
      rintro (hreturned | hcancelled)
      · rw [herr] at hreturned
        cases hreturned
      · exact hfree.2 (.inr hcancelled)
    | cancels =>
      exact h.shared.congr rfl rfl h.shared.rows fun hC _ => False.elim (hC _ _ hc)

end second

/-- **A complete migration has every blob on the target.** Whatever the outcome, no object of the
target is replaced by content that does not hash to its key, and the counters add up. A second
migration of the same rows copies nothing, and without errors it is complete again. -/
theorem migrate_complete (S : Sha256) (job : Job) :
    (∀ p, (migrate S job).machine.Reachable p → ∀ o ∈ p.shared.target.objects,
      o ∈ job.target.objects ∨ o.key = blobPath (S.digestOf o.content)) ∧
    (∀ p, (migrate S job).machine.Reachable p → Finished p → p.shared.report.AddsUp) ∧
    (job.dryRun = false → Trusted S job → ∀ p, (migrate S job).machine.Reachable p → Completed p →
        (∀ b ∈ job.blobs, Holds S p.shared.target b.digest) ∧
        (Sized job → ∀ second : Job, second.target = p.shared.target → second.blobs = job.blobs →
          (∀ q, (migrate S second).machine.Reachable q → q.shared.report.copied = 0) ∧
          ∀ q, (migrate S second).machine.Run ErrorFree q → Finished q → Completed q)) := by
  refine ⟨fun p hp o ho => ?_, fun p hp hfinished => hfinished.addsUp hp, ?_⟩
  · rcases ((outline S job _).run hp).shared.objects o ho with hold | ⟨digest, hkey, hhash, _⟩
    · exact .inl hold
    · rw [hhash]
      exact .inr hkey
  · intro hreal htrust p hp hcompleted
    have hstored {b : Blob} (hb : b ∈ job.blobs) : StoredAs S job p.shared.target b :=
      hcompleted.stored hreal htrust hp hb
    refine ⟨fun b hb => ?_, fun hsized second htarget hblobs => ?_⟩
    · obtain ⟨content, hget, hhash, _⟩ := hstored hb
      exact ⟨content, hget, hhash⟩
    · have hfull : Full S second := by
        intro b hb
        rw [hblobs] at hb
        obtain ⟨content, hget, hhash, hlength⟩ := hstored hb
        exact ⟨content, htarget ▸ hget, hhash, hlength hsized⟩
      refine ⟨fun q hq => ((fullOutline hfull).run hq).shared.copied, fun q hq hfinished => ?_⟩
      have hfree := ((fullOutline hfull).run hq).shared.errorFree fun _ _ h => h
      exact ⟨hfinished, hfree.2, hfree.1⟩

/-- The hash of nothing, and that of one zero octet for every other content. -/
def emptySha256 : Sha256 where
  hex c :=
    (if c = [] then "e3b0c44298fc1c149afbf4c8996fb92427ae41e4649b934ca495991b7852b855"
      else "6e340b9cffb37a989ca544e6bb780a2c78901d3fb33738768511a30617afa01d").toList.map Char.toUInt8
  length c := by split <;> decide +kernel
  digits c := by split <;> exact all_eq_true.mp (by decide +kernel)

def emptyBlobJob : Job where
  source := ⟨false, [⟨blobPath (emptySha256.digestOf []), []⟩], by decide +kernel⟩
  target := ⟨false, [], by decide⟩
  blobs := [⟨emptySha256.digestOf [], 0⟩]
  workers := 1
  dryRun := false
  verify := true
  listed := true

def twoBlobJob : Job :=
  { emptyBlobJob with
    source := ⟨false, [⟨blobPath (emptySha256.digestOf []), []⟩,
      ⟨blobPath (emptySha256.digestOf [0]), [0]⟩], by decide +kernel⟩
    blobs := [⟨emptySha256.digestOf [], 0⟩, ⟨emptySha256.digestOf [0], 1⟩] }

/-- Both blobs are copied, and a second migration copies neither. -/
theorem migrate_complete_twoBlobs :
    ∃ p, (migrate emptySha256 twoBlobJob).machine.Reachable p ∧ Completed p ∧
      (∀ b ∈ twoBlobJob.blobs, Holds emptySha256 p.shared.target b.digest) ∧
      ∀ q, (migrate emptySha256 { twoBlobJob with
          target := p.shared.target }).machine.Reachable q → q.shared.report.copied = 0 := by
  have hreplay : ((migrate emptySha256 twoBlobJob).machine.replay (fun _ _ => True)
      ⟨twoBlobJob.start, []⟩ (.spawn .idle :: .env .feed :: replicate 4 (.act 0 .done) ++
        .env .feed :: replicate 4 (.act 0 .done) ++ [.env (.sourceReturns false)])).map (fun p =>
      (p.shared.returned, p.shared.channel, p.tasks, p.shared.cancelled,
        decide p.shared.report.Complete)) =
      some (some false, [], [.idle], false, true) := by decide +kernel
  obtain ⟨p, hp, hview⟩ := map_eq_some_iff.mp hreplay
  simp only [Prod.mk.injEq, decide_eq_true_eq] at hview
  obtain ⟨hreturned, hchannel, htasks, hcancelled, hcomplete⟩ := hview
  have hinit : (migrate emptySha256 twoBlobJob).machine.init ⟨twoBlobJob.start, []⟩ :=
    ⟨rfl, rfl⟩
  have hrun : (migrate emptySha256 twoBlobJob).machine.Reachable p :=
    Machine.run_of_replay (M := (migrate emptySha256 twoBlobJob).machine) hinit hp
  have hcompleted : Completed p := by
    refine ⟨⟨by rw [hreturned]; exact nofun, hchannel, fun t ht => ?_⟩, fun hfailed => ?_, hcomplete⟩
    · rw [htasks] at ht
      exact mem_singleton.mp ht
    · rcases hfailed with hfailed | hfailed
      · rw [hreturned] at hfailed
        cases hfailed
      · rw [hcancelled] at hfailed
        cases hfailed
  obtain ⟨hholds, hsecond⟩ :=
    (migrate_complete emptySha256 twoBlobJob).2.2 rfl nofun p hrun hcompleted
  have hsizes : ∀ b ∈ twoBlobJob.blobs, (twoBlobJob.source.get b.digest).all
      (fun content => decide ((content.length : Int) = b.size)) = true := by decide +kernel
  have hsized : Sized twoBlobJob := fun b hb content hget => by simpa [hget] using hsizes b hb
  exact ⟨p, hrun, hcompleted, hholds,
    (hsecond hsized { twoBlobJob with target := p.shared.target } rfl rfl).1⟩

end Chicoree.Storage
