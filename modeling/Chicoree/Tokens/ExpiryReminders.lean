import Chicoree.Lib.Machine

/-! # Reminders of credentials that expire

`runTokenExpiryReminders` announces what expires within its window and notes the credential, not
the expiry; a run that finds a service account outside forgets its note. -/

namespace Chicoree.Tokens

open Transition List

/-! ## The job -/

inductive CredentialKind where
  | pat
  | sa
deriving DecidableEq

structure Credential where
  kind : CredentialKind
  id : String
deriving DecidableEq

/-- `token.expiring` of a credential and one of its expiry dates. -/
structure Reminder where
  credential : Credential
  expiresAt : Int
deriving DecidableEq

/-- The rows of the credentials and their `expires_at`, which stays what it was where a row is
gone, and the keys of `notification_state`; `found` is what runs have found inside their
windows, `issued` every id there was. -/
structure ReminderStore where
  issued : List Credential
  live : List Credential
  expiresAt : Credential → Option Int
  notified : List Credential
  found : List Reminder
  sent : List Reminder

/-- A run of `runTokenExpiryReminders`: it has to read, or to claim the rest of what it found. -/
inductive ReminderRun where
  | reading (now : Int) (within : Nat)
  | claiming (now : Int) (within : Nat) (rest : List Reminder)
  | done

def ReminderRun.listed : ReminderRun → List Reminder
  | .claiming _ _ rest => rest
  | _ => []

/-- `withinDays`, which may be a fraction, is what it comes to in milliseconds. -/
def windowEnd (now : Int) (within : Nat) : Int := now + within

section store

variable (s : ReminderStore) (now : Int) (within : Nat)

def expiringCredentials (kind : CredentialKind) : List Reminder :=
  (s.live.filter fun c => c.kind = kind).filterMap fun c => (s.expiresAt c).bind fun e =>
    if now < e ∧ e ≤ windowEnd now within then some ⟨c, e⟩ else none

def expiring : List Reminder :=
  expiringCredentials s now within .pat ++ expiringCredentials s now within .sa

/-- `claim`, and the notification of what was claimed, which is delivered. -/
def claim (f : Reminder) : ReminderStore :=
  if f.credential ∈ s.notified then s
  else { s with notified := f.credential :: s.notified, sent := f :: s.sent }

def outside (c : Credential) : Bool :=
  decide (c.kind = .sa ∧ c ∈ s.live) &&
    (s.expiresAt c).all fun e => decide (windowEnd now within < e)

def forget : ReminderStore :=
  { s with notified := s.notified.filter fun c => !outside s now within c }

def reminderStep : ReminderRun → Option (ReminderStore × ReminderRun)
  | .reading now within => some ({ s with found := s.found ++ expiring s now within },
      .claiming now within (expiring s now within))
  | .claiming now within (f :: rest) => some (claim s f, .claiming now within rest)
  | .claiming now within [] => some (forget s now within, .done)
  | .done => none

end store

/-- What happens to credentials, with the expiry that the policy grants. -/
inductive CredentialChange where
  | create (c : Credential) (expiresAt : Option Int)
  | rotateAccessToken (old new : String) (expiresAt : Option Int)
  | rotateServiceAccount (id : String) (expiresAt : Option Int)
  | delete (c : Credential)

def ReminderStore.set (s : ReminderStore) (c : Credential) (expiresAt : Option Int) :
    ReminderStore :=
  { s with expiresAt := Function.update s.expiresAt c expiresAt }

def credentialChange (s : ReminderStore) : CredentialChange → Option ReminderStore
  | .create c expiresAt =>
    if c ∈ s.issued then none
    else some { s.set c expiresAt with issued := c :: s.issued, live := c :: s.live }
  | .rotateAccessToken old new expiresAt =>
    if ⟨.pat, new⟩ ∈ s.issued then none
    else some { s.set ⟨.pat, new⟩ expiresAt with
      issued := ⟨.pat, new⟩ :: s.issued
      live := (⟨.pat, new⟩ :: s.live).filter fun x => x ≠ ⟨.pat, old⟩ }
  | .rotateServiceAccount id expiresAt =>
    if ⟨.sa, id⟩ ∈ s.live then some (s.set ⟨.sa, id⟩ expiresAt) else none
  | .delete c => some { s with live := s.live.filter fun x => x ≠ c }

def reminderProgram : Program ReminderStore ReminderRun Unit CredentialChange where
  init s := s = ⟨[], [], fun _ => none, [], [], []⟩
  fresh
    | .reading _ _ => true
    | _ => false
  act s _ t _ := reminderStep s t
  env := credentialChange

/-! ## The promise and the condition -/

/-- No expiry is announced twice, and what a run found is announced, or still on the list of a
run. -/
structure Announced (p : Pool ReminderStore ReminderRun) : Prop where
  once : p.shared.sent.Nodup
  all : ∀ f ∈ p.shared.found, f ∈ p.shared.sent ∨ ∃ t ∈ p.tasks, f ∈ t.listed

def unlisted (c : Credential) (ts : List ReminderRun) : Bool :=
  ts.all fun t => t.listed.all fun f => f.credential ≠ c

def unannounced (s : ReminderStore) (c : Credential) (expiresAt : Option Int) : Bool :=
  expiresAt.all fun e => (⟨c, e⟩ : Reminder) ∉ s.sent

/-- **The condition on a step.** An account that is rotated is on no list, and does not get an
announced expiry again; what is found inside a window has no note of another expiry; the expiry
of one whose note is forgotten is not announced. -/
def inTime (p : Pool ReminderStore ReminderRun) :
    Move ReminderRun Unit CredentialChange → Bool
  | .env (.rotateServiceAccount id expiresAt) =>
    unlisted ⟨.sa, id⟩ p.tasks && unannounced p.shared ⟨.sa, id⟩ expiresAt
  | .act i _ =>
    match p.tasks[i]? with
    | some (.reading now within) => (expiring p.shared now within).all fun f =>
        f.credential ∉ p.shared.notified || f ∈ p.shared.sent
    | some (.claiming now within []) =>
      p.shared.notified.all fun c => !outside p.shared now within c ||
        unannounced p.shared c (p.shared.expiresAt c)
    | _ => true
  | _ => true

/-! ## In every run -/

variable {s s' : ReminderStore} {c : Credential} {f g : Reminder} {e : Option Int} {now : Int}
  {within : Nat} {p : Pool ReminderStore ReminderRun}

/-- The note of the credential is of this expiry. -/
structure Known (s : ReminderStore) (f : Reminder) : Prop where
  date : s.expiresAt f.credential = some f.expiresAt
  noted : f.credential ∈ s.notified → f ∈ s.sent

structure Sound (s : ReminderStore) : Prop where
  live : ∀ c ∈ s.live, c ∈ s.issued
  once : s.sent.Nodup
  new : ∀ c ∉ s.issued, s.expiresAt c = none ∧ c ∉ s.notified ∧ ∀ f ∈ s.sent, f.credential ≠ c
  unsent : ∀ f : Reminder, s.expiresAt f.credential = some f.expiresAt →
    f.credential ∉ s.notified → f ∉ s.sent

theorem date_of_expiring (hf : f ∈ expiring s now within) :
    s.expiresAt f.credential = some f.expiresAt := by
  rcases mem_append.mp hf with hf | hf <;>
    obtain ⟨c, -, hf⟩ := mem_filterMap.mp hf <;>
    obtain ⟨e, he, hf⟩ := Option.bind_eq_some_iff.mp hf <;> split at hf <;> cases hf <;>
    exact he

theorem Known.claim (h : Known s g) (hf : Known s f) : Known (claim s f) g := by
  have hsame (hc : g.credential = f.credential) : g = f := by
    have hdate := h.date
    rw [hc, hf.date] at hdate
    cases f
    cases g
    simp_all
  unfold Tokens.claim
  split
  · exact h
  · refine ⟨h.date, fun hmem => ?_⟩
    rcases mem_cons.mp hmem with hc | hmem
    · exact hsame hc ▸ mem_cons_self
    · exact mem_cons_of_mem f (h.noted hmem)

theorem Sound.claim (h : Sound s) (hf : Known s f) : Sound (claim s f) := by
  unfold Tokens.claim
  split
  · exact h
  · rename_i hnew
    refine ⟨h.live, nodup_cons.mpr ⟨h.unsent f hf.date hnew, h.once⟩, fun c hc => ?_,
      fun g hdate hnote => ?_⟩
    · obtain ⟨hdate, hnote, hsent⟩ := h.new c hc
      have hne : c ≠ f.credential := by
        rintro rfl
        cases hdate.symm.trans hf.date
      exact ⟨hdate, not_mem_cons_of_ne_of_not_mem hne hnote,
        forall_mem_cons.mpr ⟨hne.symm, hsent⟩⟩
    · obtain ⟨hne, hnote⟩ := ne_and_not_mem_of_not_mem_cons hnote
      exact not_mem_cons_of_ne_of_not_mem (fun heq => hne (heq ▸ rfl))
        (h.unsent g hdate hnote)

theorem unannounced_iff : unannounced s c e = true ↔ ∀ x, e = some x → ⟨c, x⟩ ∉ s.sent := by
  cases e <;> simp [unannounced]

theorem Sound.set (h : Sound s) (hnew : unannounced s c e = true) (hc : c ∈ s'.issued)
    (hlive : ∀ x ∈ s'.live, x ∈ s'.issued)
    (hissued : s.issued ⊆ s'.issued) (hdate : s'.expiresAt = (s.set c e).expiresAt)
    (hnote : s'.notified = s.notified) (hsent : s'.sent = s.sent) : Sound s' := by
  refine ⟨hlive, hsent ▸ h.once, fun x hx => ?_, fun f hf hmem => ?_⟩
  · have hne : x ≠ c := fun heq => hx (heq ▸ hc)
    rw [hdate, hnote, hsent]
    refine ⟨?_, (h.new x fun hmem => hx (hissued hmem)).2⟩
    exact (Function.update_of_ne hne e _).trans (h.new x fun hmem => hx (hissued hmem)).1
  · rw [hsent]
    rw [hdate] at hf
    by_cases hc : f.credential = c
    · subst hc
      exact unannounced_iff.mp hnew _ (by simpa [ReminderStore.set] using hf)
    · exact h.unsent f (by simpa [ReminderStore.set, hc] using hf) (hnote ▸ hmem)

theorem Known.set (h : Known s f) (hne : f.credential ≠ c)
    (hdate : s'.expiresAt = (s.set c e).expiresAt) (hnote : s'.notified = s.notified)
    (hsent : s'.sent = s.sent) : Known s' f :=
  ⟨by rw [hdate]; exact (Function.update_of_ne hne e _).trans h.date,
    by rw [hnote, hsent]; exact h.noted⟩

def Knows (s : ReminderStore) (_ : Nat) (t : ReminderRun) : Prop := ∀ f ∈ t.listed, Known s f

theorem reminderStep_keeps {i : Nat} {t t' : ReminderRun} {a : Unit}
    (hp : Program.Holds Sound Knows p) (hc : inTime p (.act i a) = true)
    (ht : p.tasks[i]? = some t) (h : reminderStep p.shared t = some (s', t')) :
    Sound s' ∧ Knows s' i t' ∧ ∀ j q, p.tasks[j]? = some q → Knows s' j q := by
  have hA := hp.tasks i t ht
  simp only [inTime, ht] at hc
  cases t with
  | reading now within =>
    cases h
    refine ⟨{ hp.shared with }, fun f hf => ⟨date_of_expiring hf, fun hnote => ?_⟩,
      fun j q hq f hf => { hp.tasks j q hq f hf with }⟩
    have hor := all_eq_true.mp hc f hf
    simpa [hnote] using hor
  | claiming now within rest =>
    cases rest with
    | nil =>
      cases h
      refine ⟨⟨hp.shared.live, hp.shared.once, fun c hc => ?_, fun f hdate hnote => ?_⟩, nofun,
        fun j q hq f hf => ?_⟩
      · obtain ⟨hdate, hnote, hsent⟩ := hp.shared.new c hc
        exact ⟨hdate, fun hmem => hnote (mem_filter.mp hmem).1, hsent⟩
      · by_cases hmem : f.credential ∈ p.shared.notified
        · have ho : outside p.shared now within f.credential = true := by
            by_contra hin
            exact hnote (mem_filter.mpr ⟨hmem, by simpa using hin⟩)
          have hnew := all_eq_true.mp hc _ hmem
          rw [ho] at hnew
          exact unannounced_iff.mp hnew _ hdate
        · exact hp.shared.unsent f hdate hmem
      · have hk := hp.tasks j q hq f hf
        exact ⟨hk.date, fun hmem => hk.noted (mem_filter.mp hmem).1⟩
    | cons f rest =>
      cases h
      have hf := hA f mem_cons_self
      exact ⟨hp.shared.claim hf, fun g hg => (hA g (mem_cons_of_mem f hg)).claim hf,
        fun j q hq g hg => (hp.tasks j q hq g hg).claim hf⟩
  | done => cases h

theorem known_outline : reminderProgram.Outline (fun p m => inTime p m = true) Sound Knows where
  init s := by
    rintro rfl
    exact ⟨nofun, .nil, fun _ _ => ⟨rfl, nofun, nofun⟩, nofun⟩
  spawn p t _ _ hfresh := by
    cases t with
    | reading now within => exact nofun
    | _ => cases hfresh
  act p i a t s' t' hp hc ht h :=
    ⟨(reminderStep_keeps hp hc ht h).1, (reminderStep_keeps hp hc ht h).2.1⟩
  interfere p i a t s' t' hp hc ht h j q _ hq := (reminderStep_keeps hp hc ht h).2.2 j q hq
  env p e s' hp hc he := by
    have hI := hp.shared
    have hissue (c : Credential) (e : Option Int) (live : List Credential)
        (hnew : c ∉ p.shared.issued) (hlive : ∀ x ∈ live, x = c ∨ x ∈ p.shared.live) :
        let s' := { p.shared.set c e with issued := c :: p.shared.issued, live := live }
        Sound s' ∧ ∀ j q, p.tasks[j]? = some q → Knows s' j q := by
      obtain ⟨hdate, -, hsent⟩ := hI.new c hnew
      refine ⟨hI.set (unannounced_iff.mpr fun x _ hx => hsent _ hx rfl) mem_cons_self
        (fun x hx => mem_cons.mpr ((hlive x hx).imp_right (hI.live x)))
        (subset_cons_self c _) rfl rfl rfl, fun j q hq f hf => ?_⟩
      refine (hp.tasks j q hq f hf).set (fun heq => ?_) rfl rfl rfl
      cases (heq ▸ hdate).symm.trans (hp.tasks j q hq f hf).date
    cases e with
    | create c expiresAt =>
      simp only [reminderProgram, credentialChange, Option.ite_none_left_eq_some,
        Option.some.injEq] at he
      obtain ⟨hnew, rfl⟩ := he
      exact hissue c expiresAt _ hnew fun x hx => mem_cons.mp hx
    | rotateAccessToken old new expiresAt =>
      simp only [reminderProgram, credentialChange, Option.ite_none_left_eq_some,
        Option.some.injEq] at he
      obtain ⟨hnew, rfl⟩ := he
      exact hissue _ expiresAt _ hnew fun x hx =>
        mem_cons.mp (mem_filter.mp hx).1
    | rotateServiceAccount id expiresAt =>
      simp only [reminderProgram, credentialChange, Option.ite_none_right_eq_some,
        Option.some.injEq] at he
      obtain ⟨hlive, rfl⟩ := he
      obtain ⟨hunlisted, hnew⟩ := Bool.and_eq_true_iff.mp hc
      refine ⟨hI.set hnew (hI.live _ hlive) hI.live (List.Subset.refl _) rfl rfl rfl, fun j q hq f hf => ?_⟩
      have hall : ∀ t ∈ p.tasks, ∀ f ∈ t.listed, f.credential ≠ ⟨.sa, id⟩ := by
        simpa [unlisted] using hunlisted
      exact (hp.tasks j q hq f hf).set (hall q (mem_of_getElem? hq) f hf) rfl rfl rfl
    | delete c =>
      cases he
      exact ⟨{ hI with live := fun x hx => hI.live x (mem_filter.mp hx).1 },
        fun j q hq f hf => { hp.tasks j q hq f hf with }⟩

theorem settles_found : reminderProgram.Settles
    (fun p m => inTime p m = true ∧ Program.Holds Sound Knows p)
    (fun s f => f ∈ s.found ∧ f ∉ s.sent) (fun _ t f => f ∈ t.listed) where
  init s := by
    rintro rfl f ⟨hf, -⟩
    cases hf
  act p i a t s' t' _ hcarried hc ht h f hf := by
    have hother (hold : f ∈ p.shared.found ∧ f ∉ p.shared.sent) (hnot : f ∉ t.listed) :
        Program.CarriedByOther (fun _ t f => f ∈ t.listed) p.tasks i s' f :=
      ((hcarried.cases ht hold).resolve_left hnot).mono fun _ hq => hq
    cases t with
    | reading now within =>
      cases h
      rcases mem_append.mp hf.1 with hfound | hfound
      · exact .inr (hother ⟨hfound, hf.2⟩ nofun)
      · exact .inl hfound
    | claiming now within rest =>
      cases rest with
      | nil =>
        cases h
        exact .inr (hother hf nofun)
      | cons g rest =>
        cases h
        have hg : Known p.shared g := hc.2.tasks i _ ht g mem_cons_self
        by_cases hlisted : f ∈ rest
        · exact .inl hlisted
        · simp only [claim] at hf
          split at hf
          · refine .inr (hother hf (not_mem_cons_of_ne_of_not_mem ?_ hlisted))
            rintro rfl
            exact hf.2 (hg.noted ‹_›)
          · obtain ⟨hne, hsent⟩ := ne_and_not_mem_of_not_mem_cons hf.2
            exact .inr (hother ⟨hf.1, hsent⟩
              (not_mem_cons_of_ne_of_not_mem hne hlisted))
    | done => cases h
  env p e s' _ hcarried _ he f hf := by
    have hsame : s'.found = p.shared.found ∧ s'.sent = p.shared.sent := by
      cases e <;> simp only [reminderProgram, credentialChange] at he <;> (try split at he) <;>
        cases he <;> exact ⟨rfl, rfl⟩
    rw [hsame.1, hsame.2] at hf
    exact hcarried f hf

/-- **Every expiry is announced exactly once** in a run that meets the condition. -/
theorem announced_once (h : reminderProgram.machine.Run (fun p m => inTime p m = true) p) :
    Announced p := by
  refine ⟨(known_outline.run h).shared.once, fun f hf => or_iff_not_imp_left.mpr fun hsent => ?_⟩
  exact settles_found.run (h.strengthen fun q hq => known_outline.run hq) f ⟨hf, hsent⟩

/-! ## Two runs -/

/-- A service account that expires in five days, and a run that announces it. -/
def ciAnnounced : List (Move ReminderRun Unit CredentialChange) :=
  [.env (.create ⟨.sa, "ci"⟩ (some 432000000)), .spawn (.reading 0 604800000), .act 0 (), .act 0 (),
    .act 0 ()]

def noCredentials : Pool ReminderStore ReminderRun := ⟨⟨[], [], fun _ => none, [], [], []⟩, []⟩

theorem noCredentials_init : reminderProgram.machine.init noCredentials := ⟨rfl, rfl⟩

/-- Rotated to thirty days it is seen outside of the window, and announced again. -/
theorem announced_once_ci : ∃ p, Announced p ∧
    p.shared.sent = [⟨⟨.sa, "ci"⟩, 2592000000⟩, ⟨⟨.sa, "ci"⟩, 432000000⟩] := by
  obtain ⟨p, hp⟩ : ∃ p, reminderProgram.machine.replay (fun p m => inTime p m = true)
      noCredentials (ciAnnounced ++ [.env (.rotateServiceAccount "ci" (some 2592000000)),
        .spawn (.reading 0 604800000), .act 1 (), .act 1 (),
        .spawn (.reading 2160000000 604800000), .act 2 (), .act 2 (), .act 2 ()]) = some p := ⟨_, rfl⟩
  refine ⟨p, announced_once (Machine.run_of_replay noCredentials_init hp), ?_⟩
  cases hp
  rfl

/-- Rotated to six days it is found with the note of the earlier expiry, and not announced. -/
theorem rotated_inside_unannounced : ¬ ∀ p, reminderProgram.machine.Reachable p →
    Announced p := by
  intro hclaim
  obtain ⟨p, hp⟩ : ∃ p, reminderProgram.machine.replay (fun _ _ => True) noCredentials
      (ciAnnounced ++ [.env (.rotateServiceAccount "ci" (some 518400000)),
        .spawn (.reading 0 604800000), .act 1 (), .act 1 (), .act 1 ()]) = some p := ⟨_, rfl⟩
  have hall := (hclaim p (Machine.run_of_replay noCredentials_init hp)).all ⟨⟨.sa, "ci"⟩, 518400000⟩
  cases hp
  exact absurd (hall (by decide +kernel)) (by decide +kernel)

end Chicoree.Tokens
