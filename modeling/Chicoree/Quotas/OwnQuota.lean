import Chicoree.Quotas.SharedDownloads

/-! # Whose quota answers a request

A download asks for the quota of the organization that leads it, and all that wait for it take
its error. A request is answered with the limits of its own organization as long as a refused
download is shared by requests of that one organization only; and a repository is linked after
its own check in any case. -/

namespace Chicoree.Quotas

open Transition List Option
open Registryd (OrgId Digest)

variable {s s' : Hub} {a : CallReply} {i : Nat} {r r' : BlobRequest}

/-! ## The promise -/

/-- A refusal by the organization's own limits: it did not hold the blob, and the blob would
have exceeded them as the error says. -/
def Refusal.IsOwn (x : Refusal) (org : OrgId) (d : Digest) (e : Store.QuotaError) : Prop :=
  x.digest = d ∧ x.db.orgHasBlob org d = false ∧
    Store.checkContentQuota x.accounts x.db org x.size = some e

/-- Refused by the organization's own limits since a moment of the run. -/
def RefusedSince (s : Hub) (since : Nat) (org : OrgId) (d : Digest) (e : Store.QuotaError) : Prop :=
  ∃ x, Event.refused x ∈ s.events.drop since ∧ x.IsOwn org d e

/-- What a request is denied for was found in its own organization's limits, while it or the
download it waited for was under way; and repositories are linked after a check of their own. -/
structure NoLeak (p : Pool Hub BlobRequest) : Prop where
  denied : ∀ (i : Nat) r e, p.tasks[i]? = some r → r.pc = .done (.denied e) →
    RefusedSince p.shared r.since r.repo.orgId r.digest e
  linked : ∀ i org d, Event.linked i org d ∈ p.shared.events →
    Event.passed i org d ∈ p.shared.events

/-! ## The condition -/

/-- A quota check of an organization refuses only while it does not hold the blob. -/
def stillNew (s : Hub) (org : OrgId) (d : Digest) (size : Nat) : Bool :=
  (s.check org size).isNone || !s.db.orgHasBlob org d

def ownWaiters (p : Pool Hub BlobRequest) (call : Nat) (org : OrgId) : Bool :=
  p.tasks.all fun r => decide (r.pc = .wait call → r.repo.orgId = org)

def refusesOwn (p : Pool Hub BlobRequest) (call : Nat) (size : Nat) : Bool :=
  match p.shared.calls[call]? with
  | none => true
  | some c =>
    (p.shared.check c.work.orgId size).isNone ||
      (stillNew p.shared c.work.orgId c.key size && ownWaiters p call c.work.orgId)

/-- The download has not been refused, unless for the request's own organization. -/
def joinsOwn (s : Hub) (r : BlobRequest) : Bool :=
  match (Flight.running r.digest s.calls).bind fun call => s.calls[call]? with
  | some ⟨_, ⟨org, _, _, .finished (.error (.quota _))⟩, _⟩ => decide (org = r.repo.orgId)
  | _ => true

def ownDownloads (p : Pool Hub BlobRequest) : Move BlobRequest CallReply Elsewhere → Bool
  | .act i _ =>
    match p.tasks[i]? with
    | none => true
    | some r =>
      match r.pc with
      | .download => joinsOwn p.shared r
      | .quota size => stillNew p.shared r.repo.orgId r.digest size
      | _ => true
  | .env (.download call _) =>
    match p.shared.calls[call]?.map fun (c : SharedCall) => c.work.pc with
    | some (.quota size) => refusesOwn p call size
    | some (.lateQuota n) => refusesOwn p call n
    | _ => true
  | _ => true

/-- **The condition on a step.** Where the quota of its leader refuses a download, only requests
of that organization wait for it, and only such join it before it is taken off the list; and a
check that refuses does so while the organization has not got the blob since it looked. -/
abbrev OwnDownloads (p : Pool Hub BlobRequest) (m : Move BlobRequest CallReply Elsewhere) : Prop :=
  ownDownloads p m = true

/-! ## Invariants -/

/-- A refused download was refused by the limits of its leader. -/
structure CallKept (s : Hub) (c : SharedCall) : Prop where
  since : c.work.since ≤ s.events.length
  refused : ∀ e, c.work.pc = .finished (.error (.quota e)) →
    RefusedSince s c.work.since c.work.orgId c.key e

structure HubKept (s : Hub) : Prop where
  calls : ∀ (call : Nat) c, s.calls[call]? = some c → CallKept s c
  linked : ∀ i org d, Event.linked i org d ∈ s.events → Event.passed i org d ∈ s.events

structure TaskKept (s : Hub) (i : Nat) (r : BlobRequest) : Prop where
  since : r.pc ≠ .referenced → r.since ≤ s.events.length
  waits : ∀ call, r.pc = .wait call → ∃ c, s.calls[call]? = some c ∧ c.key = r.digest ∧
    r.since ≤ c.work.since ∧
    ∀ e, c.work.pc = .finished (.error (.quota e)) → c.work.orgId = r.repo.orgId
  passed : ∀ size, r.pc = .upsertBlob size → Event.passed i r.repo.orgId r.digest ∈ s.events
  denied : ∀ e, r.pc = .done (.denied e) → RefusedSince s r.since r.repo.orgId r.digest e

variable {since : Nat} {org : OrgId} {d : Digest} {e : Store.QuotaError} {more : List Event}

theorem RefusedSince.mono {since' : Nat} (h : RefusedSince s since org d e)
    (hevents : s'.events = s.events ++ more) (hsince : since' ≤ since) :
    RefusedSince s' since' org d e := by
  obtain ⟨x, hx, hown⟩ := h
  refine ⟨x, ?_, hown⟩
  rw [hevents, drop_append]
  refine mem_append_left _ ?_
  have hdrop : s.events.drop since = (s.events.drop since').drop (since - since') := by
    rw [drop_drop]
    congr 1
    omega
  rw [hdrop] at hx
  exact mem_of_mem_drop hx

/-- The events go on, and the calls of the others stay what they are, or are refused for
their own organization. -/
theorem TaskKept.mono (h : TaskKept s i r) (hevents : s'.events = s.events ++ more)
    (hcalls : ∀ call c, r.pc = .wait call → s.calls[call]? = some c →
      ∃ c', s'.calls[call]? = some c' ∧ c'.key = c.key ∧ c'.work.orgId = c.work.orgId ∧
        c'.work.since = c.work.since ∧
        ∀ e, c'.work.pc = .finished (.error (.quota e)) →
          c.work.pc = .finished (.error (.quota e)) ∨ c.work.orgId = r.repo.orgId) :
    TaskKept s' i r where
  since hpc := by
    have hle := h.since hpc
    rw [hevents, length_append]
    omega
  waits call hpc := by
    obtain ⟨c, hc, hkey, hsince, hown⟩ := h.waits call hpc
    obtain ⟨c', hc', hkey', horg', hsince', hquota⟩ := hcalls call c hpc hc
    refine ⟨c', hc', hkey'.trans hkey, ?_, fun e he => ?_⟩
    · rw [hsince']
      exact hsince
    · rw [horg']
      obtain hbefore | horg := hquota e he
      · exact hown e hbefore
      · exact horg
  passed size hpc := by
    rw [hevents]
    exact mem_append_left _ (h.passed size hpc)
  denied e hpc := (h.denied e hpc).mono hevents (Nat.le_refl _)

variable {c : SharedCall}

theorem CallKept.mono (h : CallKept s c)
    (hevents : s'.events = s.events ++ more) : CallKept s' c where
  since := by
    have hle := h.since
    rw [hevents, length_append]
    omega
  refused e he := (h.refused e he).mono hevents (Nat.le_refl _)

theorem refusedSince_refuse {size : Nat} (hcheck : s.check org size = some e)
    (hnew : stillNew s org d size = true) (hsince : since ≤ s.events.length) :
    RefusedSince (s.refuse org d size) since org d e := by
  refine ⟨⟨org, d, size, s.db, s.accounts⟩, ?_, rfl, ?_, hcheck⟩
  · show _ ∈ (s.events ++ [_]).drop since
    rw [drop_append_of_le_length hsince]
    exact mem_append_right _ (mem_singleton_self _)
  · unfold stillNew at hnew
    simpa [hcheck] using hnew

/-! ## What a step does -/

variable {pc : SharedPc}

theorem sharedStep_cases {x : SharedDownload} (h : sharedStep s d x a = some (s', pc)) :
    (∃ size e, (x.pc = .quota size ∨ x.pc = .lateQuota size) ∧ s.check x.orgId size = some e ∧
      s' = s.refuse x.orgId d size ∧ pc = .finished (.error (.quota e))) ∨
    (s'.events = s.events ∧ s'.calls = s.calls ∧ ∀ e, pc ≠ .finished (.error (.quota e))) := by
  have haside {pc₀ : SharedPc} (h : some (s, pc₀) = some (s', pc))
      (hpc : ∀ e, pc₀ ≠ .finished (.error (.quota e))) :
      s'.events = s.events ∧ s'.calls = s.calls ∧ ∀ e, pc ≠ .finished (.error (.quota e)) := by
    cases h
    exact ⟨rfl, rfl, hpc⟩
  obtain ⟨org, path, since, xpc⟩ := x
  cases xpc with
  | finished result => cases h
  | acquire | put n | openBlob | hasBlob size | lateHasBlob size | stage length =>
    simp only [sharedStep] at h
    repeat' split at h
    any_goals exact .inr (haside h fun e => by simp)
    all_goals cases h
  | quota size | lateQuota size =>
    simp only [sharedStep] at h
    split at h
    · exact .inr (haside h fun e => by simp)
    · split at h
      · rename_i e hcheck
        cases h
        refine .inl ⟨size, e, ?_, hcheck, rfl, rfl⟩
        first
          | exact .inl rfl
          | exact .inr rfl
      · exact .inr (haside h fun e => by simp)
  | register n =>
    simp only [sharedStep] at h
    split at h
    · exact .inr (haside h fun e => by simp)
    · cases h
      exact .inr ⟨rfl, rfl, fun e => by simp⟩

/-- A request that neither waits, nor is about to link, nor has been denied. -/
def SharePc.idle : SharePc → Bool
  | .wait _ | .upsertBlob _ | .done (.denied _) => false
  | _ => true

def BlobRequest.work (s : Hub) (r : BlobRequest) : SharedDownload :=
  { orgId := r.repo.orgId, path := r.px.upstreamPath r.name, since := s.events.length }

inductive RequestStep (s : Hub) (i : Nat) (r : BlobRequest) : Hub → BlobRequest → Prop
  | started (pc : SharePc) : pc.idle = true →
      RequestStep s i r s { r with since := s.events.length, pc := pc }
  | aside (pc : SharePc) : r.pc ≠ .referenced → pc.idle = true → RequestStep s i r s (r.to pc)
  | joined : r.pc = .download →
      RequestStep s i r { s with calls := (Flight.join r.digest (r.work s) s.calls).1 }
        { r with
          since := min r.since
            ((((Flight.join r.digest (r.work s) s.calls).1)[
              (Flight.join r.digest (r.work s) s.calls).2]?.map fun (c : SharedCall) =>
                c.work.since).getD r.since)
          pc := .wait (Flight.join r.digest (r.work s) s.calls).2 }
  | took (call : Nat) (c : SharedCall) (e : Store.QuotaError) : r.pc = .wait call →
      s.calls[call]? = some c → c.work.pc = .finished (.error (.quota e)) →
      RequestStep s i r s (r.to (.done (.denied e)))
  | passed (size : Nat) : r.pc ≠ .referenced →
      RequestStep s i r (s.note (.passed i r.repo.orgId r.digest)) (r.to (.upsertBlob size))
  | refused (size : Nat) (e : Store.QuotaError) : r.pc = .quota size →
      s.check r.repo.orgId size = some e →
      RequestStep s i r (s.refuse r.repo.orgId r.digest size) (r.to (.done (.denied e)))
  | linked (size : Nat) (db : Registryd.Db) : r.pc = .upsertBlob size →
      RequestStep s i r ({ s with db := db }.note (.linked i r.repo.orgId r.digest))
        (r.to (.done .goesOn))

theorem ensureShared_step (h : ensureShared s i r a = some (s', r')) : RequestStep s i r s' r' := by
  obtain ⟨repo, px, name, d, since, pc⟩ := r
  have haside {pc₀ pc₁ : SharePc} (h : some (s, BlobRequest.to ⟨repo, px, name, d, since, pc₁⟩ pc₀) =
      some (s', r')) (hpc : pc₁ ≠ .referenced) (hidle : pc₀.idle = true) :
      RequestStep s i ⟨repo, px, name, d, since, pc₁⟩ s' r' := by
    cases h
    exact .aside pc₀ hpc hidle
  cases pc with
  | referenced =>
    simp only [ensureShared] at h
    repeat' split at h
    all_goals
      cases h
      exact .started _ rfl
  | blobExists =>
    simp only [ensureShared] at h
    repeat' split at h
    all_goals exact haside h SharePc.noConfusion rfl
  | download =>
    cases h
    exact .joined rfl
  | wait call =>
    simp only [ensureShared] at h
    split at h
    · exact haside h SharePc.noConfusion rfl
    · split at h
      · rename_i hcall
        split at h
        · exact haside h SharePc.noConfusion rfl
        · cases h
          exact .took call _ _ rfl hcall rfl
        · exact haside h SharePc.noConfusion rfl
      · cases h
  | hasBlob size =>
    simp only [ensureShared] at h
    split at h
    · exact haside h SharePc.noConfusion rfl
    · split at h
      · cases h
        exact .passed size SharePc.noConfusion
      · exact haside h SharePc.noConfusion rfl
  | quota size =>
    simp only [ensureShared] at h
    split at h
    · exact haside h SharePc.noConfusion rfl
    · split at h
      · rename_i e hcheck
        cases h
        exact .refused size e rfl hcheck
      · cases h
        exact .passed size SharePc.noConfusion
  | upsertBlob size =>
    simp only [ensureShared] at h
    split at h
    · exact haside h SharePc.noConfusion rfl
    · split at h
      · rename_i db _
        cases h
        exact .linked size db rfl
      · exact haside h SharePc.noConfusion rfl
  | done answer => cases h

/-! ## Requests -/

theorem HubKept.mono (h : HubKept s) (hevents : s'.events = s.events ++ more)
    (hcalls : s'.calls = s.calls)
    (hmore : ∀ i org d, Event.linked i org d ∈ more → Event.passed i org d ∈ s.events) :
    HubKept s' where
  calls call c hc := by
    rw [hcalls] at hc
    exact (h.calls call c hc).mono hevents
  linked i org d hlinked := by
    rw [hevents] at hlinked ⊢
    obtain hlinked | hlinked := mem_append.mp hlinked
    · exact mem_append_left _ (h.linked i org d hlinked)
    · exact mem_append_left _ (hmore i org d hlinked)

theorem TaskKept.of_idle {pc : SharePc} (hsince : r.since ≤ s.events.length)
    (hidle : pc.idle = true) : TaskKept s i (r.to pc) where
  since _ := hsince
  waits call hpc := by
    have hpc : pc = .wait call := hpc
    rw [hpc] at hidle
    cases hidle
  passed size hpc := by
    have hpc : pc = .upsertBlob size := hpc
    rw [hpc] at hidle
    cases hidle
  denied e hpc := by
    have hpc : pc = .done (.denied e) := hpc
    rw [hpc] at hidle
    cases hidle

theorem TaskKept.of_denied (hsince : r.since ≤ s.events.length)
    (hrefused : RefusedSince s r.since r.repo.orgId r.digest e) :
    TaskKept s i (r.to (.done (.denied e))) where
  since _ := hsince
  waits call hpc := by cases hpc
  passed size hpc := by cases hpc
  denied e' hpc := by
    obtain rfl : e = e' := by injection hpc with h; injection h
    exact hrefused

variable {call : Nat}

theorem org_of_joinsOwn (hjoins : joinsOwn s r = true)
    (hrunning : Flight.running r.digest s.calls = some call) (hc : s.calls[call]? = some c)
    (he : c.work.pc = .finished (.error (.quota e))) :
    c.work.orgId = r.repo.orgId := by
  obtain ⟨key, ⟨org, path, since, pc⟩, listed⟩ := c
  subst he
  unfold joinsOwn at hjoins
  rw [hrunning, bind_some, hc] at hjoins
  exact of_decide_eq_true hjoins

theorem joined_kept (hs : HubKept s) (hr : TaskKept s i r) (hpc : r.pc = .download)
    (hjoins : joinsOwn s r = true) {calls : List SharedCall}
    (hjoin : Flight.join r.digest (r.work s) s.calls = (calls, call))
    (hsince : since = min r.since
      ((calls[call]?.map fun (c : SharedCall) => c.work.since).getD r.since)) :
    HubKept { s with calls := calls } ∧
      TaskKept { s with calls := calls } i { r with since := since, pc := .wait call } := by
  have hle : r.since ≤ s.events.length := by
    refine hr.since ?_
    rw [hpc]
    exact SharePc.noConfusion
  -- the request waits for one call, and has nothing else to keep
  have hwaits {c : SharedCall} (hc : calls[call]? = some c) (hkey : c.key = r.digest)
      (hown : ∀ e, c.work.pc = .finished (.error (.quota e)) → c.work.orgId = r.repo.orgId) :
      TaskKept { s with calls := calls } i { r with since := since, pc := .wait call } := by
    rw [hc] at hsince
    have hmin : since = min r.since c.work.since := hsince
    refine ⟨fun _ => ?_, fun call' hcall => ?_, fun _ h => ?_, fun _ h => ?_⟩
    · show since ≤ s.events.length
      omega
    · obtain rfl : call = call' := SharePc.wait.inj hcall
      refine ⟨c, hc, hkey, ?_, hown⟩
      show since ≤ c.work.since
      omega
    · cases h
    · cases h
  obtain ⟨call₀, c, hrunning, hc, hkey, hsame⟩ | ⟨-, hnew⟩ :=
    Flight.join_cases r.digest (r.work s) s.calls
  · obtain ⟨rfl, rfl⟩ := Prod.mk.inj (hjoin.symm.trans hsame)
    exact ⟨⟨hs.calls, hs.linked⟩, hwaits hc hkey fun e he => org_of_joinsOwn hjoins hrunning hc he⟩
  · obtain ⟨rfl, rfl⟩ := Prod.mk.inj (hjoin.symm.trans hnew)
    have hled : (s.calls ++ [⟨r.digest, r.work s, true⟩])[s.calls.length]? =
        some (⟨r.digest, r.work s, true⟩ : SharedCall) := by
      rw [getElem?_append_right (Nat.le_refl _), Nat.sub_self]
      rfl
    refine ⟨⟨fun call c hc => ?_, hs.linked⟩, hwaits hled rfl nofun⟩
    · obtain hc | ⟨-, rfl⟩ := getElem?_started hc
      · exact ⟨(hs.calls call c hc).since, (hs.calls call c hc).refused⟩
      · exact ⟨Nat.le_refl _, nofun⟩

theorem act_kept {p : Pool Hub BlobRequest} (hs : HubKept p.shared) (hr : TaskKept p.shared i r)
    (ht : p.tasks[i]? = some r) (hc : OwnDownloads p (.act i a))
    (h : RequestStep p.shared i r s' r') : HubKept s' ∧ TaskKept s' i r' := by
  simp only [OwnDownloads, ownDownloads, ht] at hc
  cases h with
  | started pc hidle =>
    refine ⟨hs, ?_⟩
    have hkept : TaskKept p.shared i
        (BlobRequest.to { r with since := p.shared.events.length } pc) :=
      .of_idle (Nat.le_refl _) hidle
    exact hkept
  | aside pc hpc hidle => exact ⟨hs, .of_idle (hr.since hpc) hidle⟩
  | joined hpc =>
    rw [hpc] at hc
    exact joined_kept hs hr hpc hc rfl rfl
  | took call c e hpc hcall he =>
    have hle : r.since ≤ p.shared.events.length := by
      refine hr.since ?_
      rw [hpc]
      exact SharePc.noConfusion
    obtain ⟨c', hc', hkey, hsince, hown⟩ := hr.waits call hpc
    obtain rfl : c = c' := Option.some.inj (hcall.symm.trans hc')
    refine ⟨hs, .of_denied hle ?_⟩
    have hrefused := (hs.calls call c hcall).refused e he
    rw [hkey, hown e he] at hrefused
    exact hrefused.mono (append_nil _).symm hsince
  | passed size hpc =>
    refine ⟨hs.mono rfl rfl fun _ _ _ hlinked => ?_, fun _ => ?_, fun _ h => ?_, fun _ _ => ?_,
      fun _ h => ?_⟩
    · cases mem_singleton.mp hlinked
    · have hle := hr.since hpc
      show r.since ≤ (p.shared.events ++ [_]).length
      rw [length_append]
      omega
    · cases h
    · exact mem_append_right _ (mem_singleton_self _)
    · cases h
  | refused size e hpc hcheck =>
    rw [hpc] at hc
    have hle : r.since ≤ p.shared.events.length := by
      refine hr.since ?_
      rw [hpc]
      exact SharePc.noConfusion
    refine ⟨hs.mono rfl rfl fun _ _ _ hlinked => ?_, .of_denied ?_ ?_⟩
    · cases mem_singleton.mp hlinked
    · show r.since ≤ (p.shared.events ++ [_]).length
      rw [length_append]
      omega
    · exact refusedSince_refuse hcheck hc hle
  | linked size db hpc =>
    refine ⟨hs.mono rfl rfl fun _ _ _ hlinked => ?_, .of_idle ?_ rfl⟩
    · cases mem_singleton.mp hlinked
      exact hr.passed size hpc
    · have hle : r.since ≤ p.shared.events.length := by
        refine hr.since ?_
        rw [hpc]
        exact SharePc.noConfusion
      show r.since ≤ (p.shared.events ++ [_]).length
      rw [length_append]
      omega

theorem RequestStep.grows (h : RequestStep s i r s' r') : (∃ more, s'.events = s.events ++ more) ∧
      ∀ (call : Nat) c, s.calls[call]? = some c → s'.calls[call]? = some c := by
  cases h with
  | started | aside | took => exact ⟨⟨[], (append_nil _).symm⟩, fun _ _ hc => hc⟩
  | joined =>
    exact ⟨⟨[], (append_nil _).symm⟩, fun _ _ hc => Flight.getElem?_join hc _ _⟩
  | passed | refused | linked => exact ⟨⟨_, rfl⟩, fun _ _ hc => hc⟩

/-! ## Downloads and the rest -/

section

variable {p : Pool Hub BlobRequest} (hp : Program.Holds HubKept TaskKept p)
include hp

theorem download_kept
  (hcall : p.shared.calls[call]? = some c) (hc : OwnDownloads p (.env (.download call a)))
  (h : sharedStep p.shared c.key c.work a = some (s', pc)) :
    let s₁ : Hub :=
      { s' with calls := p.shared.calls.set call { c with work := { c.work with pc := pc } } }
    HubKept s₁ ∧ ∀ (j : Nat) q, p.tasks[j]? = some q → TaskKept s₁ j q := by
  intro s₁
  have hkept := hp.shared.calls call c hcall
  -- what the events and the refusal have to be, for both
  have hboth {more : List Event} (hevents : s'.events = p.shared.events ++ more)
      (hmore : ∀ i org d, Event.linked i org d ∉ more)
      (hrefused : ∀ e, pc = .finished (.error (.quota e)) →
        RefusedSince s₁ c.work.since c.work.orgId c.key e ∧ ownWaiters p call c.work.orgId = true) :
      HubKept s₁ ∧ ∀ (j : Nat) q, p.tasks[j]? = some q → TaskKept s₁ j q := by
    have hevents₁ : s₁.events = p.shared.events ++ more := hevents
    refine ⟨⟨fun call' c' hc' => ?_, fun i org d hlinked => ?_⟩, fun j q hq => ?_⟩
    · obtain ⟨rfl, rfl⟩ | ⟨-, hc'⟩ := getElem?_acted hc'
      · refine ⟨?_, fun e he => (hrefused e he).1⟩
        have hle := hkept.since
        rw [hevents₁, length_append]
        show c.work.since ≤ _
        omega
      · exact (hp.shared.calls call' c' hc').mono hevents₁
    · rw [hevents₁] at hlinked ⊢
      obtain hlinked | hlinked := mem_append.mp hlinked
      · exact mem_append_left _ (hp.shared.linked i org d hlinked)
      · exact absurd hlinked (hmore i org d)
    · refine (hp.tasks j q hq).mono hevents₁ fun call' c' hwait hc' => ?_
      by_cases hthis : call' = call
      · subst hthis
        obtain rfl : c = c' := Option.some.inj (hcall.symm.trans hc')
        refine ⟨{ c with work := { c.work with pc := pc } }, ?_, rfl, rfl, rfl, fun e he => ?_⟩
        · exact getElem?_set_self (List.getElem?_eq_some_iff.mp hcall).1
        · have hown := all_eq_true.mp (hrefused e he).2 q (mem_of_getElem? hq)
          exact .inr (of_decide_eq_true hown hwait).symm
      · refine ⟨c', ?_, rfl, rfl, rfl, fun e he => .inl he⟩
        rw [getElem?_set_ne (Ne.symm hthis)]
        exact hc'
  obtain ⟨size, e, hpc, hcheck, rfl, rfl⟩ | ⟨hevents, -, hpc⟩ := sharedStep_cases h
  · have hrefuses : refusesOwn p call size = true := by
      simp only [OwnDownloads, ownDownloads, hcall, map_some] at hc
      obtain hpc | hpc := hpc
      · rw [hpc] at hc
        exact hc
      · rw [hpc] at hc
        exact hc
    unfold refusesOwn at hrefuses
    simp only [hcall, hcheck, isNone_some, Bool.false_or, Bool.and_eq_true] at hrefuses
    refine hboth rfl (fun i org d hlinked => ?_) fun e' he => ?_
    · cases mem_singleton.mp hlinked
    · obtain rfl : e = e' := by
        injection he with he
        injection he with he
        injection he
      exact ⟨refusedSince_refuse hcheck hrefuses.1 hkept.since, hrefuses.2⟩
  · refine hboth (hevents.trans (append_nil _).symm) (fun _ _ _ hlinked => ?_) fun e he => ?_
    · cases hlinked
    · exact absurd he (hpc e)

theorem unlist_kept (hcall : p.shared.calls[call]? = some c) {listed : Bool} :
    let s₁ : Hub := { p.shared with calls := p.shared.calls.set call ⟨c.key, c.work, listed⟩ }
    HubKept s₁ ∧ ∀ (j : Nat) q, p.tasks[j]? = some q → TaskKept s₁ j q := by
  intro s₁
  have hevents : s₁.events = p.shared.events ++ [] := (append_nil _).symm
  refine ⟨⟨fun call' c' hc' => ?_, hp.shared.linked⟩, fun j q hq => ?_⟩
  · obtain ⟨rfl, rfl⟩ | ⟨-, hc'⟩ := getElem?_acted hc'
    · have hkept := hp.shared.calls call' c hcall
      exact ⟨hkept.since, hkept.refused⟩
    · exact (hp.shared.calls call' c' hc').mono hevents
  · refine (hp.tasks j q hq).mono hevents fun call' c' _ hc' => ?_
    by_cases hthis : call' = call
    · subst hthis
      obtain rfl : c = c' := Option.some.inj (hcall.symm.trans hc')
      refine ⟨⟨c.key, c.work, listed⟩, ?_, rfl, rfl, rfl, fun e he => .inl he⟩
      exact getElem?_set_self (List.getElem?_eq_some_iff.mp hcall).1
    · refine ⟨c', ?_, rfl, rfl, rfl, fun e he => .inl he⟩
      rw [getElem?_set_ne (Ne.symm hthis)]
      exact hc'

theorem elsewhere_kept {e : Elsewhere} (hc : OwnDownloads p (.env e))
  (h : elsewhere p.shared e = some s') :
    HubKept s' ∧ ∀ (j : Nat) q, p.tasks[j]? = some q → TaskKept s' j q := by
  have hsame (hevents : s'.events = p.shared.events) (hcalls : s'.calls = p.shared.calls) :
      HubKept s' ∧ ∀ (j : Nat) q, p.tasks[j]? = some q → TaskKept s' j q := by
    have hnil : s'.events = p.shared.events ++ [] := hevents.trans (append_nil _).symm
    refine ⟨hp.shared.mono hnil hcalls fun _ _ _ hlinked => ?_, fun j q hq => ?_⟩
    · cases hlinked
    · refine (hp.tasks j q hq).mono hnil fun call c _ hc => ?_
      rw [← hcalls] at hc
      exact ⟨c, hc, rfl, rfl, rfl, fun e he => .inl he⟩
  cases e with
  | tables db accounts | wait d =>
    cases h
    exact hsame rfl rfl
  | download call a =>
    simp only [elsewhere] at h
    split at h
    · cases h
    · rename_i _ hcall
      obtain ⟨⟨s₁, pc⟩, hstep, rfl⟩ := map_eq_some_iff.mp h
      exact download_kept hp hcall hc hstep
  | unlist call =>
    simp only [elsewhere] at h
    split at h
    · rename_i hcall
      cases h
      exact unlist_kept hp hcall
    · cases h

end

theorem ownOutline : shareProgram.Outline OwnDownloads HubKept TaskKept where
  init s hs := by
    obtain ⟨hcalls, hevents⟩ := hs
    refine ⟨fun call c hc => ?_, fun i org d hlinked => ?_⟩
    · rw [hcalls] at hc
      cases hc
    · rw [hevents] at hlinked
      cases hlinked
  spawn p r _ _ hfresh := by
    have hpc : r.pc = .referenced := of_decide_eq_true hfresh
    refine ⟨fun h => absurd hpc h, fun _ h => ?_, fun _ h => ?_, fun _ h => ?_⟩
    · rw [hpc] at h
      cases h
    · rw [hpc] at h
      cases h
    · rw [hpc] at h
      cases h
  act p i a r s' r' hp hc ht hact :=
    act_kept hp.shared (hp.tasks i r ht) ht hc (ensureShared_step hact)
  interfere p i a r s' r' hp _ ht hact j q _ hq := by
    obtain ⟨⟨more, hevents⟩, hcalls⟩ := (ensureShared_step hact).grows
    refine (hp.tasks j q hq).mono hevents fun call c _ hc => ?_
    exact ⟨c, hcalls call c hc, rfl, rfl, rfl, fun e he => .inl he⟩
  env p e s' hp hc he := elsewhere_kept hp hc he

/-- Requests are answered with their own organization's quota, and link after its check. -/
theorem own_quota {p : Pool Hub BlobRequest} (h : shareMachine.Run OwnDownloads p) : NoLeak p := by
  have hp := ownOutline.run h
  exact ⟨fun i r e ht hpc => (hp.tasks i r ht).denied e hpc, hp.shared.linked⟩

section Two

def twoProxies : Registryd.Db where
  organizations := [⟨"a", "alpha"⟩, ⟨"b", "beta"⟩]
  repositories := [⟨"ra", "a", "app", .public⟩, ⟨"rb", "b", "app", .public⟩]
  manifestRefs := [⟨"ra", "m", "layer"⟩, ⟨"rb", "m", "layer"⟩]

def fiveBytes (org : OrgId) : Accounts where
  limits := { organizationLimits := [⟨org, none, none, some 5, none⟩] }

def layerOf (repo org : String) (slug : String) : BlobRequest where
  repo := ⟨repo, org, "app", .public⟩
  px := { orgId := org, slug := slug }
  name := "app"
  digest := "layer"

/-- Both ask, the first one leads, and the download goes on to its quota check. -/
def bothWait : List (Move BlobRequest CallReply Elsewhere) :=
  [.spawn (layerOf "ra" "a" "alpha"), .spawn (layerOf "rb" "b" "beta"), .act 0 .ok, .act 1 .ok,
    .act 0 .ok, .act 1 .ok, .act 0 .ok, .act 1 .ok, .env (.download 0 .ok),
    .env (.download 0 (.opened (some 10))), .env (.download 0 .ok)]

/-- The first organization caches the blob, and the second is refused by its own limit. -/
theorem own_quota_shared : ∃ p, shareMachine.Run OwnDownloads p ∧ p.tasks.map BlobRequest.pc =
      [.done .goesOn, .done (.denied ⟨.organization, .storage, 0, 5⟩)] ∧
    Event.linked 0 "a" "layer" ∈ p.shared.events ∧ NoLeak p := by
  obtain ⟨p, hp⟩ : ∃ p, shareMachine.replay OwnDownloads
      ⟨{ db := twoProxies, accounts := fiveBytes "b" }, []⟩
      (bothWait ++ [.env (.download 0 .ok), .env (.download 0 (.staged 10 "layer")),
        .env (.download 0 .ok), .env (.download 0 .ok), .env (.unlist 0), .act 0 .ok, .act 1 .ok,
        .act 0 .ok, .act 0 .ok, .act 0 .ok, .act 1 .ok, .act 1 .ok]) = some p := ⟨_, rfl⟩
  have hrun : shareMachine.Run OwnDownloads p := Machine.run_of_replay ⟨⟨rfl, rfl⟩, rfl⟩ hp
  refine ⟨p, hrun, ?_, ?_, own_quota hrun⟩
  · cases hp
    decide +kernel
  · cases hp
    decide +kernel

/-- The limit of the organization that came first answers the other one's request. -/
theorem leaders_quota_denies : ∃ p, shareMachine.Reachable p ∧ ¬ NoLeak p := by
  obtain ⟨p, hp⟩ : ∃ p, shareMachine.replay (fun _ _ => True)
      ⟨{ db := twoProxies, accounts := fiveBytes "a" }, []⟩
      (bothWait ++ [.env (.download 0 .ok), .env (.unlist 0), .act 1 .ok]) = some p := ⟨_, rfl⟩
  refine ⟨p, Machine.run_of_replay ⟨⟨rfl, rfl⟩, rfl⟩ hp, fun hkept => ?_⟩
  have hevents : p.shared.events = [.refused ⟨"a", "layer", 10, twoProxies, fiveBytes "a"⟩] := by
    cases hp
    decide +kernel
  have htask : p.tasks[1]? = some { layerOf "rb" "b" "beta" with
      pc := .done (.denied ⟨.organization, .storage, 0, 5⟩) } := by
    cases hp
    decide +kernel
  obtain ⟨x, hx, -, -, hcheck⟩ := hkept.denied 1 _ _ htask rfl
  have hx : Event.refused x ∈ p.shared.events := hx
  rw [hevents, mem_singleton] at hx
  obtain rfl := Event.refused.inj hx
  have hfree : Store.checkContentQuota (fiveBytes "a") twoProxies "b" 10 = none := by decide +kernel
  have hnone : (none : Option Store.QuotaError) = some _ := hfree.symm.trans hcheck
  cases hnone

end Two

end Chicoree.Quotas
