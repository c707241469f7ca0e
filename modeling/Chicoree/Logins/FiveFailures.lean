import Mathlib.Algebra.Order.Ring.Nat
import Mathlib.Algebra.Order.BigOperators.Group.List
import Chicoree.Lib.Buckets
import Chicoree.Lib.Windows
import Chicoree.Logins.LoginThrottle

/-! # Five wrong passwords

The throttle keeps one tally for each account, in a window that starts with its first failure,
and a sign-in is checked against it long before its failure is counted. A sliding window over
the wrong passwords is kept to five while sign-ins beside each other leave room for all of
them, and while no tally is given up that speaks of the last fifteen minutes. -/

namespace Chicoree.Logins

open Transition List Machine Table SignIn Shared

variable {R : Runtime} {s s' : Shared} {a : Reply} {key : String}

/-! ## The promise -/

def timesOf (owner : Owner) (log : List WrongPassword) : List Int :=
  (log.filter fun e => decide (e.owner = owner)).map WrongPassword.time

/-- In any fifteen minutes at most five wrong passwords are verified for one account. -/
def FiveFailures (p : Pool Shared SignIn) : Prop :=
  ∀ (owner : Owner) (a : Int),
    Sliding.within loginWindow a (timesOf owner p.shared.wrongPasswords) ≤ accountMaxFailures

def SignInPc.entries : SignInPc → List (String × Nat)
  | .record entries _ _ => entries
  | .lock _ rest _ _ => rest
  | _ => []

def SignIn.due (key : String) (t : SignIn) : Nat :=
  t.pc.entries.countP fun e => decide (e.1 = key)

def SignIn.locking (key : String) (t : SignIn) : Nat :=
  match t.pc with
  | .lock k _ _ _ => if k = key then 1 else 0
  | _ => 0

/-- A sign-in that has been let through and has not counted a failure under its key. -/
def SignIn.underWay (R : Runtime) (key : String) (t : SignIn) : Nat :=
  match t.pc with
  | .findUser | .findAccount _ | .localSignIn _ _ | .verify _ _ | .ldapEnabled _ | .ldap =>
    if accountKey R t.username = key then 1 else 0
  | _ => t.due key

def timesUnder (key : String) (log : List WrongPassword) : List Int :=
  (log.filter fun e => decide (e.key = key)).map WrongPassword.time

def countedUnder (key : String) (log : List Failure) : List Int :=
  (log.filter fun e => decide (e.key = key)).map Failure.time

def LoginAttempt.tally (r : LoginAttempt) : Sliding.Tally := ⟨r.failures, r.updatedAt, r.lockedUntil⟩

def Shared.tally (s : Shared) (key : String) : Option Sliding.Tally :=
  (Table.find LoginAttempt.key key s.loginAttempts).map LoginAttempt.tally

def meter (R : Runtime) (key : String) (p : Pool Shared SignIn) : Sliding.Meter where
  now := p.shared.now
  underWay := (p.tasks.map (underWay R key)).sum
  due := (p.tasks.map (due key)).sum
  locking := (p.tasks.map (locking key)).sum
  failed := timesUnder key p.shared.wrongPasswords
  counted := countedUnder key p.shared.failures
  tally := p.shared.tally key

/-! ## The condition -/

/-- No other sign-in of the account is under way, or they and the failures of the tally leave
room for one more. -/
def room (R : Runtime) (p : Pool Shared SignIn) (key : String) : Bool :=
  let m := meter R key p
  decide ((m.underWay = 0 ∧ m.locking = 0) ∨
    m.underWay + Sliding.recent loginWindow m.now m.tally < accountMaxFailures)

def quiet (s : Shared) (key : String) : Bool := Sliding.quiet loginWindow s.now (s.tally key)

def goesOn (s : Shared) (key : String) : Bool :=
  match Table.find LoginAttempt.key key s.loginAttempts with
  | none => true
  | some r => decide (s.now - loginWindow ≤ r.windowStart) || quiet s key

def oneName (s : Shared) (owner : Owner) (key : String) : Bool :=
  s.wrongPasswords.all fun e =>
    decide (e.owner = owner → s.now - loginWindow < e.time → e.key = key)

def addressOnly (t : SignIn) (keys : List String) : Bool :=
  keys.all fun key => decide (ipKey t.ip = some key)

def orderly (R : Runtime) (p : Pool Shared SignIn) (t : SignIn) (a : Reply) : Bool :=
  let key := accountKey R t.username
  match t.pc with
  | .check =>
    isOpaque t.password ||
      (decide (a ≠ .failed) &&
        ((p.shared.loginLock [ipKey t.ip, some key]).isSome || room R p key))
  | .verify u hash => R.verify hash t.password || oneName p.shared (.user u.id) key
  | .ldap =>
    match a with
    | .directory (.wrong dn) => oneName p.shared (.entry dn) key
    | _ => true
  | .record ((k, max) :: rest) _ _ =>
    if a = .failed then addressOnly t (((k, max) :: rest).map Prod.fst)
    else decide (ipKey t.ip = some k) || goesOn p.shared k
  | .lock k rest _ _ => decide (a ≠ .failed) || addressOnly t (k :: rest.map Prod.fst)
  | .clear _ => decide (a = .failed) || quiet p.shared key
  | _ => true

def orderlyStep (R : Runtime) (p : Pool Shared SignIn) : Move SignIn Reply Surroundings → Bool
  | .act i a => p.tasks[i]?.all fun t => orderly R p t a
  | _ => true

/-- **The condition on a step.** A sign-in that is let through beside others of its account
leaves room for all of them; a failure goes on with the window of the tally, and a success
clears the tally, unless that has been quiet for fifteen minutes; an account is known by one
key; and the statements of the throttle for the account do not fail. -/
abbrev Orderly (R : Runtime) (p : Pool Shared SignIn)
    (m : Move SignIn Reply Surroundings) : Prop :=
  orderlyStep R p m = true

theorem ipKey_ne (ip : Option String) (name : String) : ipKey ip ≠ some (accountKey R name) := by
  intro h
  obtain ⟨address, -, heq⟩ := Option.map_eq_some_iff.mp h
  have hchars := congrArg (fun key => key.toList.head?) heq
  simp [accountKey] at hchars

variable {method : Method} {e : String × Nat} {t : SignIn}

theorem mem_entries (h : e ∈ entries R t method) :
    ipKey t.ip = some e.1 ∨
      (method ≠ .token ∧ e = (accountKey R t.username, accountMaxFailures)) := by
  have hip (h : e ∈ ((ipKey t.ip).map fun key => (key, ipMaxFailures)).toList) :
      ipKey t.ip = some e.1 := by
    rw [Option.mem_toList] at h
    obtain ⟨k, hk, rfl⟩ := Option.map_eq_some_iff.mp h
    exact hk
  cases method with
  | token => exact .inl (hip h)
  | password | ldap =>
    obtain h | h := mem_append.mp h
    · exact .inl (hip h)
    · exact .inr ⟨Method.noConfusion, mem_singleton.mp h⟩

theorem countP_entries {name : String} :
    (entries R t method).countP (fun e => decide (e.1 = accountKey R name)) =
      if method ≠ .token ∧ accountKey R t.username = accountKey R name then 1 else 0 := by
  have hip : ((ipKey t.ip).map fun key => (key, ipMaxFailures)).toList.countP
      (fun e => decide (e.1 = accountKey R name)) = 0 := by
    rw [countP_eq_zero]
    intro e he
    rw [Option.mem_toList] at he
    obtain ⟨k, hk, rfl⟩ := Option.map_eq_some_iff.mp he
    simp only [decide_eq_true_eq]
    rintro rfl
    exact ipKey_ne t.ip name hk
  cases method with
  | token => exact hip
  | password | ldap =>
    show (_ ++ [_]).countP _ = _
    rw [countP_append, hip, countP_singleton]
    by_cases hkey : accountKey R t.username = accountKey R name
    · simp [hkey]
    · simp [hkey]

theorem countFailure_row (s : Shared) (key : String) :
    ∃ row, row.key = key ∧ row.updatedAt = s.now ∧ (s.countFailure key).1.loginAttempts =
        Table.upsert LoginAttempt.key row s.loginAttempts ∧
      (s.countFailure key).2 = row.failures ∧
      ((∃ r, Table.find LoginAttempt.key key s.loginAttempts = some r ∧
          row.failures = r.failures + 1 ∧ row.lockedUntil = r.lockedUntil) ∨
        (row.failures = 1 ∧ ∀ r, Table.find LoginAttempt.key key s.loginAttempts = some r →
          r.windowStart < s.now - loginWindow)) := by
  unfold countFailure
  cases hrow : Table.find LoginAttempt.key key s.loginAttempts with
  | none =>
    refine ⟨_, ?_, ?_, rfl, rfl, .inr ⟨?_, fun r hr => ?_⟩⟩
    · rfl
    · rfl
    · rfl
    · cases hr
  | some r =>
    have hkey : r.key = key := (find_some hrow).2
    by_cases hstale : r.windowStart < s.now - loginWindow
    · simp only [hstale, if_true]
      refine ⟨_, ?_, ?_, rfl, rfl, .inr ⟨?_, fun r' hr' => ?_⟩⟩
      · exact hkey
      · rfl
      · rfl
      · obtain rfl := Option.some.inj hr'
        exact hstale
    · simp only [hstale, if_false]
      refine ⟨_, ?_, ?_, rfl, rfl, .inl ⟨r, rfl, ?_, ?_⟩⟩
      · exact hkey
      · rfl
      · rfl
      · rfl

variable {key' : String} {pc' : SignInPc}

theorem tally_countFailure_ne (h : key ≠ key') :
    (s.countFailure key').1.tally key = s.tally key := by
  obtain ⟨row, rfl, -, hrows, -⟩ := countFailure_row s key'
  unfold tally
  rw [hrows, find_upsert_ne h]

theorem tally_lockKey_ne (h : key ≠ key') : (s.lockKey key').tally key = s.tally key := by
  unfold tally lockKey
  rw [find_update_ne (fun r => by rfl) h]

theorem tally_lockKey : (s.lockKey key).tally key = (s.tally key).map fun r =>
      { r with count := 0, locked := some (s.now + loginWindow) } := by
  unfold tally lockKey
  rw [find_update_self fun r => by rfl, Option.map_map, Option.map_map]
  rfl

theorem tally_clear : (s.clearLoginFailures key).tally key = none := by
  unfold tally clearLoginFailures
  rw [Option.map_eq_none_iff]
  refine find?_eq_none.mpr fun r hr => ?_
  have hkept := (mem_filter.mp hr).2
  simpa using hkept

theorem tally_clear_ne (h : key ≠ key') : (s.clearLoginFailures key').tally key = s.tally key := by
  unfold tally clearLoginFailures
  rw [find_filter_ne h]

theorem tally_purge (h : Table.Keyed LoginAttempt.key s.loginAttempts) (key : String) :
    s.purge.tally key = s.tally key ∨ (s.purge.tally key = none ∧ quiet s key = true) := by
  unfold quiet tally purge
  rw [find_filter h]
  cases hrow : Table.find LoginAttempt.key key s.loginAttempts with
  | none => exact .inl rfl
  | some r =>
    by_cases hkept : s.now - day ≤ r.updatedAt
    · exact .inl (by simp [Option.filter, hkept])
    · refine .inr ⟨by simp [Option.filter, hkept], ?_⟩
      refine decide_eq_true ?_
      show r.updatedAt ≤ s.now - loginWindow
      unfold day at hkept
      unfold loginWindow
      omega

theorem unlocked_of_loginLock {keys : List (Option String)} (h : s.loginLock keys = none)
    (hkey : some key ∈ keys) {r : Sliding.Tally} {u : Int} (hr : s.tally key = some r)
    (hu : r.locked = some u) : u ≤ s.now := by
  obtain ⟨row, hrow, rfl⟩ := Option.map_eq_some_iff.mp hr
  obtain ⟨hmem, rfl⟩ := find_some hrow
  unfold loginLock at h
  rw [max?_eq_none_iff, filter_eq_nil_iff] at h
  have hactive := h u (mem_filterMap.mpr
    ⟨row, mem_filter.mpr ⟨hmem, decide_eq_true hkey⟩, hu⟩)
  simp only [decide_eq_true_eq] at hactive
  omega

/-! ## What a step does -/

def SignInPc.through : SignInPc → Bool
  | .findUser | .findAccount _ | .localSignIn _ _ | .verify _ _ | .ldapEnabled _ | .ldap => true
  | _ => false

inductive SignInStep (R : Runtime) (s : Shared) (t : SignIn) (a : Reply) (s' : Shared) :
    SignInPc → Prop
  | ended (outcome : Outcome) : s' = s → t.pc.entries = [] →
      (∀ k rest locked error, t.pc ≠ .lock k rest locked error) →
      SignInStep R s t a s' (.done outcome)
  | opaqueCredential : s' = s → t.pc = .check → SignInStep R s t a s' .opaqueCredential
  | passed : s' = s → t.pc = .check → isOpaque t.password = false →
      (a ≠ .failed → s.loginLock [ipKey t.ip, some (accountKey R t.username)] = none) →
      SignInStep R s t a s' .findUser
  | goesOn (pc' : SignInPc) : s' = s → t.pc.through = true → pc'.through = true →
      SignInStep R s t a s' pc'
  | refused (method : Method) (error : String) : s' = s →
      (method = .token ∧ t.pc = .opaqueCredential ∨ t.pc.through = true) →
      SignInStep R s t a s' (failedWith R t method error)
  | wrong (owner : Owner) (method : Method) (error : String) : s' = noteWrong R s t owner →
      t.pc.through = true → method ≠ .token →
      ((∃ u hash, t.pc = .verify u hash ∧ R.verify hash t.password = false ∧ owner = .user u.id) ∨
        (∃ dn, t.pc = .ldap ∧ a = .directory (.wrong dn) ∧ owner = .entry dn)) →
      SignInStep R s t a s' (failedWith R t method error)
  | counted (k : String) (max : Nat) (rest : List (String × Nat)) (locked : Option Int)
      (error : String) : s' = (s.countFailure k).1 →
      t.pc = .record ((k, max) :: rest) locked error → a ≠ .failed →
      SignInStep R s t a s'
        (if max ≤ (s.countFailure k).2 then .lock k rest locked error
        else .record rest locked error)
  | abandoned (outcome : Outcome) : s' = s → a = .failed →
      ((∃ e rest locked error, t.pc = .record (e :: rest) locked error) ∨
        (∃ k rest locked error, t.pc = .lock k rest locked error)) →
      SignInStep R s t a s' (.done outcome)
  | locked (k : String) (rest : List (String × Nat)) (locked locked' : Option Int)
      (error : String) : s' = s.lockKey k → t.pc = .lock k rest locked error → a ≠ .failed →
      SignInStep R s t a s' (.record rest locked' error)
  | cleared (outcome : Outcome) : s' = s.clearLoginFailures (accountKey R t.username) →
      t.pc = .clear outcome → a ≠ .failed → SignInStep R s t a s' (.done outcome)
  | succeeded (outcome : Outcome) : s' = s → t.pc.through = true →
      SignInStep R s t a s' (.clear outcome)
  | purged (outcome : Outcome) (locked : Option Int) (error : String) : s' = s.purge →
      t.pc = .record [] locked error → SignInStep R s t a s' (.done outcome)

theorem signInAct_step (h : signInAct R s t a = some (s', pc')) : SignInStep R s t a s' pc' := by
  obtain ⟨username, password, ip, pc⟩ := t
  cases pc with
  | check =>
    simp only [signInAct] at h
    have hpassed (hlock : a ≠ .failed →
        s.loginLock [ipKey ip, some (accountKey R username)] = none) :
        SignInStep R s ⟨username, password, ip, .check⟩ a s
          (dispatch ⟨username, password, ip, .check⟩) := by
      unfold dispatch
      split
      · exact .opaqueCredential rfl rfl
      · rename_i hcredential
        exact .passed rfl rfl (by simpa using hcredential) hlock
    split at h
    · rename_i hfailed
      cases h
      exact hpassed fun hok => absurd hfailed hok
    · split at h
      · cases h
        exact .ended _ rfl rfl nofun
      · rename_i hlock
        cases h
        exact hpassed fun _ => hlock
  | opaqueCredential =>
    simp only [signInAct] at h
    split at h <;> cases h
    · exact .ended _ rfl rfl nofun
    · exact .refused _ _ rfl (.inl ⟨rfl, rfl⟩)
    · exact .ended _ rfl rfl nofun
  | findUser | findAccount u | localSignIn u hash | ldapEnabled known =>
    -- what is read ends the sign-in, refuses it or lets it go on
    simp only [signInAct] at h
    repeat' split at h
    all_goals cases h
    all_goals first
      | exact .goesOn _ rfl rfl rfl
      | exact .refused _ _ rfl (.inr rfl)
      | exact .ended _ rfl rfl nofun
  | verify u hash =>
    simp only [signInAct] at h
    split at h
    · cases h
      exact .ended _ rfl rfl nofun
    · split at h
      · cases h
        exact .succeeded _ rfl rfl
      · rename_i hverify
        cases h
        exact .wrong _ _ _ rfl rfl Method.noConfusion
          (.inl ⟨u, hash, rfl, by simpa using hverify, rfl⟩)
  | ldap =>
    simp only [signInAct] at h
    split at h
    · cases h
      exact .refused _ _ rfl (.inr rfl)
    · rename_i dn
      cases h
      exact .wrong _ _ _ rfl rfl Method.noConfusion (.inr ⟨dn, rfl, rfl, rfl⟩)
    · cases h
      exact .refused _ _ rfl (.inr rfl)
    · cases h
      exact .ended _ rfl rfl nofun
    · cases h
      exact .succeeded _ rfl rfl
    · cases h
      exact .ended _ rfl rfl nofun
  | record es locked error =>
    cases es with
    | nil =>
      simp only [signInAct] at h
      obtain ⟨hs, rfl⟩ := Prod.mk.inj (Option.some.inj h)
      split at hs
      · exact .purged _ locked error hs.symm rfl
      · exact .ended _ hs.symm rfl nofun
    | cons e rest =>
      obtain ⟨k, max⟩ := e
      simp only [signInAct] at h
      split at h
      · rename_i hfailed
        cases h
        exact .abandoned _ rfl hfailed (.inl ⟨_, _, _, _, rfl⟩)
      · rename_i hok
        cases h
        exact .counted k max rest locked error rfl rfl hok
  | lock k rest locked error =>
    simp only [signInAct] at h
    split at h
    · rename_i hfailed
      cases h
      exact .abandoned _ rfl hfailed (.inr ⟨_, _, _, _, rfl⟩)
    · rename_i hok
      cases h
      exact .locked k rest locked _ error rfl rfl hok
  | clear outcome =>
    simp only [signInAct] at h
    obtain ⟨hs, rfl⟩ := Prod.mk.inj (Option.some.inj h)
    split at hs
    · exact .ended _ hs.symm rfl nofun
    · rename_i hok
      exact .cleared outcome hs.symm rfl hok
  | done outcome => cases h

/-! ## What a step does to the meter of an account -/

structure SameMeter (key : String) (s s' : Shared) : Prop where
  now : s'.now = s.now
  failed : timesUnder key s'.wrongPasswords = timesUnder key s.wrongPasswords
  counted : countedUnder key s'.failures = countedUnder key s.failures
  tally : s'.tally key = s.tally key

structure SameParts (R : Runtime) (key : String) (t t' : SignIn) : Prop where
  underWay : t'.underWay R key = t.underWay R key
  due : t'.due key = t.due key
  locking : t'.locking key = t.locking key

inductive KeyStep (R : Runtime) (key : String) (p : Pool Shared SignIn) (t : SignIn)
    (s' : Shared) (t' : SignIn) : Prop
  /-- The sign-in goes on, ends, or gets a failure to count. -/
  | aside : SameMeter key p.shared s' → t'.underWay R key ≤ t.underWay R key →
      t.due key ≤ t'.due key → t'.locking key = t.locking key → KeyStep R key p t s' t'
  | admitted : SameMeter key p.shared s' →
      (∀ r u, p.shared.tally key = some r → r.locked = some u → u ≤ p.shared.now) →
      room R p key = true → t'.underWay R key = t.underWay R key + 1 →
      t'.due key = t.due key → t'.locking key = t.locking key → KeyStep R key p t s' t'
  | failed (owner : Owner) : accountKey R t.username = key → s' = noteWrong R p.shared t owner →
      t'.underWay R key = t.underWay R key → t.due key < t.underWay R key →
      t'.due key = t.due key + 1 → t'.locking key = t.locking key → KeyStep R key p t s' t'
  | counted : s' = (p.shared.countFailure key).1 → goesOn p.shared key = true →
      t.underWay R key = t'.underWay R key + 1 → t.due key = t'.due key + 1 →
      (accountMaxFailures ≤ (p.shared.countFailure key).2 → 0 < t'.locking key) →
      t.locking key ≤ t'.locking key → KeyStep R key p t s' t'
  | locked : s' = p.shared.lockKey key → t'.underWay R key = t.underWay R key →
      t'.due key = t.due key → KeyStep R key p t s' t'
  | cleared : s' = p.shared.clearLoginFailures key → quiet p.shared key = true →
      SameParts R key t t' → KeyStep R key p t s' t'
  | purged : s' = p.shared.purge → SameParts R key t t' → KeyStep R key p t s' t'

/-- What is left to count are keys of the sign-in itself. -/
def Regular (R : Runtime) (t : SignIn) : Prop :=
  ∀ e ∈ t.pc.entries, e ∈ entries R t .password

theorem due_le_underWay (t : SignIn) : t.due key ≤ t.underWay R key := by
  obtain ⟨username, password, ip, pc⟩ := t
  cases pc with
  | findUser | findAccount | localSignIn | verify | ldapEnabled | ldap => exact Nat.zero_le _
  | check | opaqueCredential | record | lock | clear | done => exact Nat.le_refl _

theorem SameMeter.refl (key : String) (s : Shared) : SameMeter key s s := ⟨rfl, rfl, rfl, rfl⟩

theorem due_of_addressOnly (es : List (String × Nat)) (name : String)
    (h : addressOnly t (es.map Prod.fst) = true) :
    es.countP (fun e => decide (e.1 = accountKey R name)) = 0 := by
  rw [countP_eq_zero]
  intro e he
  have hip := of_decide_eq_true (all_eq_true.mp h e.1 (mem_map_of_mem he))
  simp only [decide_eq_true_eq]
  intro hkey
  rw [hkey] at hip
  exact ipKey_ne t.ip name hip

theorem sameMeter_countFailure_ne (h : key ≠ key') : SameMeter key s (s.countFailure key').1 where
  now := rfl
  failed := rfl
  counted := by
    show countedUnder key (s.failures ++ [⟨key', s.now⟩]) = _
    unfold countedUnder
    rw [filter_append, map_append]
    simp [Ne.symm h]
  tally := tally_countFailure_ne h

variable {owner : Owner} {p : Pool Shared SignIn}

theorem sameMeter_noteWrong_ne (h : accountKey R t.username ≠ key) :
    SameMeter key s (noteWrong R s t owner) where
  now := rfl
  failed := by
    show timesUnder key (s.wrongPasswords ++ [⟨owner, accountKey R t.username, s.now⟩]) = _
    unfold timesUnder
    rw [filter_append, map_append]
    simp [h]
  counted := rfl
  tally := rfl

section step

variable {p : Pool Shared SignIn} {t : SignIn} {pc' : SignInPc} {name : String}

theorem aside_go (hdue : t.due key = 0) (hlocking : t.locking key = 0)
    (hunder : underWay R key { t with pc := pc' } ≤ t.underWay R key)
    (hafter : locking key { t with pc := pc' } = 0) :
    KeyStep R key p t p.shared { t with pc := pc' } := by
  refine .aside (.refl key _) hunder ?_ (hafter.trans hlocking.symm)
  rw [hdue]
  exact Nat.zero_le _

theorem due_failedWith (method : Method) (error : String) :
    due (accountKey R name) { t with pc := failedWith R t method error } =
      if method ≠ .token ∧ accountKey R t.username = accountKey R name then 1 else 0 :=
  countP_entries

theorem underWay_failedWith (method : Method) (error : String) :
    underWay R (accountKey R name) { t with pc := failedWith R t method error } ≤
      if accountKey R t.username = accountKey R name then 1 else 0 := by
  show due _ { t with pc := failedWith R t method error } ≤ _
  rw [due_failedWith]
  by_cases hkey : accountKey R t.username = accountKey R name
  · rw [if_pos hkey]
    split <;> omega
  · rw [if_neg fun hboth => hkey hboth.2]
    exact Nat.zero_le _

variable {error : String}

theorem step_wrong (hmethod : method ≠ .token) (hunder : t.underWay R (accountKey R name) =
      if accountKey R t.username = accountKey R name then 1 else 0)
    (hdue : t.due (accountKey R name) = 0) (hlocking : t.locking (accountKey R name) = 0) :
    KeyStep R (accountKey R name) p t (noteWrong R p.shared t owner)
      { t with pc := failedWith R t method error } := by
  have hafter : due (accountKey R name) { t with pc := failedWith R t method error } = _ :=
    due_failedWith method error
  by_cases hkey : accountKey R t.username = accountKey R name
  · rw [if_pos ⟨hmethod, hkey⟩] at hafter
    rw [if_pos hkey] at hunder
    refine .failed owner hkey rfl ?_ (by omega) (by omega) hlocking.symm
    exact hafter.trans hunder.symm
  · refine .aside (sameMeter_noteWrong_ne hkey) ?_ (by omega) hlocking.symm
    rw [hunder]
    exact underWay_failedWith method error

theorem through_weights (key : String) (h : t.pc.through = true) :
    t.underWay R key = (if accountKey R t.username = key then 1 else 0) ∧ t.due key = 0 ∧
      t.locking key = 0 := by
  obtain ⟨username, password, ip, pc⟩ := t
  cases pc with
  | findUser | findAccount | localSignIn | verify | ldapEnabled | ldap => exact ⟨rfl, rfl, rfl⟩
  | check | opaqueCredential | record | lock | clear | done => cases h

variable {locked : Option Int}

theorem due_record (key : String) {es : List (String × Nat)}
    (hpc : t.pc = .record es locked error) :
    t.due key = es.countP (fun e => decide (e.1 = key)) ∧ t.underWay R key = t.due key ∧
      t.locking key = 0 := by
  obtain ⟨username, password, ip, pc⟩ := t
  subst hpc
  exact ⟨rfl, rfl, rfl⟩

variable {k : String} {rest : List (String × Nat)}

theorem due_lock (key : String) (hpc : t.pc = .lock k rest locked error) :
    t.due key = rest.countP (fun e => decide (e.1 = key)) ∧ t.underWay R key = t.due key ∧
      t.locking key = if k = key then 1 else 0 := by
  obtain ⟨username, password, ip, pc⟩ := t
  subst hpc
  exact ⟨rfl, rfl, rfl⟩

theorem step_counted {max : Nat} (hpc : t.pc = .record ((k, max) :: rest) locked error) (ha : a ≠ .failed)
    (hreg : Regular R t) (hc : orderly R p t a = true) :
    KeyStep R (accountKey R name) p t (p.shared.countFailure k).1
      { t with pc :=
        if max ≤ (p.shared.countFailure k).2 then .lock k rest locked error
        else .record rest locked error } := by
  obtain ⟨hdue, hunder, hlocking⟩ := due_record (R := R) (accountKey R name) hpc
  rw [countP_cons] at hdue
  simp only [orderly, hpc, ha, if_false] at hc
  -- what is left is the rest of the keys, after the lock or at once
  obtain ⟨pc', hpc'⟩ : ∃ pc', pc' =
      if max ≤ (p.shared.countFailure k).2 then SignInPc.lock k rest locked error
      else .record rest locked error := ⟨_, rfl⟩
  rw [← hpc']
  obtain ⟨hrest, hsame, hlock⟩ : due (accountKey R name) { t with pc := pc' } =
          (rest.countP fun e => decide (e.1 = accountKey R name)) ∧
        underWay R (accountKey R name) { t with pc := pc' } =
          (rest.countP fun e => decide (e.1 = accountKey R name)) ∧
        locking (accountKey R name) { t with pc := pc' } =
          if max ≤ (p.shared.countFailure k).2 ∧ k = accountKey R name then 1 else 0 := by
    by_cases hfull : max ≤ (p.shared.countFailure k).2
    · rw [if_pos hfull] at hpc'
      subst hpc'
      refine ⟨rfl, rfl, ?_⟩
      show (if k = accountKey R name then 1 else 0) = _
      simp [hfull]
    · rw [if_neg hfull] at hpc'
      subst hpc'
      refine ⟨rfl, rfl, ?_⟩
      rw [if_neg fun hboth => hfull hboth.1]
      rfl
  by_cases hk : k = accountKey R name
  · -- the limit of the key is that of an account
    have hmax : max = accountMaxFailures := by
      have hmem : (k, max) ∈ t.pc.entries := by
        rw [hpc]
        exact mem_cons_self
      obtain hip | ⟨-, heq⟩ := mem_entries (hreg _ hmem)
      · rw [hk] at hip
        exact absurd hip (ipKey_ne t.ip name)
      · exact (Prod.mk.inj heq).2
    rw [if_pos (by simpa using hk)] at hdue
    have hgoes : goesOn p.shared (accountKey R name) = true := by
      rw [hk, Bool.or_eq_true] at hc
      exact hc.resolve_left fun hip => ipKey_ne t.ip name (of_decide_eq_true hip)
    refine .counted (by rw [hk]) hgoes (by omega) (by omega) ?_ ?_
    · intro hfull
      rw [hlock, if_pos ⟨by rw [hk, hmax]; exact hfull, hk⟩]
      exact Nat.one_pos
    · rw [hlocking]
      exact Nat.zero_le _
  · rw [if_neg (by simpa using hk)] at hdue
    refine .aside (sameMeter_countFailure_ne (Ne.symm hk)) (by omega) (by omega) ?_
    rw [hlocking, hlock]
    exact if_neg fun hboth => hk hboth.2

theorem step_locked {locked' : Option Int} (hpc : t.pc = .lock k rest locked error) :
    KeyStep R (accountKey R name) p t (p.shared.lockKey k)
      { t with pc := .record rest locked' error } := by
  obtain ⟨hdue, hunder, hlocking⟩ := due_lock (R := R) (accountKey R name) hpc
  by_cases hk : k = accountKey R name
  · refine .locked (by rw [hk]) ?_ hdue.symm
    exact hdue.symm.trans hunder.symm
  · refine .aside ⟨rfl, rfl, rfl, tally_lockKey_ne (Ne.symm hk)⟩ ?_ ?_ ?_
    · rw [hunder, hdue]
      exact Nat.le_refl _
    · rw [hdue]
      exact Nat.le_refl _
    · rw [hlocking, if_neg hk]
      rfl

theorem step_abandoned {outcome : Outcome}
    (hpc : (∃ e rest locked error, t.pc = .record (e :: rest) locked error) ∨
      (∃ k rest locked error, t.pc = .lock k rest locked error))
    (hc : orderly R p t .failed = true) :
    KeyStep R (accountKey R name) p t p.shared { t with pc := .done outcome } := by
  obtain ⟨e, rest, locked, error, hpc⟩ | ⟨k, rest, locked, error, hpc⟩ := hpc
  · obtain ⟨hdue, -, hlocking⟩ := due_record (R := R) (accountKey R name) hpc
    simp only [orderly, hpc, if_true] at hc
    exact aside_go (hdue.trans (due_of_addressOnly _ name hc)) hlocking (Nat.zero_le _) rfl
  · obtain ⟨hdue, -, hlocking⟩ := due_lock (R := R) (accountKey R name) hpc
    simp only [orderly, hpc, ne_eq, not_true, decide_false, Bool.false_or] at hc
    have hnone := due_of_addressOnly (R := R) ((k, 0) :: rest) name hc
    have hk : k ≠ accountKey R name := by
      rintro rfl
      simp at hnone
    rw [countP_cons_of_neg (by simpa using hk)] at hnone
    refine aside_go (hdue.trans hnone) ?_ (Nat.zero_le _) rfl
    rw [hlocking, if_neg hk]

theorem SignInStep.keyStep (h : SignInStep R p.shared t a s' pc') (hreg : Regular R t)
    (hc : orderly R p t a = true) :
    KeyStep R (accountKey R name) p t s' { t with pc := pc' } := by
  cases h with
  | ended outcome hs hentries hlock =>
    subst hs
    have hdue : t.due (accountKey R name) = 0 := by
      unfold due
      rw [hentries]
      rfl
    refine aside_go hdue ?_ (Nat.zero_le _) rfl
    unfold locking
    split
    · rename_i k rest locked error hpc
      exact absurd hpc (hlock k rest locked error)
    · rfl
  | opaqueCredential hs hpc =>
    subst hs
    obtain ⟨username, password, ip, pc⟩ := t
    subst hpc
    exact aside_go rfl rfl (Nat.zero_le _) rfl
  | passed hs hpc hcredential hlock =>
    subst hs
    obtain ⟨username, password, ip, pc⟩ := t
    subst hpc
    simp only [orderly] at hc hcredential
    rw [hcredential, Bool.false_or, Bool.and_eq_true] at hc
    have hunlocked := hlock (of_decide_eq_true hc.1)
    rw [hunlocked] at hc
    by_cases hkey : accountKey R username = accountKey R name
    · rw [← hkey]
      refine .admitted (.refl _ _) (fun r u hr hu => ?_) hc.2 ?_ rfl rfl
      · exact unlocked_of_loginLock hunlocked (by simp) hr hu
      · show (if accountKey R username = accountKey R username then 1 else 0) = 1
        rw [if_pos rfl]
    · refine aside_go rfl rfl ?_ rfl
      show (if accountKey R username = accountKey R name then 1 else 0) ≤ 0
      rw [if_neg hkey]
  | goesOn _ hs hbefore hafter =>
    subst hs
    obtain ⟨hunder, hdue, hlocking⟩ := through_weights (R := R) (accountKey R name) hbefore
    obtain ⟨hunder', -, hlocking'⟩ := through_weights (R := R) (accountKey R name)
      (t := { t with pc := pc' }) hafter
    refine aside_go hdue hlocking ?_ hlocking'
    rw [hunder', hunder]
  | refused method error hs hpc =>
    subst hs
    obtain ⟨rfl, hpc⟩ | hbefore := hpc
    · obtain ⟨username, password, ip, pc⟩ := t
      subst hpc
      refine aside_go rfl rfl ?_ rfl
      show due _ { (_ : SignIn) with pc := failedWith R _ .token error } ≤ 0
      rw [due_failedWith, if_neg fun hboth => hboth.1 rfl]
    · obtain ⟨hunder, hdue, hlocking⟩ :=
        through_weights (R := R) (accountKey R name) hbefore
      refine aside_go hdue hlocking ?_ rfl
      rw [hunder]
      exact underWay_failedWith method error
  | wrong owner method error hs hbefore hmethod _ =>
    subst hs
    obtain ⟨hunder, hdue, hlocking⟩ := through_weights (R := R) (accountKey R name) hbefore
    exact step_wrong hmethod hunder hdue hlocking
  | counted k max rest locked error hs hpc ha =>
    subst hs
    exact step_counted hpc ha hreg hc
  | abandoned outcome hs ha hpc =>
    subst hs ha
    exact step_abandoned hpc hc
  | locked k rest locked locked' error hs hpc ha =>
    subst hs
    exact step_locked hpc
  | cleared outcome hs hpc ha =>
    subst hs
    obtain ⟨username, password, ip, pc⟩ := t
    subst hpc
    simp only [orderly, ha, decide_false, Bool.false_or] at hc
    by_cases hkey : accountKey R username = accountKey R name
    · rw [hkey] at hc ⊢
      exact .cleared rfl hc ⟨rfl, rfl, rfl⟩
    · refine .aside ?_ (Nat.zero_le _) (Nat.le_refl _) rfl
      exact ⟨rfl, rfl, rfl, tally_clear_ne (Ne.symm hkey)⟩
  | succeeded outcome hs hbefore =>
    subst hs
    obtain ⟨-, hdue, hlocking⟩ := through_weights (R := R) (accountKey R name) hbefore
    exact aside_go hdue hlocking (Nat.zero_le _) rfl
  | purged outcome locked error hs hpc =>
    subst hs
    obtain ⟨username, password, ip, pc⟩ := t
    subst hpc
    exact .purged rfl ⟨rfl, rfl, rfl⟩

end step

/-! ## Runs -/

theorem tally_countFailure (s : Shared) (key : String) (hgoes : goesOn s key = true) :
    ∃ r', (s.countFailure key).1.tally key = some r' ∧ r'.last = s.now ∧
      r'.count = (s.countFailure key).2 ∧
      ((∃ r, s.tally key = some r ∧ r'.count = r.count + 1 ∧ r'.locked = r.locked) ∨
        (Sliding.quiet loginWindow s.now (s.tally key) = true ∧ r'.count = 1)) := by
  obtain ⟨row, rfl, hlast, hrows, hcount, hrow⟩ := countFailure_row s key
  refine ⟨row.tally, ?_, hlast, hcount.symm, ?_⟩
  · unfold tally
    rw [hrows, find_upsert_self]
    rfl
  · obtain ⟨r, hfound, hnext, hlocked⟩ | ⟨hone, hstale⟩ := hrow
    · refine .inl ⟨r.tally, ?_, hnext, hlocked⟩
      unfold tally
      rw [hfound]
      rfl
    · refine .inr ⟨?_, hone⟩
      unfold goesOn at hgoes
      cases hfound : Table.find LoginAttempt.key row.key s.loginAttempts with
      | none =>
        unfold tally
        rw [hfound]
        rfl
      | some r =>
        rw [hfound, Bool.or_eq_true] at hgoes
        refine hgoes.resolve_left fun hfresh => ?_
        have hlt := hstale r hfound
        have hle := of_decide_eq_true hfresh
        omega

theorem timesUnder_noteWrong (h : accountKey R t.username = key) :
    timesUnder key (noteWrong R s t owner).wrongPasswords =
      timesUnder key s.wrongPasswords ++ [s.now] := by
  show timesUnder key (s.wrongPasswords ++ [⟨owner, accountKey R t.username, s.now⟩]) = _
  unfold timesUnder
  rw [filter_append, map_append]
  simp [h]

theorem countedUnder_countFailure :
    countedUnder key (s.countFailure key).1.failures = countedUnder key s.failures ++ [s.now] := by
  show countedUnder key (s.failures ++ [⟨key, s.now⟩]) = _
  unfold countedUnder
  rw [filter_append, map_append]
  simp

theorem meter_due_le : (meter R key p).due ≤ (meter R key p).underWay :=
  sum_le_sum fun t _ => due_le_underWay t

variable {i : Nat}

theorem keyStep_sound {t t' : SignIn} (hp : (meter R key p).Sound loginWindow accountMaxFailures)
    (hkeyed : Table.Keyed LoginAttempt.key p.shared.loginAttempts) (ht : p.tasks[i]? = some t)
    (h : KeyStep R key p t s' t') :
    (meter R key ⟨s', p.tasks.set i t'⟩).Sound loginWindow accountMaxFailures := by
  obtain ⟨under, hunder, hunder'⟩ := Buckets.sum_others (f := underWay R key) ht
  obtain ⟨due, hdue, hdue'⟩ := Buckets.sum_others (f := due key) ht
  obtain ⟨locking, hlocking, hlocking'⟩ := Buckets.sum_others (f := locking key) ht
  have hle : (meter R key ⟨s', p.tasks.set i t'⟩).due ≤
      (meter R key ⟨s', p.tasks.set i t'⟩).underWay := meter_due_le
  have hmeter : meter R key ⟨s', p.tasks.set i t'⟩ =
      ⟨s'.now, under + t'.underWay R key, due + t'.due key, locking + t'.locking key,
        timesUnder key s'.wrongPasswords, countedUnder key s'.failures, s'.tally key⟩ := by
    unfold meter
    rw [hunder', hdue', hlocking']
  rw [hmeter] at hle ⊢
  replace hunder : (meter R key p).underWay = under + t.underWay R key := hunder
  replace hdue : (meter R key p).due = due + t.due key := hdue
  replace hlocking : (meter R key p).locking = locking + t.locking key := hlocking
  have hlimit : 0 < accountMaxFailures := by decide
  cases h with
  | aside hsame hunderStep hdueStep hlockingStep =>
    rw [hsame.now, hsame.failed, hsame.counted, hsame.tally, hlockingStep, ← hlocking]
    exact hp.settle (by omega) (by omega) hle
  | admitted hsame hunlocked hroom hunderStep hdueStep hlockingStep =>
    rw [hsame.now, hsame.failed, hsame.counted, hsame.tally, hlockingStep, hdueStep, hunderStep,
      ← hlocking, ← hdue, ← Nat.add_assoc, ← hunder]
    exact hp.letThrough hlimit hunlocked (of_decide_eq_true hroom)
  | failed owner hkey hs hunderStep hroom hdueStep hlockingStep =>
    subst hs
    rw [timesUnder_noteWrong hkey, hlockingStep, hdueStep, hunderStep, ← hlocking,
      ← Nat.add_assoc, ← hdue, ← hunder]
    have hsum : (meter R key p).due < (meter R key p).underWay := by
      -- the sums without this sign-in
      have hothers : due ≤ under := by
        have hended : (meter R key ⟨p.shared, p.tasks.set i { t with pc := .done .error }⟩).due ≤
            (meter R key ⟨p.shared, p.tasks.set i { t with pc := .done .error }⟩).underWay :=
          meter_due_le
        unfold meter at hended
        rw [hunder', hdue'] at hended
        exact hended
      omega
    exact hp.fail hsum
  | counted hs hgoes hunderStep hdueStep hfull hlockingStep =>
    subst hs
    obtain ⟨r', htally, hlast, hcount, hrow⟩ := tally_countFailure p.shared key hgoes
    rw [htally, countedUnder_countFailure]
    refine hp.count (by omega) (by omega) (by decide) hlast (fun hfive => ?_) hrow
    omega
  | locked hs hunderStep hdueStep =>
    subst hs
    rw [tally_lockKey, hunderStep, hdueStep, ← hunder, ← hdue]
    exact hp.lock hlimit
  | cleared hs hquiet hparts =>
    subst hs
    rw [tally_clear, hparts.underWay, hparts.due, hparts.locking, ← hunder, ← hdue, ← hlocking]
    exact hp.drop hquiet
  | purged hs hparts =>
    subst hs
    rw [hparts.underWay, hparts.due, hparts.locking, ← hunder, ← hdue, ← hlocking]
    obtain hsame | ⟨hnone, hquiet⟩ := tally_purge hkeyed key
    · rw [hsame]
      exact hp
    · rw [hnone]
      exact hp.drop hquiet

/-- What a sign-in has to count, and the rows of the table, are as the code makes them. -/
structure WellFormed (R : Runtime) (p : Pool Shared SignIn) : Prop where
  keyed : Table.Keyed LoginAttempt.key p.shared.loginAttempts
  regular : ∀ t ∈ p.tasks, Regular R t

theorem entries_sub (method : Method) (h : e ∈ entries R t method) : e ∈ entries R t .password := by
  cases method with
  | token => exact mem_append_left _ h
  | password | ldap => exact h

theorem SignInStep.regular (h : SignInStep R s t a s' pc') (hreg : Regular R t) :
    Regular R { t with pc := pc' } := by
  intro e he
  cases h with
  | ended | opaqueCredential | passed | abandoned | cleared | succeeded | purged => cases he
  | goesOn _ _ _ hafter =>
    cases pc' with
    | record | lock => cases hafter
    | check | opaqueCredential | findUser | findAccount | localSignIn | verify | ldapEnabled
    | ldap | clear | done => cases he
  | refused method error | wrong owner method error => exact entries_sub method he
  | counted k max rest locked error _ hpc _ =>
    refine hreg e ?_
    rw [hpc]
    refine mem_cons_of_mem _ ?_
    split at he <;> exact he
  | locked k rest locked locked' error _ hpc _ =>
    refine hreg e ?_
    rw [hpc]
    exact he

theorem SignInStep.keyed (h : SignInStep R s t a s' pc')
    (hkeyed : Table.Keyed LoginAttempt.key s.loginAttempts) :
    Table.Keyed LoginAttempt.key s'.loginAttempts := by
  cases h with
  | ended _ hs | opaqueCredential hs | passed hs | goesOn _ hs | refused _ _ hs | abandoned _ hs
  | succeeded _ hs | wrong _ _ _ hs =>
    rw [hs]
    exact hkeyed
  | counted k _ _ _ _ hs =>
    obtain ⟨row, -, -, hrows, -⟩ := countFailure_row s k
    rw [hs, hrows]
    exact hkeyed.upsert row
  | locked k _ _ _ _ hs =>
    rw [hs]
    unfold Table.Keyed lockKey
    rw [keys_update fun r => by rfl]
    exact hkeyed
  | cleared _ hs | purged _ _ _ hs =>
    rw [hs]
    exact hkeyed.filter _

/-! ### Any fifteen minutes -/

theorem within_le_since {log : List WrongPassword} {w c a : Int}
    (hname : ∀ e ∈ log, e.owner = owner → c < e.time → e.key = key) (ha : c < a) :
    Sliding.within w a (timesOf owner log) ≤ Sliding.since c (timesUnder key log) := by
  unfold Sliding.within Sliding.since timesOf timesUnder
  rw [countP_map, countP_map, countP_filter, countP_filter]
  refine countP_mono_left fun e he hin => ?_
  simp only [Function.comp_apply, Bool.and_eq_true, decide_eq_true_eq] at hin ⊢
  obtain ⟨⟨hle, -⟩, howner⟩ := hin
  exact ⟨by omega, hname e he howner (by omega)⟩

theorem timesOf_append (owner : Owner) (log : List WrongPassword) (e : WrongPassword) :
    timesOf owner (log ++ [e]) = timesOf owner log ++ if e.owner = owner then [e.time] else [] := by
  unfold timesOf
  rw [filter_append, map_append]
  by_cases howner : e.owner = owner
  · simp [howner]
  · simp [howner]

theorem five_noteWrong (hfive : FiveFailures p)
    (hname : oneName p.shared owner (accountKey R t.username) = true)
    (hbound : Sliding.since (p.shared.now - loginWindow)
      (timesUnder (accountKey R t.username) (noteWrong R p.shared t owner).wrongPasswords) ≤
        accountMaxFailures) (ts : List SignIn) :
    FiveFailures ⟨noteWrong R p.shared t owner, ts⟩ := by
  intro owner' a
  have hbefore := hfive owner' a
  show Sliding.within loginWindow a (timesOf owner'
    (p.shared.wrongPasswords ++ [⟨owner, accountKey R t.username, p.shared.now⟩])) ≤ _
  by_cases howner : owner = owner'
  · subst howner
    by_cases hin : a ≤ p.shared.now ∧ p.shared.now < a + loginWindow
    · refine Nat.le_trans (within_le_since (c := p.shared.now - loginWindow) ?_ ?_) hbound
      · intro e he heowner htime
        obtain he | he := mem_append.mp he
        · exact of_decide_eq_true (all_eq_true.mp hname e he) heowner htime
        · rw [mem_singleton.mp he]
      · omega
    · rw [timesOf_append, if_pos rfl, Sliding.within_append_one, if_neg hin]
      exact hbefore
  · rw [timesOf_append, if_neg howner, append_nil]
    exact hbefore

/-- The state of the throttle at every moment. -/
structure Throttled (R : Runtime) (p : Pool Shared SignIn) : Prop where
  wellFormed : WellFormed R p
  sound : ∀ name, (meter R (accountKey R name) p).Sound loginWindow accountMaxFailures
  five : FiveFailures p

theorem throttled_init (h : (loginMachine R).init p) : Throttled R p := by
  obtain ⟨s, ts⟩ := p
  obtain ⟨⟨hrows, hwrong, hfailures⟩, hts⟩ := h
  subst hts
  refine ⟨⟨?_, fun t ht => ?_⟩, fun name => ?_, fun owner a => ?_⟩
  · rw [hrows]
    exact nodup_nil
  · cases ht
  · have hmeter : meter R (accountKey R name) ⟨s, []⟩ = ⟨s.now, 0, 0, 0, [], [], none⟩ := by
      unfold meter timesUnder countedUnder tally
      rw [hrows, hwrong, hfailures]
      rfl
    rw [hmeter]
    exact .start
  · rw [hwrong]
    exact Nat.zero_le _

theorem throttled_spawn (hp : Throttled R p) (hfresh : t.pc = .check) :
    Throttled R ⟨p.shared, p.tasks ++ [t]⟩ := by
  refine ⟨⟨hp.wellFormed.keyed, fun u hu => ?_⟩, fun name => ?_, hp.five⟩
  · obtain hu | hu := mem_append.mp hu
    · exact hp.wellFormed.regular u hu
    · rw [mem_singleton.mp hu]
      intro e he
      rw [hfresh] at he
      cases he
  · have hmeter : meter R (accountKey R name) ⟨p.shared, p.tasks ++ [t]⟩ =
        meter R (accountKey R name) p := by
      obtain ⟨username, password, ip, pc⟩ := t
      subst hfresh
      unfold meter
      simp only [map_append, sum_append, map_singleton, sum_singleton]
      rfl
    rw [hmeter]
    exact hp.sound name

theorem throttled_act (hp : Throttled R p) (ht : p.tasks[i]? = some t) (hc : orderly R p t a = true)
    (h : SignInStep R p.shared t a s' pc') :
    Throttled R ⟨s', p.tasks.set i { t with pc := pc' }⟩ := by
  have hreg := hp.wellFormed.regular t (mem_of_getElem? ht)
  have hsound (name : String) :
      (meter R (accountKey R name) ⟨s', p.tasks.set i { t with pc := pc' }⟩).Sound
        loginWindow accountMaxFailures :=
    keyStep_sound (hp.sound name) hp.wellFormed.keyed ht (h.keyStep hreg hc)
  refine ⟨⟨h.keyed hp.wellFormed.keyed, fun u hu => ?_⟩, hsound, ?_⟩
  · obtain hu | rfl := mem_or_eq_of_mem_set hu
    · exact hp.wellFormed.regular u hu
    · exact h.regular hreg
  · have hsame (hwrong : s'.wrongPasswords = p.shared.wrongPasswords) :
        FiveFailures ⟨s', p.tasks.set i { t with pc := pc' }⟩ := by
      intro owner a
      rw [hwrong]
      exact hp.five owner a
    cases h with
    | wrong owner method error hs hbefore hmethod hpc =>
      subst hs
      refine five_noteWrong hp.five ?_ (hsound t.username).failed_bound _
      obtain ⟨u, hash, hpc, hverify, rfl⟩ | ⟨dn, hpc, rfl, rfl⟩ := hpc
      · simp only [orderly, hpc, hverify, Bool.false_or] at hc
        exact hc
      · simp only [orderly, hpc] at hc
        exact hc
    | ended _ hs | opaqueCredential hs | passed hs | goesOn _ hs | refused _ _ hs
    | abandoned _ hs | succeeded _ hs => exact hsame (by rw [hs])
    | cleared _ hs | purged _ _ _ hs | counted _ _ _ _ _ hs | locked _ _ _ _ _ hs =>
      refine hsame ?_
      rw [hs]
      rfl

theorem throttled_env {e : Surroundings} (hp : Throttled R p)
    (h : surroundings p.shared e = some s') : Throttled R ⟨s', p.tasks⟩ := by
  cases e with
  | wait d =>
    cases h
    refine ⟨⟨hp.wellFormed.keyed, hp.wellFormed.regular⟩, fun name => ?_, hp.five⟩
    have hlater : p.shared.now ≤ p.shared.now + d := by omega
    exact (hp.sound name).wait hlater
  | users users accounts | settings localSignIn ldapEnabled =>
    cases h
    exact ⟨⟨hp.wellFormed.keyed, hp.wellFormed.regular⟩, hp.sound, hp.five⟩

theorem throttled_run (h : (loginMachine R).Run (Orderly R) p) : Throttled R p := by
  refine h.invariant (I := Throttled R) (fun s hs => throttled_init hs) fun p m p' _ hp hc hs => ?_
  have hstep : (loginProgram R).step p m = some p' := hs
  obtain ⟨t, rfl, hfresh, rfl⟩ | ⟨i, a, t, s', t', rfl, ht, hact, rfl⟩ | ⟨e, s', rfl, he, rfl⟩ :=
    Program.step_cases hstep
  · exact throttled_spawn hp (of_decide_eq_true hfresh)
  · obtain ⟨⟨s₁, pc'⟩, hsign, heq⟩ := Option.map_eq_some_iff.mp hact
    obtain ⟨rfl, rfl⟩ := Prod.mk.inj heq
    unfold Orderly orderlyStep at hc
    simp only [ht, Option.all_some] at hc
    exact throttled_act hp ht hc (signInAct_step hsign)
  · exact throttled_env hp he

theorem five_failures {R : Runtime} (h : (loginMachine R).Run (Orderly R) p) : FiveFailures p :=
  (throttled_run h).five

section Guesses

def plain : Runtime where
  trim text := text
  toLowerCase text := text
  verify hash password := decide (hash = password)

def alice : Shared where
  users := [{ id := "1", email := "alice@example.org" }]
  accounts := [{ userId := "1", providerId := "credential", password := some "secret" }]

def guess : SignIn := { username := "alice@example.org", password := "guess" }

/-- The steps of a sign-in up to the head of the loop over its keys, with a wrong password. -/
def verified (i : Nat) : List (Move SignIn Reply Surroundings) := List.replicate 5 (.act i .ok)

def wrongOne (i : Nat) : List (Move SignIn Reply Surroundings) :=
  .spawn guess :: verified i ++ [.act i .ok, .act i .ok]

theorem five_failures_then_locked : ∃ p, (loginMachine plain).Run (Orderly plain) p ∧
    (timesOf (.user "1") p.shared.wrongPasswords).length = 5 ∧
    (p.tasks[5]?.map pc) = some (.done (.locked 0 900000)) ∧ FiveFailures p := by
  obtain ⟨p, hp⟩ : ∃ p, (loginMachine plain).replay (Orderly plain) ⟨alice, []⟩
      (wrongOne 0 ++ wrongOne 1 ++ wrongOne 2 ++ wrongOne 3 ++ wrongOne 4 ++
        [.act 4 .ok, .spawn guess, .act 5 .ok]) = some p := ⟨_, rfl⟩
  have hrun : (loginMachine plain).Run (Orderly plain) p := run_of_replay ⟨⟨rfl, rfl, rfl⟩, rfl⟩ hp
  refine ⟨p, hrun, ?_, ?_, five_failures hrun⟩
  · cases hp
    decide +kernel
  · cases hp
    decide +kernel

/-- One wrong password opens the window; three in its last second and four after its end are
seven in two seconds. And six sign-ins that are checked before the first of them has failed
are six at once. -/
theorem more_than_five : (∃ p, (loginMachine plain).Reachable p ∧ ¬ FiveFailures p ∧
      Sliding.within 2000 899000 (timesOf (.user "1") p.shared.wrongPasswords) = 7) ∧
    ∃ p, (loginMachine plain).Reachable p ∧ ¬ FiveFailures p ∧
      Sliding.within 1 0 (timesOf (.user "1") p.shared.wrongPasswords) = 6 := by
  constructor
  · obtain ⟨p, hp⟩ : ∃ p, (loginMachine plain).replay (fun _ _ => True) ⟨alice, []⟩
        (wrongOne 0 ++ [.env (.wait 899000)] ++ wrongOne 1 ++ wrongOne 2 ++ wrongOne 3 ++
          [.env (.wait 1500)] ++ wrongOne 4 ++ wrongOne 5 ++ wrongOne 6 ++ wrongOne 7) =
        some p := ⟨_, rfl⟩
    have hseven : Sliding.within 2000 899000 (timesOf (.user "1") p.shared.wrongPasswords) = 7 := by
      cases hp
      decide +kernel
    have hmany : Sliding.within loginWindow 899000
        (timesOf (.user "1") p.shared.wrongPasswords) = 7 := by
      cases hp
      decide +kernel
    refine ⟨p, run_of_replay ⟨⟨rfl, rfl, rfl⟩, rfl⟩ hp, fun hfive => ?_, hseven⟩
    have hle : 7 ≤ accountMaxFailures := hmany ▸ hfive (.user "1") 899000
    exact absurd hle (by decide)
  · obtain ⟨p, hp⟩ : ∃ p, (loginMachine plain).replay (fun _ _ => True) ⟨alice, []⟩
        (List.replicate 6 (.spawn guess) ++ [0, 1, 2, 3, 4, 5].map (fun i => .act i .ok) ++
          ([0, 1, 2, 3, 4, 5].flatMap fun i => List.replicate 4 (.act i .ok))) =
        some p := ⟨_, rfl⟩
    have hsix : Sliding.within 1 0 (timesOf (.user "1") p.shared.wrongPasswords) = 6 := by
      cases hp
      decide +kernel
    have hmany : Sliding.within loginWindow 0
        (timesOf (.user "1") p.shared.wrongPasswords) = 6 := by
      cases hp
      decide +kernel
    refine ⟨p, run_of_replay ⟨⟨rfl, rfl, rfl⟩, rfl⟩ hp, fun hfive => ?_, hsix⟩
    have hle : 6 ≤ accountMaxFailures := hmany ▸ hfive (.user "1") 0
    exact absurd hle (by decide)

end Guesses

end Chicoree.Logins
