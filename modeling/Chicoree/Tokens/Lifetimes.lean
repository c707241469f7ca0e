import Chicoree.Lib.Doubles
import Chicoree.RateLimits.PeerAddress

/-! # Lifetimes of tokens

`resolveExpiry` and `replacementExpiry`: a choice of days, a date or never, and the lifetime a
rotated credential gets again, under the policy of the instance. Points in time are kept only
up to 100 million days around 1970; a number beyond makes an invalid date, and every
comparison with one is false. -/

namespace Chicoree.Tokens

open Doubles Whole
open RateLimits (trim isPlain isPlain_iff isSpaceJs_plain trimmed_of_none)

/-! ## Points in time -/

def timeLimit : Int := 8640000000000000

structure Instant where
  ms : Int
  inRange : -timeLimit ≤ ms ∧ ms ≤ timeLimit

/-- `Date`; an invalid one is none. -/
abbrev Date := Option Instant

/-- `new Date(t)`. -/
def newDate : Whole → Date
  | .whole n => if h : -timeLimit ≤ n ∧ n ≤ timeLimit then some ⟨n, h⟩ else none
  | _ => none

def getTime : Date → Whole
  | some t => .whole t.ms
  | none => .nan

def dayMs : Nat := 24 * 3600 * 1000

structure TokenExpiryPolicy where
  /-- In days; zero is unlimited. -/
  maxTokenLifetimeDays : Nat
  requireTokenExpiry : Bool
  isNumber : roundWhole maxTokenLifetimeDays = maxTokenLifetimeDays ∧
    maxTokenLifetimeDays < overflow

inductive ExpiryResolution where
  /-- Never without a date. -/
  | expiresAt (date : Option Date)
  | error (text : String)

/-- `cap`, in days -/
def TokenExpiryPolicy.cap (policy : TokenExpiryPolicy) : Whole :=
  if 0 < policy.maxTokenLifetimeDays then .whole policy.maxTokenLifetimeDays else .infinity

def TokenExpiryPolicy.judge (policy : TokenExpiryPolicy) (now : Instant) (date : Date) :
    ExpiryResolution :=
  if (getTime date).le (getTime (some now)) then .error "The expiry date must be in the future."
  else if ((policy.cap.mul dayMs).add 60000).lt ((getTime date).add (-now.ms)) then
    .error ("Tokens on this instance may live at most " ++
      String.ofList (numberText policy.maxTokenLifetimeDays) ++ " days.")
  else .expiresAt (some date)

/-- `toLowerCase`: no character beyond ASCII turns into one of the words or of a number. -/
def lowerCase (s : List Char) : List Char := s.map Char.toLower

/-- `/^\d{4}-\d{2}-\d{2}$/` -/
def isBareDate : List Char → Bool
  | [a, b, c, d, '-', e, f, '-', g, h] => [a, b, c, d, e, f, g, h].all Char.isDigit
  | _ => false

section

-- `new Date(text)`, with the time zone of the server
variable (parseDate : List Char → Date)

def customInstant (raw : List Char) : Date :=
  if isBareDate raw then parseDate (raw ++ ['T', '2', '3', ':', '5', '9', ':', '5', '9'])
  else parseDate raw

def isNever (choice : String) : Prop :=
  lowerCase (trim choice.toList) = [] ∨ lowerCase (trim choice.toList) = ['n', 'e', 'v', 'e', 'r']

instance (choice : String) : Decidable (isNever choice) := by
  unfold isNever
  infer_instance

def isCustom (choice : String) : Prop :=
  lowerCase (trim choice.toList) = ['c', 'u', 's', 't', 'o', 'm']

instance (choice : String) : Decidable (isCustom choice) := by
  unfold isCustom
  infer_instance

def daysOf (choice : String) : Option Int :=
  (Number.ofText (lowerCase (trim choice.toList))).whole?

def resolveExpiry (choice customDate : String) (policy : TokenExpiryPolicy) (now : Instant) :
    ExpiryResolution :=
  if isNever choice then
    if policy.requireTokenExpiry then .error "Tokens on this instance must have an expiry date."
    else .expiresAt none
  else if isCustom choice then
    let raw := trim customDate.toList
    if raw = [] then .error "Pick an expiry date."
    else
      match customInstant parseDate raw with
      | none => .error "The expiry date is not valid."
      | some t => policy.judge now (some t)
  else
    match daysOf choice with
    | none => .error "The expiry is not valid."
    | some days =>
      if days ≤ 0 then .error "The expiry is not valid."
      else policy.judge now (newDate ((ofInt (days * dayMs)).add now.ms))

def lifetimeDays (createdAt expiresAt : Instant) : Nat :=
  match (getTime (some expiresAt)).add (-createdAt.ms) with
  -- `Math.round` leaves no lifetime below zero above it
  | .whole (.ofNat diff) => max 1 (roundHalfUp diff dayMs)
  | _ => 1

def replacementDays (createdAt expiresAt : Instant) (policy : TokenExpiryPolicy) : Nat :=
  if 0 < policy.maxTokenLifetimeDays then
    min (lifetimeDays createdAt expiresAt) policy.maxTokenLifetimeDays
  else lifetimeDays createdAt expiresAt

/-- The days a credential without an expiry gets where one is required. -/
def defaultDays (policy : TokenExpiryPolicy) : Nat :=
  if 0 < policy.maxTokenLifetimeDays then policy.maxTokenLifetimeDays else 365

def replacementExpiry (createdAt : Instant) (expiresAt : Option Instant)
    (policy : TokenExpiryPolicy) (now : Instant) : ExpiryResolution :=
  match expiresAt with
  | none =>
    if !policy.requireTokenExpiry then .expiresAt none
    else resolveExpiry parseDate (String.ofList (numberText (defaultDays policy))) "" policy now
  | some t =>
    resolveExpiry parseDate (String.ofList (numberText (replacementDays createdAt t policy))) ""
      policy now

end

/-- A point in time after now and within the longest lifetime, with a minute of tolerance. -/
def Within (policy : TokenExpiryPolicy) (now t : Instant) : Prop :=
  now.ms < t.ms ∧ (0 < policy.maxTokenLifetimeDays →
    t.ms - now.ms ≤ policy.maxTokenLifetimeDays * dayMs + 60000)

/-- No date where none is required, or a valid one within the policy. -/
def Respects (policy : TokenExpiryPolicy) (now : Instant) : Option Date → Prop
  | none => policy.requireTokenExpiry = false
  | some none => False
  | some (some t) => Within policy now t

/-- What is returned respects the policy, if it is no error. -/
def ExpiryResolution.Safe (policy : TokenExpiryPolicy) (now : Instant) (r : ExpiryResolution) :
    Prop :=
  ∀ date, r = .expiresAt date → Respects policy now date

def ExpiryResolution.Granted (policy : TokenExpiryPolicy) (now : Instant)
    (r : ExpiryResolution) : Prop :=
  ∃ date, r = .expiresAt date ∧ Respects policy now date

/-- So many days from now is still a point in time. -/
def FitsFrom (now : Instant) (days : Int) : Prop := now.ms + days * dayMs ≤ timeLimit

/-- The one distance that is rounded down to what is allowed: a millisecond too far, in a
range where numbers are all even. -/
def RoundedDown (policy : TokenExpiryPolicy) (now t : Instant) : Prop :=
  0 < policy.maxTokenLifetimeDays ∧ 2 ^ 53 ≤ t.ms - now.ms ∧
    t.ms - now.ms = policy.maxTokenLifetimeDays * dayMs + 60001

/-- Days stay in the range of dates, and a date is not the one that is rounded. -/
def ChoiceFits (parseDate : List Char → Date) (choice customDate : String)
    (policy : TokenExpiryPolicy) (now : Instant) : Prop :=
  (¬isNever choice → ¬isCustom choice → ∀ days, daysOf choice = some days → 0 < days →
    FitsFrom now days) ∧
  (isCustom choice → trim customDate.toList ≠ [] →
    ∀ t, customInstant parseDate (trim customDate.toList) = some t → ¬RoundedDown policy now t)

def ReplacementFits (createdAt : Instant) (expiresAt : Option Instant)
    (policy : TokenExpiryPolicy) (now : Instant) : Prop :=
  match expiresAt with
  | none => policy.requireTokenExpiry = true → FitsFrom now (defaultDays policy)
  | some t => FitsFrom now (replacementDays createdAt t policy)

/-! ## The checks -/

section

variable {policy : TokenExpiryPolicy} {now t : Instant} {days : Int}

theorem dayMs_eq : (dayMs : Int) = 86400000 := rfl

theorem ofInt_mul_dayMs (hpos : 0 ≤ days) (h : days * dayMs < 2 ^ 63) :
    ofInt (days * dayMs) = .whole (days * dayMs) := by
  obtain ⟨n, rfl⟩ := Int.eq_ofNat_of_zero_le hpos
  refine ofInt_of_round ?_ h
  have hlt : n * dayMs < 2 ^ (53 + 10) := by
    have hcast : ((n * dayMs : Nat) : Int) < ((2 ^ (53 + 10) : Nat) : Int) := by
      push_cast
      exact h
    exact Int.ofNat_lt.mp hcast
  have hdvd : 2 ^ 10 ∣ n * dayMs := Nat.dvd_trans (by decide) (Nat.dvd_mul_left dayMs n)
  have hround := roundWhole_dvd hdvd hlt
  have hcast : (n : Int) * dayMs = ((n * dayMs : Nat) : Int) := by push_cast; rfl
  rw [hcast]
  show ((roundWhole (n * dayMs) : Nat) : Int) = _
  rw [hround]

def allowance (policy : TokenExpiryPolicy) : Int := policy.maxTokenLifetimeDays * dayMs + 60000

theorem bound_cases (hcap : 0 < policy.maxTokenLifetimeDays) :
    (policy.cap.mul dayMs).add 60000 = .whole (allowance policy) ∨
    2 ^ 57 ≤ allowance policy ∧ ∀ n : Int, n ≤ 2 ^ 54 →
      ((policy.cap.mul dayMs).add 60000).lt (.whole n) = false := by
  have hcapEq : policy.cap.mul dayMs = ofInt (policy.maxTokenLifetimeDays * dayMs) := by
    unfold TokenExpiryPolicy.cap
    rw [if_pos hcap]
    rfl
  have hbeyond (x : Whole) (h : x = .infinity ∨ ∃ m, x = .whole m ∧ 2 ^ 57 ≤ m) :
      ∀ n : Int, n ≤ 2 ^ 54 → x.lt (.whole n) = false := by
    intro n hn
    rcases h with rfl | ⟨m, rfl, hm⟩
    · rfl
    · refine decide_eq_false ?_
      omega
  rw [hcapEq]
  by_cases hexact : (policy.maxTokenLifetimeDays * dayMs : Int) < 2 ^ 63
  · rw [ofInt_mul_dayMs (Int.natCast_nonneg _) hexact]
    show ofInt (allowance policy) = _ ∨ _ ∧ ∀ n : Int, n ≤ 2 ^ 54 →
      (ofInt (allowance policy)).lt (.whole n) = false
    by_cases hsmall : allowance policy < 2 ^ 58
    · left
      refine ofInt_of_round ?_ (by omega)
      have hcast : allowance policy =
          ((policy.maxTokenLifetimeDays * dayMs + 60000 : Nat) : Int) := by
        push_cast
        rfl
      rw [hcast] at hsmall ⊢
      have hdvd : 2 ^ 5 ∣ policy.maxTokenLifetimeDays * dayMs + 60000 :=
        Nat.dvd_add (Nat.dvd_trans (by decide) (Nat.dvd_mul_left dayMs _)) (by decide)
      have hround := roundWhole_dvd hdvd (by exact_mod_cast hsmall)
      show ((roundWhole _ : Nat) : Int) = _
      rw [hround]
    · right
      have hle : (2 : Int) ^ 57 ≤ allowance policy := by omega
      exact ⟨hle, hbeyond _ (pow_le_ofInt hle)⟩
  · right
    have hle : (2 : Int) ^ 57 ≤ allowance policy := by
      unfold allowance
      omega
    refine ⟨hle, hbeyond _ ?_⟩
    have hlarge : (2 : Int) ^ 63 ≤ policy.maxTokenLifetimeDays * dayMs := by omega
    rcases pow_le_ofInt hlarge with hinf | ⟨m, hm, hm'⟩
    · rw [hinf]
      exact .inl rfl
    · rw [hm]
      exact pow_le_ofInt (by omega)

theorem distance_cases {d : Int} (hpos : 0 < d) (hle : d ≤ 2 * timeLimit) :
    ∃ d', ofInt d = .whole d' ∧ d' ≤ 2 ^ 54 ∧ (d < 2 ^ 53 → d' = d) ∧
      (2 ^ 53 ≤ d → d' = d ∧ d % 2 = 0 ∨ d' = d - 1 ∧ d % 4 = 1 ∨ d' = d + 1 ∧ d % 4 = 3) := by
  have hlimit : timeLimit = 8640000000000000 := rfl
  by_cases hsmall : d < 2 ^ 53
  · exact ⟨d, ofInt_of_small (by omega) hsmall, by omega, fun _ => rfl, by omega⟩
  · obtain ⟨n, rfl⟩ := Int.eq_ofNat_of_zero_le (Int.le_of_lt hpos)
    have hround : roundWhole n = halfEven n 2 * 2 := roundWhole_between (by omega) (by omega)
    have hvalue : (halfEven n 2 * 2 = n ∧ n % 2 = 0) ∨ (halfEven n 2 * 2 + 1 = n ∧ n % 4 = 1) ∨
        (halfEven n 2 * 2 = n + 1 ∧ n % 4 = 3) := by
      unfold halfEven
      split <;> omega
    refine ⟨roundWhole n, ?_, ?_, by omega, ?_⟩
    · have hover : ¬(overflow : Int) ≤ (roundWhole n : Int) := by
        have hbig : (2 : Int) ^ 63 ≤ overflow := by decide +kernel
        omega
      show (if (overflow : Int) ≤ (roundWhole n : Int) then _ else _) = _
      rw [if_neg hover]
      rfl
    · omega
    · intro _
      omega

theorem tooFar_iff (hafter : now.ms < t.ms) :
    ((policy.cap.mul dayMs).add 60000).lt ((getTime (some t)).add (-now.ms)) = true ↔
      0 < policy.maxTokenLifetimeDays ∧ allowance policy < t.ms - now.ms ∧
        ¬RoundedDown policy now t := by
  by_cases hcap : 0 < policy.maxTokenLifetimeDays
  · have hrange : t.ms - now.ms ≤ 2 * timeLimit := by
      have ht := t.inRange
      have hnow := now.inRange
      omega
    obtain ⟨d, hd, hle, hsmall, hbig⟩ := distance_cases (by omega) hrange
    have hdist : (getTime (some t)).add (-now.ms) = .whole d := hd
    have hmod : allowance policy % 4 = 0 := by
      unfold allowance
      rw [dayMs_eq]
      omega
    have hrounded : RoundedDown policy now t ↔
        2 ^ 53 ≤ t.ms - now.ms ∧ t.ms - now.ms = allowance policy + 1 := by
      unfold RoundedDown allowance
      constructor
      · rintro ⟨-, hfar, heq⟩
        exact ⟨hfar, by omega⟩
      · rintro ⟨hfar, heq⟩
        exact ⟨hcap, hfar, by omega⟩
    rw [hdist, hrounded]
    rcases bound_cases hcap with hexact | ⟨hhuge, hnever⟩
    · rw [hexact]
      show decide (allowance policy < d) = true ↔ _
      rw [decide_eq_true_eq]
      by_cases hclose : t.ms - now.ms < 2 ^ 53
      · omega
      · omega
    · rw [hnever d hle]
      constructor
      · intro h
        cases h
      · intro h
        omega
  · have hcapEq : (policy.cap.mul dayMs).add 60000 = .infinity := by
      unfold TokenExpiryPolicy.cap
      rw [if_neg hcap]
      rfl
    rw [hcapEq]
    constructor
    · intro h
      cases hright : (getTime (some t)).add (-now.ms) <;> rw [hright] at h <;> cases h
    · intro h
      exact absurd h.1 hcap

theorem judge_some_safe_iff :
    (policy.judge now (some t)).Safe policy now ↔ ¬RoundedDown policy now t := by
  unfold TokenExpiryPolicy.judge
  by_cases hafter : now.ms < t.ms
  · have hle : (getTime (some t)).le (getTime (some now)) = false := by
      refine decide_eq_false ?_
      omega
    rw [hle, if_neg Bool.false_ne_true]
    by_cases hfar : ((policy.cap.mul dayMs).add 60000).lt ((getTime (some t)).add (-now.ms)) = true
    · rw [if_pos hfar]
      refine iff_of_true (fun date hdate => by cases hdate) ?_
      exact ((tooFar_iff hafter).mp hfar).2.2
    · rw [if_neg hfar]
      rw [tooFar_iff hafter] at hfar
      constructor
      · intro hsafe hrounded
        have hwithin : Within policy now t := hsafe (some (some t)) rfl
        have hle := hwithin.2 hrounded.1
        have heq := hrounded.2.2
        omega
      · intro hrounded date hdate
        cases hdate
        refine ⟨hafter, fun hcap => ?_⟩
        by_contra hlt
        apply hfar
        unfold allowance
        exact ⟨hcap, by omega, hrounded⟩
  · have hle : (getTime (some t)).le (getTime (some now)) = true := by
      refine decide_eq_true ?_
      omega
    rw [hle, if_pos rfl]
    refine iff_of_true (fun date hdate => by cases hdate) ?_
    rintro ⟨-, hfar, -⟩
    omega

theorem judge_none : policy.judge now none = .expiresAt (some none) := by
  have hlt (x : Whole) : x.lt .nan = false := by
    cases x <;> rfl
  show (if false = true then _ else if ((policy.cap.mul dayMs).add 60000).lt .nan = true then _
    else _) = _
  rw [hlt]
  rfl

theorem newDate_inRange {n : Int} (h : -timeLimit ≤ n ∧ n ≤ timeLimit) :
    newDate (.whole n) = some ⟨n, h⟩ := by
  show (if h : _ then some (⟨n, h⟩ : Instant) else none) = _
  rw [dif_pos h]

theorem newDate_beyond {n : Int} (h : timeLimit < n) : newDate (.whole n) = none := by
  show (if h : _ then some (⟨n, h⟩ : Instant) else none) = _
  rw [dif_neg]
  omega

theorem newDate_days (now : Instant) (hpos : 0 < days) :
    (FitsFrom now days ∧ ∃ t, newDate ((ofInt (days * dayMs)).add now.ms) = some t ∧
      t.ms = now.ms + days * dayMs) ∨
    (¬FitsFrom now days ∧ newDate ((ofInt (days * dayMs)).add now.ms) = none) := by
  have hlimit : timeLimit = 8640000000000000 := rfl
  have hnow := now.inRange
  have hmul : 0 < days * dayMs := by
    rw [dayMs_eq]
    omega
  have hbeyond (x : Whole) (h : x = .infinity ∨ ∃ m, x = .whole m ∧ 2 ^ 53 ≤ m) :
      newDate x = none := by
    rcases h with rfl | ⟨m, rfl, hm⟩
    · rfl
    · exact newDate_beyond (by omega)
  by_cases hfits : FitsFrom now days
  · have hle : now.ms + days * dayMs ≤ timeLimit := hfits
    refine .inl ⟨hfits, ⟨now.ms + days * dayMs, by omega⟩, ?_, rfl⟩
    rw [ofInt_mul_dayMs (Int.le_of_lt hpos) (by omega)]
    show newDate (ofInt (days * dayMs + now.ms)) = _
    rw [Int.add_comm, ofInt_of_small (by omega) (by omega), newDate_inRange]
  · have hgt : timeLimit < now.ms + days * dayMs := Int.not_le.mp hfits
    refine .inr ⟨hfits, ?_⟩
    by_cases hexact : days * dayMs < 2 ^ 63
    · rw [ofInt_mul_dayMs (Int.le_of_lt hpos) hexact]
      show newDate (ofInt (days * dayMs + now.ms)) = none
      by_cases hsmall : days * dayMs + now.ms < 2 ^ 53
      · rw [ofInt_of_small (by omega) hsmall]
        exact newDate_beyond (by omega)
      · exact hbeyond _ (pow_le_ofInt (by omega))
    · have hlarge : (2 : Int) ^ 63 ≤ days * dayMs := by omega
      rcases pow_le_ofInt hlarge with hinf | ⟨m, hm, hm'⟩
      · rw [hinf]
        exact hbeyond _ (.inl rfl)
      · rw [hm]
        exact hbeyond _ (pow_le_ofInt (by omega))

theorem judge_days_safe_iff (hpos : 0 < days) :
    (policy.judge now (newDate ((ofInt (days * dayMs)).add now.ms))).Safe policy now ↔
      FitsFrom now days := by
  rcases newDate_days now hpos with ⟨hfits, t, ht, hms⟩ | ⟨hfits, hnone⟩
  · rw [ht, judge_some_safe_iff]
    refine iff_of_true ?_ hfits
    rintro ⟨-, -, heq⟩
    rw [hms, dayMs_eq] at heq
    omega
  · rw [hnone, judge_none]
    refine iff_of_false (fun hsafe => ?_) hfits
    exact hsafe (some none) rfl

theorem judge_days_granted_iff (hpos : 0 < days)
    (hcap : 0 < policy.maxTokenLifetimeDays → days ≤ policy.maxTokenLifetimeDays) :
    (policy.judge now (newDate ((ofInt (days * dayMs)).add now.ms))).Granted policy now ↔
      FitsFrom now days := by
  have hiff : (policy.judge now (newDate ((ofInt (days * dayMs)).add now.ms))).Safe policy
      now ↔ FitsFrom now days := judge_days_safe_iff hpos
  constructor
  · rintro ⟨date, hdate, hrespects⟩
    refine hiff.mp fun date' hdate' => ?_
    rw [hdate] at hdate'
    cases hdate'
    exact hrespects
  · intro hfits
    rcases newDate_days now hpos with ⟨-, t, ht, hms⟩ | ⟨hnot, -⟩
    · have hday : 0 < days * dayMs := by
        rw [dayMs_eq]
        omega
      have hafter : now.ms < t.ms := by omega
      have hallowed : policy.judge now (some t) = .expiresAt (some (some t)) := by
        have hle : (getTime (some t)).le (getTime (some now)) = false := by
          refine decide_eq_false ?_
          omega
        unfold TokenExpiryPolicy.judge
        rw [hle, if_neg Bool.false_ne_true, if_neg]
        rw [tooFar_iff hafter]
        rintro ⟨hlimited, hfar, -⟩
        unfold allowance at hfar
        rw [dayMs_eq] at hfar hms
        omega
      rw [ht, hallowed]
      refine ⟨_, rfl, ?_⟩
      have hsafe := hiff.mpr hfits
      rw [ht] at hsafe
      exact hsafe _ hallowed
    · exact absurd hfits hnot

end

section

variable {parseDate : List Char → Date} {choice customDate : String}
  {policy : TokenExpiryPolicy} {now : Instant}

theorem not_isNever (h : isCustom choice) : ¬isNever choice := by
  unfold isNever
  rw [h]
  decide

theorem error_safe (text : String) : (ExpiryResolution.error text).Safe policy now :=
  fun date hdate => by cases hdate

theorem resolveExpiry_safe_iff :
    (resolveExpiry parseDate choice customDate policy now).Safe policy now ↔
      ChoiceFits parseDate choice customDate policy now := by
  unfold resolveExpiry ChoiceFits
  by_cases hnever : isNever choice
  · rw [if_pos hnever]
    refine iff_of_true ?_ ⟨fun h => absurd hnever h, fun h => absurd hnever (not_isNever h)⟩
    cases hrequire : policy.requireTokenExpiry with
    | true => exact error_safe _
    | false =>
      intro date hdate
      cases hdate
      exact hrequire
  · rw [if_neg hnever]
    by_cases hcustom : isCustom choice
    · rw [if_pos hcustom]
      refine Iff.trans ?_ (and_iff_right fun _ h => absurd hcustom h).symm
      by_cases hraw : trim customDate.toList = []
      · simp only [if_pos hraw]
        exact iff_of_true (error_safe _) fun _ h => absurd hraw h
      · simp only [if_neg hraw]
        cases hdate : customInstant parseDate (trim customDate.toList) with
        | none =>
          refine iff_of_true (error_safe _) fun _ _ t ht => ?_
          cases ht
        | some t =>
          rw [judge_some_safe_iff]
          constructor
          · intro h _ _ t' ht'
            cases ht'
            exact h
          · intro h
            exact h hcustom hraw t rfl
    · rw [if_neg hcustom]
      refine Iff.trans ?_ (and_iff_left fun h => absurd h hcustom).symm
      cases hdays : daysOf choice with
      | none =>
        refine iff_of_true (error_safe _) fun _ _ days h => ?_
        cases h
      | some days =>
        simp only
        by_cases hpos : days ≤ 0
        · rw [if_pos hpos]
          refine iff_of_true (error_safe _) fun _ _ d hd h => ?_
          cases hd
          omega
        · rw [if_neg hpos, judge_days_safe_iff (Int.not_le.mp hpos)]
          constructor
          · intro h _ _ d hd _
            cases hd
            exact h
          · intro h
            exact h hnever hcustom days rfl (Int.not_le.mp hpos)

/-! ## Replacing a credential -/

theorem char_numberText {n : Nat} {c : Char} (h : c ∈ numberText n) :
    c.toLower = c ∧ isPlain c = true := by
  rcases mem_numberText h with hdigit | rfl | rfl | rfl
  · have hrange : 48 ≤ c.toNat ∧ c.toNat ≤ 57 := by
      simpa [Char.isDigit, UInt32.le_iff_toNat_le] using hdigit
    constructor
    · unfold Char.toLower
      rw [dif_neg]
      simp only [ge_iff_le, UInt32.le_iff_toNat_le]
      intro hupper
      have hlo : 65 ≤ c.toNat := hupper.1
      omega
    · refine isPlain_iff.mpr ⟨by omega, ?_, ?_⟩
      · rintro rfl
        exact absurd hrange.1 (by decide)
      · cases hb : RateLimits.isBracket c with
        | false => rfl
        | true =>
          simp only [RateLimits.isBracket, Bool.or_eq_true, decide_eq_true_eq] at hb
          rcases hb with rfl | rfl
          · exact absurd hrange.2 (by decide)
          · exact absurd hrange.2 (by decide)
  · exact ⟨by decide, by decide⟩
  · exact ⟨by decide, by decide⟩
  · exact ⟨by decide, by decide⟩

theorem lowerCase_numberText (n : Nat) :
    lowerCase (trim (String.ofList (numberText n)).toList) = numberText n := by
  have htrim : trim (numberText n) = numberText n :=
    trimmed_of_none fun c hc => isSpaceJs_plain (char_numberText hc).2
  rw [String.toList_ofList, htrim]
  conv_rhs => rw [← List.map_id (numberText n)]
  exact List.map_congr_left fun c hc => (char_numberText hc).1

theorem resolve_days {n : Nat} (hn : roundWhole n = n) (hlt : n < overflow) (hpos : 0 < n) :
    resolveExpiry parseDate (String.ofList (numberText n)) "" policy now =
      policy.judge now (newDate ((ofInt (n * dayMs)).add now.ms)) := by
  obtain ⟨d, rest, htext, hd⟩ := head_numberText n
  have hword (w : Char) (ws : List Char) (hw : w.isDigit = false) : numberText n ≠ w :: ws := by
    rw [htext]
    intro heq
    rw [(List.cons.inj heq).1, hw] at hd
    cases hd
  have hnever : ¬isNever (String.ofList (numberText n)) := by
    unfold isNever
    rw [lowerCase_numberText]
    rintro (h | h)
    · rw [htext] at h
      cases h
    · exact hword _ _ (by decide) h
  have hcustom : ¬isCustom (String.ofList (numberText n)) := by
    unfold isCustom
    rw [lowerCase_numberText]
    exact hword _ _ (by decide)
  have hdays : daysOf (String.ofList (numberText n)) = some (n : Int) := by
    unfold daysOf
    rw [lowerCase_numberText]
    exact whole_numberText hn hlt
  unfold resolveExpiry
  rw [if_neg hnever, if_neg hcustom, hdays]
  simp only
  rw [if_neg (by omega)]

theorem lifetimeDays_bounds (createdAt expiresAt : Instant) :
    1 ≤ lifetimeDays createdAt expiresAt ∧ lifetimeDays createdAt expiresAt < 2 ^ 53 := by
  have hcreated := createdAt.inRange
  have hexpires := expiresAt.inRange
  unfold lifetimeDays
  split
  · rename_i diff hdiff
    have hle : (diff : Int) ≤ 2 ^ 54 := by
      by_cases hpos : 0 < expiresAt.ms - createdAt.ms
      · obtain ⟨d, hd, hle, -⟩ := distance_cases hpos (by omega)
        have heq : whole d = .whole (Int.ofNat diff) := hd.symm.trans hdiff
        rw [whole.injEq] at heq
        have hcast : Int.ofNat diff = (diff : Int) := rfl
        omega
      · obtain ⟨m, hm, heq⟩ := ofInt_nonpos (Int.not_lt.mp hpos)
        have hsame : whole m = .whole (Int.ofNat diff) := heq.symm.trans hdiff
        rw [whole.injEq] at hsame
        have hcast : Int.ofNat diff = (diff : Int) := rfl
        omega
    have hday : diff < 2 ^ 30 * dayMs := by
      have hms : dayMs = 86400000 := rfl
      omega
    have hround := roundHalfUp_le hday (by omega)
    omega
  · omega

theorem replacementDays_bounds (createdAt expiresAt : Instant) (policy : TokenExpiryPolicy) :
    1 ≤ replacementDays createdAt expiresAt policy ∧
      replacementDays createdAt expiresAt policy < 2 ^ 53 := by
  have hlifetime := lifetimeDays_bounds createdAt expiresAt
  unfold replacementDays
  split <;> omega

theorem defaultDays_number (policy : TokenExpiryPolicy) :
    0 < defaultDays policy ∧ roundWhole (defaultDays policy) = defaultDays policy ∧
      defaultDays policy < overflow := by
  unfold defaultDays
  split
  · rename_i hcap
    exact ⟨hcap, policy.isNumber⟩
  · decide +kernel

theorem replacementExpiry_iff {createdAt : Instant} {expiresAt : Option Instant} :
    ((replacementExpiry parseDate createdAt expiresAt policy now).Safe policy now ↔
      ReplacementFits createdAt expiresAt policy now) ∧
    ((replacementExpiry parseDate createdAt expiresAt policy now).Granted policy now ↔
      ReplacementFits createdAt expiresAt policy now) := by
  have hdays {n : Nat} (hpos : 0 < n) (hn : roundWhole n = n) (hlt : n < overflow)
      (hcap : 0 < policy.maxTokenLifetimeDays → n ≤ policy.maxTokenLifetimeDays) :
      ((resolveExpiry parseDate (String.ofList (numberText n)) "" policy now).Safe policy now ↔
        FitsFrom now n) ∧
      ((resolveExpiry parseDate (String.ofList (numberText n)) "" policy now).Granted policy now ↔
        FitsFrom now n) := by
    rw [resolve_days hn hlt hpos]
    exact ⟨judge_days_safe_iff (by omega), judge_days_granted_iff (by omega) fun h =>
      Int.ofNat_le.mpr (hcap h)⟩
  unfold replacementExpiry ReplacementFits
  cases expiresAt with
  | none =>
    cases hrequire : policy.requireTokenExpiry with
    | false =>
      have hrespects : Respects policy now none := hrequire
      refine ⟨iff_of_true (fun date hdate => ?_) nofun, iff_of_true ⟨none, rfl, hrespects⟩ nofun⟩
      cases hdate
      exact hrequire
    | true =>
      obtain ⟨hpos, hn, hlt⟩ := defaultDays_number policy
      have hboth := hdays hpos hn hlt fun hcap => by
        unfold defaultDays
        rw [if_pos hcap]
      simpa using hboth
  | some t =>
    have hbounds := replacementDays_bounds createdAt t policy
    have hlt : replacementDays createdAt t policy < overflow :=
      Nat.lt_trans hbounds.2 (by decide +kernel)
    refine hdays hbounds.1 (roundWhole_of_lt hbounds.2) hlt fun hcap => ?_
    unfold replacementDays
    rw [if_pos hcap]
    exact Nat.min_le_right _ _

end

/-- What `resolveExpiry` returns respects the policy exactly if the days end in the range of
dates, and no date is the one that rounding moves into the limit; and a replacement is granted,
and respects the policy, exactly if its days end in range. -/
theorem lifetimes_respect_iff (parseDate : List Char → Date) (policy : TokenExpiryPolicy)
    (now : Instant) :
    (∀ choice customDate, (resolveExpiry parseDate choice customDate policy now).Safe policy now ↔
        ChoiceFits parseDate choice customDate policy now) ∧
    ∀ createdAt expiresAt,
      ((replacementExpiry parseDate createdAt expiresAt policy now).Safe policy now ↔
        ReplacementFits createdAt expiresAt policy now) ∧
      ((replacementExpiry parseDate createdAt expiresAt policy now).Granted policy now ↔
        ReplacementFits createdAt expiresAt policy now) :=
  ⟨fun _ _ => resolveExpiry_safe_iff, fun _ _ => replacementExpiry_iff⟩

def monthPolicy : TokenExpiryPolicy := ⟨30, true, by decide +kernel⟩

def newYear : Instant := ⟨1767225600000, by decide⟩

/-- A hundred million days are granted as an invalid date, although thirty are allowed. -/
theorem hundredMillionDays_invalid :
    resolveExpiry (fun _ => none) "100000000" "" monthPolicy newYear = .expiresAt (some none) ∧
      ¬∀ (parseDate : List Char → Date) (choice customDate : String)
        (policy : TokenExpiryPolicy) (now : Instant),
        (resolveExpiry parseDate choice customDate policy now).Safe policy now := by
  have hnever : ¬isNever "100000000" := by decide +kernel
  have hcustom : ¬isCustom "100000000" := by decide +kernel
  have hdays : daysOf "100000000" = some 100000000 := by decide +kernel
  have hdate : newDate ((ofInt (100000000 * dayMs)).add newYear.ms) = none := by
    decide +kernel
  have hreturns : resolveExpiry (fun _ => none) "100000000" "" monthPolicy newYear =
      .expiresAt (some none) := by
    unfold resolveExpiry
    rw [if_neg hnever, if_neg hcustom, hdays]
    simp only
    rw [if_neg (by decide), hdate, judge_none]
  refine ⟨hreturns, fun hsafe => ?_⟩
  exact hsafe _ _ _ _ _ (some none) hreturns

end Chicoree.Tokens
