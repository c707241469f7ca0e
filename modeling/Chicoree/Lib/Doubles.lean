import Mathlib.Tactic.Positivity
import Mathlib.Tactic.Ring

/-! # Double precision numbers and their texts

Numbers with a significand of 53 bits: how a fraction is rounded to one, which number a
decimal text stands for, and the shortest text that reads as a given whole number. -/

namespace Doubles

open List

/-! ## Rounding -/

/-- The whole number nearest to `a / b`, ties to even. -/
def halfEven (a b : Nat) : Nat :=
  if 2 * (a % b) < b ∨ (2 * (a % b) = b ∧ a / b % 2 = 0) then a / b else a / b + 1

/-- The number nearest to a whole number. -/
def roundWhole (n : Nat) : Nat := halfEven n (2 ^ (n.log2 - 52)) * 2 ^ (n.log2 - 52)

def overflow : Nat := 2 ^ 1024

/-- The binary logarithm of `p / q`, rounded down. -/
def ratioLog (p q : Nat) : Int :=
  let l : Int := (p.log2 : Int) - q.log2
  if q * 2 ^ l.toNat ≤ p * 2 ^ (-l).toNat then l else l - 1

/-- Significand and exponent of the number nearest to `p / q`. -/
def nearest (p q : Nat) : Nat × Int :=
  let e := max (ratioLog p q - 52) (-1074)
  (halfEven (p * 2 ^ (-e).toNat) (q * 2 ^ e.toNat), e)

inductive Number where
  | nan
  | infinity (negative : Bool)
  /-- A significand at a power of two. -/
  | finite (negative : Bool) (m : Nat) (e : Int)

def Number.ofRatio (negative : Bool) (p q : Nat) : Number :=
  let (m, e) := nearest p q
  if overflow * 2 ^ (-e).toNat ≤ m * 2 ^ e.toNat then .infinity negative
  else .finite negative m e

/-- The value of a number that is no fraction. -/
def Number.whole? : Number → Option Int
  | .finite negative m e =>
    if m * 2 ^ e.toNat % 2 ^ (-e).toNat = 0 then
      let n := m * 2 ^ e.toNat / 2 ^ (-e).toNat
      some (if negative then -n else n)
    else none
  | _ => none

theorem halfEven_one (a : Nat) : halfEven a 1 = a := by
  simp [halfEven, Nat.mod_one]

theorem halfEven_dvd {a b : Nat} (hb : 0 < b) (h : b ∣ a) : halfEven a b = a / b := by
  unfold halfEven
  rw [if_pos]
  left
  omega

theorem le_halfEven (a b : Nat) : a / b ≤ halfEven a b := by
  unfold halfEven
  split
  · exact Nat.le_refl _
  · exact Nat.le_succ _

theorem halfEven_le (a b : Nat) : halfEven a b ≤ a / b + 1 := by
  unfold halfEven
  split
  · exact Nat.le_succ _
  · exact Nat.le_refl _

variable {n k : Nat}

theorem log2_of_lt (h : n < 2 ^ (k + 1)) : n.log2 ≤ k := by
  by_cases hn : n = 0
  · subst hn
    exact Nat.zero_le k
  · exact Nat.lt_succ_iff.mp ((Nat.log2_lt hn).mpr h)

/-- A number of few bits at a power of two is its own rounding. -/
theorem roundWhole_dvd (hdvd : 2 ^ k ∣ n) (h : n < 2 ^ (53 + k)) : roundWhole n = n := by
  have hlog : n.log2 - 52 ≤ k := by
    have hle : n.log2 ≤ 52 + k := log2_of_lt (by rw [show 52 + k + 1 = 53 + k by omega]; exact h)
    omega
  have hstep : 2 ^ (n.log2 - 52) ∣ n := Nat.dvd_trans (Nat.pow_dvd_pow 2 hlog) hdvd
  unfold roundWhole
  rw [halfEven_dvd (Nat.two_pow_pos _) hstep, Nat.div_mul_cancel hstep]

theorem roundWhole_of_lt (h : n < 2 ^ 53) : roundWhole n = n :=
  roundWhole_dvd (k := 0) (Nat.one_dvd n) h

/-- Rounding does not cross a power of two. -/
theorem pow_le_roundWhole (h : 2 ^ k ≤ n) : 2 ^ k ≤ roundWhole n := by
  have hn : n ≠ 0 := by
    have hpos := Nat.two_pow_pos k
    omega
  have hlog : k ≤ n.log2 := (Nat.le_log2 hn).mpr h
  have hself : 2 ^ n.log2 ≤ n := Nat.log2_self_le hn
  by_cases hsmall : n.log2 < 52
  · rw [roundWhole_of_lt]
    · exact h
    · exact Nat.lt_trans ((Nat.log2_lt hn).mp hsmall) (by decide)
  · have hsplit : 2 ^ n.log2 = 2 ^ 52 * 2 ^ (n.log2 - 52) := by
      rw [← Nat.pow_add]
      congr 1
      omega
    have hq : 2 ^ 52 ≤ n / 2 ^ (n.log2 - 52) := by
      rw [Nat.le_div_iff_mul_le (Nat.two_pow_pos _), ← hsplit]
      exact hself
    calc 2 ^ k ≤ 2 ^ n.log2 := Nat.pow_le_pow_right (by decide) hlog
      _ = 2 ^ 52 * 2 ^ (n.log2 - 52) := hsplit
      _ ≤ n / 2 ^ (n.log2 - 52) * 2 ^ (n.log2 - 52) := Nat.mul_le_mul_right _ hq
      _ ≤ roundWhole n := Nat.mul_le_mul_right _ (le_halfEven _ _)

/-- Between `2^53` and `2^54` every other whole number is left. -/
theorem roundWhole_between (hlo : 2 ^ 53 ≤ n) (hhi : n < 2 ^ 54) :
    roundWhole n = halfEven n 2 * 2 := by
  have hn : n ≠ 0 := by
    rintro rfl
    exact absurd hlo (by decide)
  have hlog : n.log2 = 53 := by
    have hle : n.log2 ≤ 53 := log2_of_lt hhi
    have hge : 53 ≤ n.log2 := (Nat.le_log2 hn).mpr hlo
    omega
  unfold roundWhole
  rw [hlog]
  rfl

theorem ratioLog_one (hn : n ≠ 0) : ratioLog n 1 = n.log2 := by
  have hlog : Nat.log2 1 = 0 := by decide
  have hself := Nat.log2_self_le hn
  unfold ratioLog
  simp only [hlog]
  rw [if_pos]
  · omega
  · simpa using hself

theorem Number.ofRatio_one (n : Nat) (h : roundWhole n < overflow) :
    (Number.ofRatio false n 1).whole? = some (roundWhole n : Int) := by
  by_cases hn : n = 0
  · subst hn
    decide +kernel
  unfold Number.ofRatio nearest
  rw [ratioLog_one hn]
  by_cases hlog : 52 ≤ n.log2
  · -- the last bits are rounded away
    have he : max ((n.log2 : Int) - 52) (-1074) = ((n.log2 - 52 : Nat) : Int) := by omega
    have hneg : (-((n.log2 - 52 : Nat) : Int)).toNat = 0 := by omega
    have hround : halfEven n (2 ^ (n.log2 - 52)) * 2 ^ (n.log2 - 52) = roundWhole n := rfl
    simp only [he, hneg, Int.toNat_natCast, Nat.pow_zero, Nat.mul_one, Nat.one_mul, hround]
    rw [if_neg (by omega)]
    unfold Number.whole?
    simp only [hneg, Int.toNat_natCast, Nat.pow_zero, hround, Nat.mod_one, Nat.div_one, if_true]
    rfl
  · -- the number is written out with binary zeros behind it
    have he : max ((n.log2 : Int) - 52) (-1074) = -((52 - n.log2 : Nat) : Int) := by omega
    have hpos : (-((52 - n.log2 : Nat) : Int)).toNat = 0 := by omega
    have hexact : roundWhole n = n := by
      refine roundWhole_of_lt ?_
      exact Nat.lt_trans ((Nat.log2_lt hn).mp (Nat.not_le.mp hlog)) (by decide)
    rw [hexact] at h ⊢
    simp only [he, hpos, Int.neg_neg, Int.toNat_natCast, Nat.pow_zero, Nat.mul_one, halfEven_one]
    rw [if_neg]
    · unfold Number.whole?
      simp only [hpos, Int.neg_neg, Int.toNat_natCast, Nat.pow_zero, Nat.mul_one,
        Nat.mul_mod_left, Nat.mul_div_cancel _ (Nat.two_pow_pos _), if_true]
      rfl
    · have hlt := Nat.mul_lt_mul_of_pos_right h (Nat.two_pow_pos (52 - n.log2))
      omega

/-- `Math.round` of the number nearest to `p / q`. -/
def roundHalfUp (p q : Nat) : Nat :=
  let (m, e) := nearest p q
  (2 * (m * 2 ^ e.toNat) + 2 ^ (-e).toNat) / (2 * 2 ^ (-e).toNat)

variable {p q : Nat}

theorem ratioLog_le (h : p < 2 ^ k * q) : ratioLog p q ≤ k := by
  have hq : q ≠ 0 := by
    rintro rfl
    exact absurd h (Nat.not_lt_zero p)
  have hlog : p.log2 ≤ k + q.log2 := by
    refine log2_of_lt ?_
    calc p < 2 ^ k * q := h
      _ ≤ 2 ^ k * 2 ^ (q.log2 + 1) := Nat.mul_le_mul_left _ (Nat.le_of_lt Nat.lt_log2_self)
      _ = 2 ^ (k + q.log2 + 1) := by rw [← Nat.pow_add, Nat.add_assoc]
  unfold ratioLog
  simp only
  split <;> omega

theorem roundHalfUp_le (h : p < 2 ^ k * q) (hk : k ≤ 52) : roundHalfUp p q ≤ 2 ^ k + 2 := by
  have hlog := ratioLog_le h
  have hq : 0 < q := by
    by_contra hzero
    rw [Nat.eq_zero_of_not_pos hzero] at h
    exact absurd h (Nat.not_lt_zero p)
  unfold roundHalfUp nearest
  generalize he : max (ratioLog p q - 52) (-1074) = e
  have hneg : e.toNat = 0 := by omega
  simp only [hneg, Nat.pow_zero, Nat.mul_one]
  generalize 2 ^ (-e).toNat = w
  by_cases hw : w = 0
  · subst hw
    simp
  have hdiv : p * w / q < 2 ^ k * w := by
    rw [Nat.div_lt_iff_lt_mul hq, Nat.mul_right_comm]
    exact Nat.mul_lt_mul_of_pos_right h (Nat.pos_of_ne_zero hw)
  have hround := halfEven_le (p * w) q
  rw [Nat.div_le_iff_le_mul_add_pred (by omega)]
  have hmul : 2 * w * (2 ^ k + 2) = 2 * (2 ^ k * w) + 4 * w := by ring
  omega

/-- A number without a fraction, or what arithmetic with such numbers ends in. -/
inductive Whole where
  | nan
  | infinity
  | whole (n : Int)

def roundInt : Int → Int
  | .ofNat n => roundWhole n
  | .negSucc n => -(roundWhole (n + 1) : Int)

namespace Whole

def ofInt (n : Int) : Whole := if overflow ≤ roundInt n then .infinity else .whole (roundInt n)

def add : Whole → Int → Whole
  | .whole n, k => ofInt (n + k)
  | x, _ => x

/-- Multiplication with a positive number. -/
def mul : Whole → Nat → Whole
  | .whole n, k => ofInt (n * k)
  | x, _ => x

/-- No comparison with `NaN` holds. -/
def le : Whole → Whole → Bool
  | .whole m, .whole n => decide (m ≤ n)
  | .nan, _ | _, .nan => false
  | .infinity, .whole _ => false
  | _, .infinity => true

def lt : Whole → Whole → Bool
  | .whole m, .whole n => decide (m < n)
  | .whole _, .infinity => true
  | _, _ => false

theorem ofInt_of_round {n : Int} (h : roundInt n = n) (hlt : n < 2 ^ 63) : ofInt n = .whole n := by
  have hover : ¬(overflow : Int) ≤ n := by
    have hbig : (2 : Int) ^ 63 ≤ overflow := by decide +kernel
    omega
  unfold ofInt
  rw [h, if_neg hover]

theorem ofInt_of_small {n : Int} (hlo : -2 ^ 53 < n) (hhi : n < 2 ^ 53) : ofInt n = .whole n := by
  refine ofInt_of_round ?_ (by omega)
  cases n with
  | ofNat n =>
    have hn : (n : Int) < 2 ^ 53 := hhi
    show (roundWhole n : Int) = n
    rw [roundWhole_of_lt (by exact_mod_cast hn)]
  | negSucc n =>
    show -(roundWhole (n + 1) : Int) = _
    rw [roundWhole_of_lt (by omega)]
    rfl

theorem ofInt_nonpos {n : Int} (h : n ≤ 0) : ∃ m ≤ 0, ofInt n = .whole m := by
  have hround : roundInt n ≤ 0 := by
    cases n with
    | ofNat n =>
      obtain rfl : n = 0 := Int.ofNat_eq_zero.mp (Int.le_antisymm h (Int.natCast_nonneg n))
      decide
    | negSucc n =>
      show -(roundWhole (n + 1) : Int) ≤ 0
      omega
  have hover : ¬(overflow : Int) ≤ roundInt n := by
    have hbig : (2 : Int) ^ 63 ≤ overflow := by decide +kernel
    omega
  refine ⟨roundInt n, hround, ?_⟩
  unfold ofInt
  rw [if_neg hover]

/-- A sum or product from a power of two on does not come below it. -/
theorem pow_le_ofInt {n : Int} (h : 2 ^ k ≤ n) :
    ofInt n = .infinity ∨ ∃ m, ofInt n = .whole m ∧ 2 ^ k ≤ m := by
  obtain ⟨m, rfl⟩ : ∃ m : Nat, n = m := by
    refine ⟨n.toNat, ?_⟩
    have hpos : (0 : Int) ≤ 2 ^ k := by positivity
    omega
  have hround : (2 : Int) ^ k ≤ roundInt m := by
    have hle := pow_le_roundWhole (n := m) (k := k) (by exact_mod_cast h)
    show (2 : Int) ^ k ≤ (roundWhole m : Int)
    exact_mod_cast hle
  unfold ofInt
  split
  · exact .inl rfl
  · exact .inr ⟨_, rfl, hround⟩

end Whole

/-! ## The number of a text -/

def decimal (s : List Char) : Nat := Nat.ofDigitChars 10 s 0

def isDigits (s : List Char) : Bool := !s.isEmpty && s.all Char.isDigit

/-- The exponent at the end of a text, zero where there is none. -/
def exponentOf : List Char → Option Int
  | [] => some 0
  | c :: rest =>
    if c = 'e' ∨ c = 'E' then
      match rest with
      | '-' :: ds => if isDigits ds then some (-(decimal ds : Int)) else none
      | '+' :: ds => if isDigits ds then some (decimal ds) else none
      | ds => if isDigits ds then some (decimal ds) else none
    else none

/-- The number `m · 10^x`. -/
def Number.scaled (negative : Bool) (m : Nat) (x : Int) : Number :=
  .ofRatio negative (m * 10 ^ x.toNat) (10 ^ (-x).toNat)

/-- The digits behind a point, and what comes after them. -/
def fractionOf : List Char → List Char × List Char
  | '.' :: s => (s.takeWhile Char.isDigit, s.dropWhile Char.isDigit)
  | s => ([], s)

/-- A decimal literal without its sign. -/
def Number.ofDecimal (negative : Bool) (s : List Char) : Number :=
  if s = ['I', 'n', 'f', 'i', 'n', 'i', 't', 'y'] then .infinity negative
  else
    let whole := s.takeWhile Char.isDigit
    let (fraction, rest) := fractionOf (s.dropWhile Char.isDigit)
    if whole.isEmpty && fraction.isEmpty then .nan
    else
      match exponentOf rest with
      | some x => .scaled negative (decimal (whole ++ fraction)) (x - fraction.length)
      | none => .nan

def digitValue (c : Char) : Nat :=
  if c.isDigit then c.toNat - '0'.toNat
  else if 'a' ≤ c ∧ c ≤ 'f' then c.toNat - 'a'.toNat + 10
  else if 'A' ≤ c ∧ c ≤ 'F' then c.toNat - 'A'.toNat + 10
  else 16

/-- The base that stands behind a leading zero. -/
def baseOf (c : Char) : Option Nat :=
  if c = 'x' ∨ c = 'X' then some 16
  else if c = 'o' ∨ c = 'O' then some 8
  else if c = 'b' ∨ c = 'B' then some 2
  else none

/-- A literal with a base, if the text is one. -/
def basedLiteral : List Char → Option Nat
  | '0' :: c :: ds =>
    match baseOf c with
    | some b =>
      if !ds.isEmpty && ds.all (fun d => decide (digitValue d < b)) then
        some (ds.foldl (fun n d => b * n + digitValue d) 0)
      else none
    | none => none
  | _ => none

/-- `Number(s)` of a text without blanks at its ends. -/
def Number.ofText (s : List Char) : Number :=
  match s with
  | [] => .finite false 0 0
  | '-' :: s => .ofDecimal true s
  | '+' :: s => .ofDecimal false s
  | s =>
    match basedLiteral s with
    | some n => .ofRatio false n 1
    | none => .ofDecimal false s

/-- The shortest digits that read as `n` once so many zeros or fewer follow them. -/
def shortest (n : Nat) : Nat → Nat × Nat
  | 0 => (n, 0)
  | z + 1 =>
    let closest := halfEven n (10 ^ (z + 1))
    let below := n / 10 ^ (z + 1)
    match [closest, below, below + 1].find? fun s =>
      decide (0 < s) && decide (roundWhole (s * 10 ^ (z + 1)) = n) with
    | some s => (s, z + 1)
    | none => shortest n z

/-- The text of a whole number: written out up to `10^21`, with an exponent beyond. -/
def numberText (n : Nat) : List Char :=
  let (s, z) := shortest n (Nat.toDigits 10 n).length
  let ds := Nat.toDigits 10 s
  if ds.length + z ≤ 21 then ds ++ List.replicate z '0'
  else
    match ds with
    | [] => []
    | [d] => d :: 'e' :: '+' :: Nat.toDigits 10 z
    | d :: rest => d :: '.' :: (rest ++ 'e' :: '+' :: Nat.toDigits 10 (rest.length + z))

example : numberText (2 ^ 77) = "1.5111572745182865e+23".toList := by decide +kernel

/-! ### Reading it again -/

theorem shortest_reads (hn : roundWhole n = n) (z : Nat) :
    roundWhole ((shortest n z).1 * 10 ^ (shortest n z).2) = n := by
  induction z with
  | zero => simpa [shortest] using hn
  | succ z ih =>
    simp only [shortest]
    split
    · rename_i s hs
      have hfits := find?_some hs
      simp only [Bool.and_eq_true, decide_eq_true_eq] at hfits
      exact hfits.2
    · exact ih

variable {c : Char}

theorem isDigit_toDigits (h : c ∈ Nat.toDigits 10 n) : c.isDigit = true :=
  Nat.isDigit_of_mem_toDigits (by decide) (by decide) h

theorem decimal_toDigits (n : Nat) : decimal (Nat.toDigits 10 n) = n :=
  Nat.ofDigitChars_ten_toDigits

theorem isDigits_toDigits (n : Nat) : isDigits (Nat.toDigits 10 n) = true := by
  unfold isDigits
  rw [Bool.and_eq_true, Bool.not_eq_true', isEmpty_eq_false_iff]
  exact ⟨Nat.toDigits_ne_nil, all_eq_true.mpr fun c hc => isDigit_toDigits hc⟩

variable {r : List Char}

theorem span_digits {l : List Char} (hl : ∀ c ∈ l, c.isDigit = true)
    (hr : ∀ c, r.head? = some c → c.isDigit = false) :
    (l ++ r).takeWhile Char.isDigit = l ∧ (l ++ r).dropWhile Char.isDigit = r := by
  rw [takeWhile_append_of_pos hl, dropWhile_append_of_pos hl]
  cases r with
  | nil => simp
  | cons c rest =>
    have hc := hr c rfl
    simp [hc]

variable {d : Char} {s : List Char}

/-- A text that starts with a digit and has no letter for a base is a decimal. -/
theorem ofText_decimal (hd : d.isDigit = true) (hs : ∀ c, s.head? = some c → baseOf c = none) :
    Number.ofText (d :: s) = .ofDecimal false (d :: s) := by
  have hbased : basedLiteral (d :: s) = none := by
    cases s with
    | nil => unfold basedLiteral; split <;> simp_all
    | cons c s =>
      have hc := hs c rfl
      unfold basedLiteral
      split
      · rename_i heq
        obtain ⟨rfl, htail⟩ := List.cons.inj heq
        obtain ⟨rfl, rfl⟩ := List.cons.inj htail
        rw [hc]
      · rfl
  unfold Number.ofText
  split
  · rename_i heq
    cases heq
  · rename_i heq
    cases heq
    exact absurd hd (by decide)
  · rename_i heq
    cases heq
    exact absurd hd (by decide)
  · rw [hbased]

theorem ofDecimal_digits (hd : d.isDigit = true)
    (hs : ∀ c ∈ s, c.isDigit = true) (hr : ∀ c, r.head? = some c → c.isDigit = false) :
    Number.ofDecimal false (d :: s ++ r) =
      match exponentOf (fractionOf r).2 with
      | some x => .scaled false (decimal (d :: s ++ (fractionOf r).1))
          (x - (fractionOf r).1.length)
      | none => .nan := by
  have hspan := span_digits (l := d :: s) (r := r)
    (fun c hc => (mem_cons.mp hc).elim (fun h => h ▸ hd) (hs c)) hr
  have hword : d :: s ++ r ≠ ['I', 'n', 'f', 'i', 'n', 'i', 't', 'y'] := by
    intro heq
    rw [cons_append] at heq
    rw [(List.cons.inj heq).1] at hd
    exact absurd hd (by decide)
  unfold Number.ofDecimal
  rw [if_neg hword]
  simp only [hspan.1, hspan.2]
  rw [if_neg (by simp)]

theorem scaled_natCast (m z : Nat) : Number.scaled false m z = .ofRatio false (m * 10 ^ z) 1 := by
  have hneg : (-(z : Int)).toNat = 0 := by omega
  unfold Number.scaled
  rw [hneg, Int.toNat_natCast, Nat.pow_zero]

theorem exponentOf_digits (z : Nat) :
    exponentOf ('e' :: '+' :: Nat.toDigits 10 z) = some (z : Int) := by
  show (if isDigits (Nat.toDigits 10 z) = true then
    some (decimal (Nat.toDigits 10 z) : Int) else none) = _
  rw [if_pos (isDigits_toDigits z), decimal_toDigits]

/-- The text of a number reads as its digits at their power of ten. -/
theorem ofText_numberText (n : Nat) : ∃ s z, shortest n (Nat.toDigits 10 n).length = (s, z) ∧
    Number.ofText (numberText n) = .ofRatio false (s * 10 ^ z) 1 := by
  refine ⟨_, _, rfl, ?_⟩
  unfold numberText
  generalize shortest n (Nat.toDigits 10 n).length = sz
  obtain ⟨s, z⟩ := sz
  have hdig := decimal_toDigits s
  have hall : ∀ c ∈ Nat.toDigits 10 s, c.isDigit = true := fun c hc => isDigit_toDigits hc
  simp only
  cases hds : Nat.toDigits 10 s with
  | nil => exact absurd hds Nat.toDigits_ne_nil
  | cons d rest =>
    rw [hds] at hdig hall
    have hd := hall d mem_cons_self
    have hrest : ∀ c ∈ rest, c.isDigit = true := fun c hc => hall c (mem_cons_of_mem d hc)
    by_cases hshort : (d :: rest).length + z ≤ 21
    · -- the digits with zeros behind them
      rw [if_pos hshort]
      have hzeros : ∀ c ∈ rest ++ List.replicate z '0', c.isDigit = true := by
        intro c hc
        rcases mem_append.mp hc with hc | hc
        · exact hrest c hc
        · rw [(mem_replicate.mp hc).2]
          decide
      have hread := ofDecimal_digits (r := []) hd hzeros (by simp)
      simp only [append_nil, fractionOf, exponentOf, length_nil] at hread
      rw [cons_append, ofText_decimal hd, hread, ← cons_append, decimal,
        Nat.ofDigitChars_append, Nat.ofDigitChars_replicate_zero]
      · show Number.scaled false (10 ^ z * decimal (d :: rest)) ((0 : Nat) : Int) = _
        rw [scaled_natCast, hdig, Nat.pow_zero, Nat.mul_one, Nat.mul_comm]
      · intro c hc
        have hdigit := hzeros c (mem_of_head? hc)
        unfold baseOf
        rw [if_neg, if_neg, if_neg] <;>
        · rintro (rfl | rfl) <;> exact absurd hdigit (by decide)
    · rw [if_neg hshort]
      cases rest with
      | nil =>
        -- one digit and an exponent
        have hread := ofDecimal_digits (s := []) (r := 'e' :: '+' :: Nat.toDigits 10 z) hd
          (by simp) (by simp)
        have hfraction : fractionOf ('e' :: '+' :: Nat.toDigits 10 z) =
            ([], 'e' :: '+' :: Nat.toDigits 10 z) := rfl
        simp only [hfraction, exponentOf_digits, append_nil, hdig] at hread
        rw [ofText_decimal hd (by simp; decide)]
        show Number.ofDecimal false ([d] ++ _) = _
        rw [hread]
        show Number.scaled false s ((z : Int) - 0) = _
        rw [Int.sub_zero, scaled_natCast]
      | cons d' rest =>
        -- a point behind the first digit
        have hspan := span_digits (l := d' :: rest)
          (r := 'e' :: '+' :: Nat.toDigits 10 ((d' :: rest).length + z)) hrest
          (by simp)
        have hread := ofDecimal_digits (s := [])
          (r := '.' :: (d' :: rest ++ 'e' :: '+' :: Nat.toDigits 10 ((d' :: rest).length + z)))
          hd (by simp) (by simp)
        simp only [fractionOf, hspan.1, hspan.2, exponentOf_digits] at hread
        rw [ofText_decimal hd (by simp; decide)]
        show Number.ofDecimal false ([d] ++ _) = _
        rw [hread]
        show Number.scaled false (decimal (d :: d' :: rest)) _ = _
        rw [hdig, show (((d' :: rest).length + z : Nat) : Int) - ((d' :: rest).length : Int) =
          (z : Int) by omega, scaled_natCast]

theorem whole_numberText (hn : roundWhole n = n) (hlt : n < overflow) :
    (Number.ofText (numberText n)).whole? = some (n : Int) := by
  obtain ⟨s, z, hshort, hread⟩ := ofText_numberText n
  have hround : roundWhole (s * 10 ^ z) = n := by
    have h := shortest_reads hn (Nat.toDigits 10 n).length
    rw [hshort] at h
    exact h
  rw [hread, Number.ofRatio_one _ (by rw [hround]; exact hlt), hround]

theorem mem_numberText (h : c ∈ numberText n) : c.isDigit = true ∨ c = '.' ∨ c = 'e' ∨ c = '+' := by
  unfold numberText at h
  generalize shortest n (Nat.toDigits 10 n).length = sz at h
  obtain ⟨s, z⟩ := sz
  have hall : ∀ c ∈ Nat.toDigits 10 s, c.isDigit = true := fun c hc => isDigit_toDigits hc
  have hexp (k : Nat) (hc : c ∈ 'e' :: '+' :: Nat.toDigits 10 k) :
      c.isDigit = true ∨ c = '.' ∨ c = 'e' ∨ c = '+' := by
    rcases mem_cons.mp hc with rfl | hc
    · exact .inr (.inr (.inl rfl))
    · rcases mem_cons.mp hc with rfl | hc
      · exact .inr (.inr (.inr rfl))
      · exact .inl (isDigit_toDigits hc)
  simp only at h
  split at h
  · rcases mem_append.mp h with hc | hc
    · exact .inl (hall c hc)
    · rw [(mem_replicate.mp hc).2]
      exact .inl (by decide)
  · split at h
    · cases h
    · rename_i d hds
      rw [hds] at hall
      rcases mem_cons.mp h with rfl | hc
      · exact .inl (hall _ mem_cons_self)
      · exact hexp _ hc
    · rename_i d rest _ hds
      rw [hds] at hall
      rcases mem_cons.mp h with rfl | hc
      · exact .inl (hall _ mem_cons_self)
      · rcases mem_cons.mp hc with rfl | hc
        · exact .inr (.inl rfl)
        · rcases mem_append.mp hc with hc | hc
          · exact .inl (hall c (mem_cons_of_mem d hc))
          · exact hexp _ hc

theorem head_numberText (n : Nat) : ∃ d rest, numberText n = d :: rest ∧ d.isDigit = true := by
  unfold numberText
  generalize shortest n (Nat.toDigits 10 n).length = sz
  obtain ⟨s, z⟩ := sz
  simp only
  cases hds : Nat.toDigits 10 s with
  | nil => exact absurd hds Nat.toDigits_ne_nil
  | cons d rest =>
    have hd : d.isDigit = true := isDigit_toDigits (n := s) (by rw [hds]; exact mem_cons_self)
    split
    · exact ⟨d, _, rfl, hd⟩
    · cases rest with
      | nil | cons d' rest => exact ⟨d, _, rfl, hd⟩

end Doubles
