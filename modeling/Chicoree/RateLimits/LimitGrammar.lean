import Mathlib.Data.List.TakeWhile
import Chicoree.RateLimits.Form

/-! # The two grammars of a limit

What the web application stores of a limit it accepts, and what registryd reads there: the
same count always; the same window where it is a 64-bit duration. -/

namespace Chicoree.RateLimits

open List

/-! ## Characters -/

variable {c : Char}

theorem isDigit_iff : isDigit c = true ↔ 48 ≤ c.toNat ∧ c.toNat ≤ 57 := by
  simp only [isDigit, Bool.and_eq_true, decide_eq_true_eq]
  exact Iff.rfl

theorem isUnit_iff : isUnit c = true ↔ c = 's' ∨ c = 'm' ∨ c = 'h' ∨ c = 'd' := by
  simp [isUnit, or_assoc]

/-- A notion of white space that leaves digits, units and the slash alone. -/
def Blank (space : Char → Bool) : Prop :=
  ∀ c, isDigit c = true ∨ isUnit c = true ∨ c = '/' → space c = false

theorem blank_js : Blank isSpaceJs := by
  rintro c (hc | hc | rfl)
  · have hdigit := isDigit_iff.mp hc
    have hne : (c = ' ') = False := by
      refine eq_false ?_
      rintro rfl
      cases hc
    cases hspace : isSpaceJs c with
    | false => rfl
    | true =>
      simp only [isSpaceJs, Bool.or_eq_true, Bool.and_eq_true, decide_eq_true_eq, hne,
        or_false] at hspace
      omega
  · rcases isUnit_iff.mp hc with rfl | rfl | rfl | rfl <;> decide
  · decide

theorem blank_re2 : Blank isSpaceRE2 := by
  rintro c (hc | hc | rfl)
  · have := isDigit_iff.mp hc
    simp only [isSpaceRE2, Bool.or_eq_false_iff, decide_eq_false_iff_not]
    refine ⟨⟨⟨⟨?_, ?_⟩, ?_⟩, ?_⟩, ?_⟩
    · rintro rfl
      cases hc
    · rintro rfl
      cases hc
    · omega
    · rintro rfl
      cases hc
    · rintro rfl
      cases hc
  · rcases isUnit_iff.mp hc with rfl | rfl | rfl | rfl <;> decide
  · decide

theorem isSpace_digit (h : isDigit c = true) : isSpace c = false := by
  have hdigit := isDigit_iff.mp h
  have hblank : c ≠ ' ' := by
    rintro rfl
    cases h
  simp only [isSpace, Bool.or_eq_false_iff, Bool.and_eq_false_iff, decide_eq_false_iff_not, hblank,
    not_false_eq_true, and_true]
  omega

def plainLimit (count n : List Char) (unit : Char) : List Char := count ++ '/' :: (n ++ [unit])

variable {s : List Char}

theorem dropWhile_of_head {p : Char → Bool} (h : p c = false) : (c :: s).dropWhile p = c :: s := by
  simp [h]

variable {ds : List Char}

theorem takeWhile_digits (hds : ∀ d ∈ ds, isDigit d = true)
    (hc : isDigit c = false) : (ds ++ c :: s).takeWhile isDigit = ds := by
  rw [takeWhile_append_of_pos hds, takeWhile_cons_of_neg (by simp [hc]), append_nil]

theorem dropWhile_digits (hds : ∀ d ∈ ds, isDigit d = true)
    (hc : isDigit c = false) : (ds ++ c :: s).dropWhile isDigit = c :: s := by
  rw [dropWhile_append_of_pos hds, dropWhile_of_head hc]

/-- What a pattern can capture. -/
structure Captured (count n : List Char) (unit : Char) : Prop where
  count_ne : count ≠ []
  count_digits : ∀ d ∈ count, isDigit d = true
  n_ne : n ≠ []
  n_digits : ∀ d ∈ n, isDigit d = true
  isUnit : isUnit unit = true

variable {count n : List Char} {unit : Char}

theorem Captured.unit_not_digit (h : Captured count n unit) : isDigit unit = false := by
  rcases isUnit_iff.mp h.isUnit with rfl | rfl | rfl | rfl <;> decide

variable {space : Char → Bool}

theorem dropWhile_digits_of_blank (hblank : Blank space)
    (hds : ∀ d ∈ ds, isDigit d = true) (hne : ds ≠ []) :
    (ds ++ s).dropWhile space = ds ++ s := by
  obtain ⟨d, ds, rfl⟩ := exists_cons_of_ne_nil hne
  exact dropWhile_of_head (hblank d (.inl (hds d (mem_cons_self ..))))

theorem matchLimit_plain (hblank : Blank space) (h : Captured count n unit) :
    matchLimit space (plainLimit count n unit) = some (count, n, unit) := by
  have hslash : space '/' = false := hblank '/' (.inr (.inr rfl))
  have hunit : space unit = false := hblank unit (.inr (.inl h.isUnit))
  unfold matchLimit plainLimit
  rw [dropWhile_digits_of_blank hblank h.count_digits h.count_ne]
  simp only
  rw [takeWhile_digits h.count_digits (by decide), dropWhile_digits h.count_digits (by decide),
    dropWhile_of_head hslash]
  simp only
  rw [dropWhile_digits_of_blank hblank h.n_digits h.n_ne,
    takeWhile_digits h.n_digits h.unit_not_digit, dropWhile_digits h.n_digits h.unit_not_digit,
    dropWhile_of_head hunit]
  simp [h.count_ne, h.n_ne, h.isUnit]

theorem filter_dropWhile (s : List Char) :
    (s.dropWhile space).filter (fun c => !space c) = s.filter fun c => !space c := by
  induction s with
  | nil => rfl
  | cons c s ih =>
    by_cases hc : space c = true
    · rw [dropWhile_cons_of_pos hc, ih]
      simp [hc]
    · rw [dropWhile_cons_of_neg hc]

theorem filter_digits (hblank : Blank space) (s : List Char) : s.filter (fun c => !space c) =
      s.takeWhile isDigit ++ (s.dropWhile isDigit).filter fun c => !space c := by
  have hkept : (s.takeWhile isDigit).filter (fun c => !space c) = s.takeWhile isDigit := by
    refine filter_eq_self.mpr fun c hc => ?_
    rw [hblank c (.inl (mem_takeWhile_imp hc))]
    rfl
  conv_lhs => rw [← takeWhile_append_dropWhile (p := isDigit) (l := s)]
  rw [filter_append, hkept]

theorem matchLimit_some (hblank : Blank space) (h : matchLimit space s = some (count, n, unit)) :
    Captured count n unit ∧ s.filter (fun c => !space c) = plainLimit count n unit := by
  unfold matchLimit at h
  simp only at h
  split at h
  · rename_i rest hrest
    split at h
    · rename_i unit' tail hunit
      split at h
      · rename_i hall
        cases h
        obtain ⟨hcount, hn, hisUnit, htail⟩ := hall
        refine ⟨⟨hcount, fun d => mem_takeWhile_imp, hn, fun d => mem_takeWhile_imp, hisUnit⟩, ?_⟩
        have hslash : space '/' = false := hblank '/' (.inr (.inr rfl))
        have hspace : space unit = false := hblank unit (.inr (.inl hisUnit))
        -- white space is dropped piece by piece
        rw [← filter_dropWhile s, filter_digits hblank, ← filter_dropWhile (List.dropWhile _ _),
          hrest, filter_cons_of_pos (by simp [hslash]), ← filter_dropWhile rest,
          filter_digits hblank (List.dropWhile space rest), ← filter_dropWhile (List.dropWhile _ _),
          hunit, filter_cons_of_pos (by simp [hspace]), ← filter_dropWhile tail, htail]
        rfl
      · cases h
    · cases h
  · cases h

/-! ## Numbers -/

theorem roundBits_of_lt {n : Nat} (h : n < 2 ^ 53) : roundBits n = n := by
  have hlog : n.log2 - 52 = 0 := by
    have hlog : n.log2 < 53 := by
      by_cases hn : n = 0
      · subst hn
        decide
      · exact (Nat.log2_lt hn).mpr h
    omega
  simp [roundBits, hlog, Nat.mod_one]

theorem le_roundBits {n : Nat} (h : 2 ^ 53 ≤ n) : 2 ^ 53 ≤ roundBits n := by
  have hn : n ≠ 0 := by
    rintro rfl
    cases h
  have hlog : 53 ≤ n.log2 := (Nat.le_log2 hn).mpr h
  -- the significand keeps 53 bits
  have hpow : 2 ^ n.log2 ≤ n := Nat.log2_self_le hn
  have hsplit : 2 ^ n.log2 = 2 ^ 52 * 2 ^ (n.log2 - 52) := by
    rw [← Nat.pow_add]
    congr 1
    omega
  have hq : 2 ^ 52 ≤ n / 2 ^ (n.log2 - 52) := by
    rw [Nat.le_div_iff_mul_le (Nat.two_pow_pos _)]
    omega
  have hstep : 2 ≤ 2 ^ (n.log2 - 52) := by
    calc 2 = 2 ^ 1 := rfl
      _ ≤ 2 ^ (n.log2 - 52) := Nat.pow_le_pow_right (by decide) (by omega)
  have hround : 2 ^ 52 * 2 ≤ n / 2 ^ (n.log2 - 52) * 2 ^ (n.log2 - 52) := Nat.mul_le_mul hq hstep
  unfold roundBits
  simp only
  split
  · omega
  · rw [Nat.add_mul]
    omega

variable {m : Nat}

theorem roundBits_small {n : Nat} (h : roundBits n = m) (hm : m < 2 ^ 53) : n = m := by
  by_cases hn : n < 2 ^ 53
  · rw [← h, roundBits_of_lt hn]
  · have := le_roundBits (Nat.le_of_not_lt hn)
    omega

theorem ofNat_finite {n : Nat} (h : JsNumber.ofNat n = .finite m) : roundBits n = m := by
  unfold JsNumber.ofNat at h
  split at h
  · exact JsNumber.finite.inj h
  · cases h

theorem ofNat_of_lt {n : Nat} (h : n < 2 ^ 53) : JsNumber.ofNat n = .finite n := by
  have hlt : roundBits n < overflow := by
    rw [roundBits_of_lt h]
    exact Nat.lt_trans h (by decide +kernel)
  unfold JsNumber.ofNat
  rw [if_pos hlt, roundBits_of_lt h]

theorem mul_finite {n k : Nat} (hk : 0 < k) (h : (JsNumber.ofNat n).mul k = .finite m)
    (hm : m < 2 ^ 53) : n * k = m := by
  cases hr : JsNumber.ofNat n with
  | finite r =>
    rw [hr] at h
    have hprod := roundBits_small (ofNat_finite h) hm
    have hle : r ≤ r * k := Nat.le_mul_of_pos_right r hk
    rw [roundBits_small (ofNat_finite hr) (by omega), hprod]
  | infinity =>
    rw [hr] at h
    cases h

/-! ## One limit -/

def fitsDuration (text : String) : Bool :=
  match matchLimit isSpaceJs text.toList with
  | none => true
  | some (_, n, unit) => decide ((decimal n * unitSeconds unit : Int) * second ≤ maxInt64)

/-- A limit that registryd has read is the one of the web application, and its window in
nanoseconds is a 64-bit number. -/
def SameLimit : Option RateLimit → Limit → Prop
  | none, l => l = ⟨0, 0⟩
  | some r, l => l.count = r.count ∧ ∃ sec : Nat, r.windowSeconds = .finite sec ∧
      (sec : Int) * second ≤ maxInt64 ∧ l.window = sec * second

theorem unitDuration_eq (h : isUnit c = true) : unitDuration c = unitSeconds c * second := by
  rcases isUnit_iff.mp h with rfl | rfl | rfl | rfl <;> decide

theorem unitSeconds_pos (c : Char) : 0 < unitSeconds c := by
  unfold unitSeconds
  split
  · decide
  · split
    · decide
    · split <;> decide

variable {text : String}

theorem parseRateLimit_some {r : RateLimit} (h : parseRateLimit text = .ok (some r)) :
    ∃ count n unit, matchLimit isSpaceJs text.toList = some (count, n, unit) ∧
      decimal count = r.count ∧ r.count < 2 ^ 53 ∧ 0 < r.count ∧ 0 < decimal n ∧
      r.windowSeconds = (JsNumber.ofDigits n).mul (unitSeconds unit) := by
  unfold parseRateLimit at h
  split at h
  · cases h
  · split at h
    · cases h
    · rename_i count n unit hmatch
      split at h
      · cases h
      · rename_i c hcount
        split at h
        · cases h
        · rename_i hsafe
          split at h
          · cases h
          · rename_i hn
            cases h
            simp only [JsNumber.isSafeInteger, decide_eq_false_iff_not, not_or, not_not] at hsafe
            have hlt : c < 2 ^ 53 := by omega
            have hsmall : decimal count = c := roundBits_small (ofNat_finite hcount) hlt
            refine ⟨count, n, unit, hmatch, hsmall, hlt,
              Nat.pos_of_ne_zero hsafe.2, ?_, by dsimp only⟩
            by_contra hzero
            have hzero : decimal n = 0 := by omega
            refine hn ?_
            show JsNumber.ofNat (decimal n) = .finite 0
            rw [hzero]
            exact ofNat_of_lt (by decide)

theorem parseLimit_plain (h : Captured count n unit) :
    parseLimit (String.ofList (plainLimit count n unit)) =
      if (parseInt count).2 = false ∨ (parseInt count).1 ≤ 0 then
        .error (.count (String.ofList (plainLimit count n unit)))
      else if (parseInt n).1 ≤ 0 then
        .error (.window (String.ofList (plainLimit count n unit)))
      else .ok ⟨(parseInt count).1, int64 ((parseInt n).1 * unitDuration unit)⟩ := by
  have hnot : (plainLimit count n unit).all isSpace = false := by
    obtain ⟨d, ds, hcount⟩ := exists_cons_of_ne_nil h.count_ne
    have hd : isDigit d = true := h.count_digits d (hcount ▸ mem_cons_self ..)
    unfold plainLimit
    rw [hcount]
    simp [isSpace_digit hd]
  unfold parseLimit
  rw [String.toList_ofList, hnot, matchLimit_plain blank_re2 h]
  rfl

theorem parseInt_of_le (h : (decimal s : Int) ≤ maxInt64) :
    parseInt s = ((decimal s : Int), true) := by
  unfold parseInt
  rw [if_pos h]

theorem parseInt_pos (h : 0 < decimal s) : 0 < (parseInt s).1 := by
  unfold parseInt
  split
  · exact Int.natCast_pos.mpr h
  · decide

theorem int64_of_le {x : Int} (h0 : 0 ≤ x) (h : x ≤ maxInt64) : int64 x = x := by
  unfold int64
  unfold maxInt64 at h
  rw [Int.bmod_eq_of_le] <;> omega

/-- What registryd reads of a limit that the web application has accepted and stored: always
a limit, and the same one where the window is a 64-bit duration. -/
theorem parseLimit_stored {limit : Option RateLimit} (h : parseRateLimit text = .ok limit) :
    ∃ l, parseLimit (storedLimit limit text) = .ok l ∧
      (SameLimit limit l ↔ limit = none ∨ fitsDuration text = true) := by
  cases limit with
  | none =>
    refine ⟨⟨0, 0⟩, ?_, ?_⟩
    · rfl
    · exact ⟨fun _ => .inl rfl, fun _ => rfl⟩
  | some r =>
    obtain ⟨count, n, unit, hmatch, hcount, hlt, hpos, hn, hwindow⟩ := parseRateLimit_some h
    obtain ⟨hcaptured, hplain⟩ := matchLimit_some blank_js hmatch
    rw [JsNumber.ofDigits] at hwindow
    have hmax : ((2 : Int) ^ 53) ≤ maxInt64 := by decide
    have hc : (decimal count : Int) ≤ maxInt64 := by omega
    have hstored : storedLimit (some r) text = String.ofList (plainLimit count n unit) :=
      congrArg String.ofList hplain
    refine ⟨⟨decimal count, int64 ((parseInt n).1 * unitDuration unit)⟩, ?_, ?_⟩
    · have hnpos := parseInt_pos hn
      have hcount : ¬((((decimal count : Int), true).2 = false) ∨
          ((decimal count : Int), true).1 ≤ 0) := by
        simp only [Bool.true_eq_false, false_or]
        omega
      rw [hstored, parseLimit_plain hcaptured, parseInt_of_le hc, if_neg hcount, if_neg (by omega)]
    · have hunit := unitSeconds_pos unit
      have hsecond : second = 1000000000 := rfl
      simp only [reduceCtorEq, false_or, fitsDuration, hmatch, decide_eq_true_eq]
      rw [unitDuration_eq hcaptured.isUnit]
      constructor
      · rintro ⟨-, sec, hsec, hfits, -⟩
        have hsmall : sec < 2 ^ 53 := by
          rw [hsecond] at hfits
          unfold maxInt64 at hfits
          omega
        rw [hwindow] at hsec
        have hprod := mul_finite hunit hsec hsmall
        rw [← Int.natCast_mul, hprod]
        exact hfits
      · intro hfits
        have hle : (decimal n : Int) ≤ (decimal n * unitSeconds unit : Int) := by
          have := Nat.le_mul_of_pos_right (decimal n) hunit
          exact_mod_cast this
        have hN : (decimal n : Int) ≤ maxInt64 := by
          rw [hsecond] at hfits
          omega
        have hsmall : decimal n * unitSeconds unit < 2 ^ 53 := by
          rw [hsecond] at hfits
          unfold maxInt64 at hfits
          omega
        have hsmallN : decimal n < 2 ^ 53 := by omega
        refine ⟨congrArg Nat.cast hcount, decimal n * unitSeconds unit, ?_, ?_, ?_⟩
        · rw [hwindow, ofNat_of_lt hsmallN]
          exact ofNat_of_lt hsmall
        · rw [Int.natCast_mul]
          exact hfits
        · have hassoc : (decimal n : Int) * (unitSeconds unit * second) =
              decimal n * unitSeconds unit * second := (Int.mul_assoc _ _ _).symm
          rw [parseInt_of_le hN, Int.natCast_mul, hassoc]
          have hpos : 0 ≤ second := by
            rw [hsecond]
            omega
          have hnonneg : (0 : Int) ≤ decimal n * unitSeconds unit := by omega
          dsimp only
          exact int64_of_le (Int.mul_nonneg hnonneg hpos) hfits

end Chicoree.RateLimits
