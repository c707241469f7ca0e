import Chicoree.RateLimits.ProxyGrammar

/-! # Settings through both grammars

When the section that the form stores is read by registryd as it was meant, and when a limit
that registryd has read comes out of its own text again. -/

namespace Chicoree.RateLimits

open GoJson JsonDoc List CodePoints

/-! ## A limit and its text -/

theorem digits_toDigits (n : Nat) : ∀ c ∈ Nat.toDigits 10 n, isDigit c = true := by
  intro c hc
  have hdigit := Nat.isDigit_of_mem_toDigits (by decide) (by decide) hc
  simp only [Char.isDigit, Bool.and_eq_true, decide_eq_true_eq] at hdigit
  exact isDigit_iff.mpr hdigit

theorem decimal_toDigits (n : Nat) : decimal (Nat.toDigits 10 n) = n :=
  Nat.ofDigitChars_ten_toDigits

theorem toString_natCast (n : Nat) : toString (n : Int) = String.ofList (Nat.toDigits 10 n) :=
  Nat.toString_eq_ofList_toDigits

theorem formatWindow_natCast (w : Nat) : ∃ unit k, isUnit unit = true ∧ 0 < k ∧
    unitDuration unit = (k : Nat) ∧
    formatWindow w = String.ofList (Nat.toDigits 10 (w / k) ++ [unit]) ∧
    (second ∣ (w : Int) → k ∣ w) ∧ second ∣ unitDuration unit := by
  have hdiv : ∀ k : Nat, ((w : Int).tdiv k) = ((w / k : Nat) : Int) := fun k => rfl
  have hmod : ∀ k : Nat, (w : Int).tmod k = 0 → k ∣ w := by
    intro k hk
    exact Int.natCast_dvd_natCast.mp (Int.dvd_of_tmod_eq_zero hk)
  have htext : ∀ (k : Nat) (unit : Char) (u : String), u = String.ofList [unit] →
      toString ((w : Int).tdiv k) ++ u = String.ofList (Nat.toDigits 10 (w / k) ++ [unit]) := by
    intro k unit u hu
    rw [hdiv, toString_natCast, hu, String.ofList_append]
  have hday : (24 * hour : Int) = (86400000000000 : Nat) := rfl
  have hhour : hour = (3600000000000 : Nat) := rfl
  have hminute : minute = (60000000000 : Nat) := rfl
  have hsecond : second = (1000000000 : Nat) := rfl
  unfold formatWindow
  split
  · rename_i h
    rw [hday] at h ⊢
    exact ⟨'d', _, rfl, by decide, hday, htext _ 'd' "d" rfl, fun _ => hmod _ h, by decide⟩
  · split
    · rename_i h
      rw [hhour] at h ⊢
      exact ⟨'h', _, rfl, by decide, hhour, htext _ 'h' "h" rfl, fun _ => hmod _ h, by decide⟩
    · split
      · rename_i h
        rw [hminute] at h ⊢
        exact ⟨'m', _, rfl, by decide, hminute, htext _ 'm' "m" rfl, fun _ => hmod _ h, by decide⟩
      · rw [hsecond]
        exact ⟨'s', _, rfl, by decide, hsecond, htext _ 's' "s" rfl,
          fun h => Int.natCast_dvd_natCast.mp h, by decide⟩

theorem int64_le (x : Int) : int64 x ≤ maxInt64 := by
  have hlt : x.bmod (2 ^ 64) < ((2 ^ 64 : Nat) + 1) / 2 := Int.bmod_lt (by decide)
  unfold int64 maxInt64
  omega

theorem parseLimit_string {l : Limit} (hcount : 0 < l.count) (hmax : l.count ≤ maxInt64)
    (hwindow : l.window ≤ maxInt64) :
    parseLimit l.string = .ok l ↔ 0 < l.window ∧ second ∣ l.window := by
  by_cases hpos : 0 < l.window
  · have hzero : l.isZero = false := by
      simp only [Limit.isZero, Bool.or_eq_false_iff, decide_eq_false_iff_not]
      omega
    obtain ⟨c, w⟩ := l
    obtain ⟨c, rfl⟩ := Int.eq_ofNat_of_zero_le (Int.le_of_lt hcount)
    obtain ⟨w, rfl⟩ := Int.eq_ofNat_of_zero_le (Int.le_of_lt hpos)
    obtain ⟨unit, k, hunit, hk, hduration, hformat, hwhole, hsecond⟩ := formatWindow_natCast w
    have htext : Limit.string ⟨(c : Int), (w : Int)⟩ =
        String.ofList (plainLimit (Nat.toDigits 10 c) (Nat.toDigits 10 (w / k)) unit) := by
      unfold Limit.string
      rw [hzero, hformat, toString_natCast]
      simp [plainLimit, String.ofList_append, String.append_assoc]
    have hcaptured : Captured (Nat.toDigits 10 c) (Nat.toDigits 10 (w / k)) unit :=
      ⟨Nat.toDigits_ne_nil, digits_toDigits c, Nat.toDigits_ne_nil, digits_toDigits _, hunit⟩
    have hn : ((w / k : Nat) : Int) ≤ maxInt64 := by
      have := Nat.div_le_self w k
      dsimp only at hwindow
      omega
    have hparseCount : parseInt (Nat.toDigits 10 c) = ((c : Int), true) := by
      rw [parseInt_of_le (by rw [decimal_toDigits]; exact hmax), decimal_toDigits]
    have hparseN : parseInt (Nat.toDigits 10 (w / k)) = (((w / k : Nat) : Int), true) := by
      rw [parseInt_of_le (by rw [decimal_toDigits]; exact hn), decimal_toDigits]
    have hprod : w / k * k ≤ w := Nat.div_mul_le_self w k
    have hint : int64 (((w / k : Nat) : Int) * (k : Nat)) = ((w / k * k : Nat) : Int) := by
      rw [Int.natCast_mul]
      refine int64_of_le (Int.mul_nonneg (Int.natCast_nonneg _) (Int.natCast_nonneg _)) ?_
      rw [← Int.natCast_mul]
      dsimp only at hwindow
      omega
    have hc : ¬(((c : Int), true).2 = false ∨ ((c : Int), true).1 ≤ 0) := by
      dsimp only at hcount
      simp only [Bool.true_eq_false, false_or]
      omega
    rw [htext, parseLimit_plain hcaptured, hparseCount, if_neg hc, hparseN, hduration, hint]
    -- the number in the text times its unit is the window where the unit divides it
    by_cases hdvd : k ∣ w
    · have hexact : w / k * k = w := Nat.div_mul_cancel hdvd
      have hquot : 0 < w / k := by
        refine Nat.pos_of_ne_zero fun hthis => ?_
        rw [hthis, Nat.zero_mul] at hexact
        rw [← hexact] at hpos
        exact absurd hpos (Int.lt_irrefl 0)
      have hnpos : ¬(((w / k : Nat) : Int), true).1 ≤ 0 :=
        Int.not_le.mpr (Int.natCast_pos.mpr hquot)
      rw [if_neg hnpos, hexact]
      refine iff_of_true rfl ⟨hpos, ?_⟩
      exact Int.dvd_trans hsecond (hduration ▸ Int.natCast_dvd_natCast.mpr hdvd)
    · refine iff_of_false ?_ fun hthis => hdvd (hwhole hthis.2)
      split
      · intro hthis
        cases hthis
      · intro hthis
        have hsame : ((w / k * k : Nat) : Int) = w := congrArg Limit.window (Except.ok.inj hthis)
        exact hdvd ⟨w / k, by rw [Nat.mul_comm]; exact_mod_cast hsame.symm⟩
  · refine iff_of_false ?_ fun hthis => hpos hthis.1
    have hzero : l.isZero = true := by
      simp only [Limit.isZero, Bool.or_eq_true, decide_eq_true_eq]
      omega
    have htext : l.string = "" := by
      unfold Limit.string
      rw [if_pos hzero]
    rw [htext]
    intro hthis
    have hthis : (⟨0, 0⟩ : Limit) = l := Except.ok.inj hthis
    rw [← hthis] at hcount
    exact absurd hcount (by decide)

/-- The window that the text names is, in 64-bit arithmetic, a positive number of seconds. -/
def wholeWindow (s : String) : Bool :=
  s.toList.all isSpace ||
    match matchLimit isSpaceRE2 s.toList with
    | none => true
    | some (_, n, unit) =>
      decide (0 < int64 ((parseInt n).1 * unitDuration unit) ∧
        second ∣ int64 ((parseInt n).1 * unitDuration unit))

theorem parseLimit_round {s : String} {l : Limit} (h : parseLimit s = .ok l) :
    parseLimit l.string = .ok l ↔ wholeWindow s = true := by
  unfold parseLimit at h
  split at h
  · rename_i hblank
    cases h
    refine iff_of_true rfl ?_
    simp [wholeWindow, hblank]
  · rename_i hblank
    split at h
    · cases h
    · rename_i count n unit hmatch
      split at h
      · cases h
      · rename_i hcount
        split at h
        · cases h
        · cases h
          have hmax : (parseInt count).1 ≤ maxInt64 := by
            unfold parseInt
            split
            · assumption
            · exact Int.le_refl _
          have hpos : 0 < (parseInt count).1 := by
            simp only [not_or, Int.not_le] at hcount
            exact hcount.2
          have hround := parseLimit_string
            (l := ⟨(parseInt count).1, int64 ((parseInt n).1 * unitDuration unit)⟩)
            hpos hmax (int64_le _)
          rw [hround]
          simp [wholeWindow, hmatch, hblank]

theorem mapM_ok_iff {α β ε : Type} {f : α → Except ε β} {xs : List α} :
    (∃ ys, xs.mapM f = .ok ys) ↔ ∀ x ∈ xs, ∃ y, f x = .ok y := by
  induction xs with
  | nil => simp [pure, Except.pure]
  | cons x xs ih =>
    rw [forall_mem_cons, ← ih]
    constructor
    · rintro ⟨ys, h⟩
      rw [mapM_cons] at h
      cases hx : f x with
      | error e =>
        rw [hx] at h
        cases h
      | ok y =>
        cases hxs : xs.mapM f with
        | error e =>
          rw [hx, hxs] at h
          cases h
        | ok ys => exact ⟨⟨y, rfl⟩, ys, rfl⟩
    · rintro ⟨⟨y, hy⟩, ys, hys⟩
      refine ⟨y :: ys, ?_⟩
      rw [mapM_cons, hy, hys]
      rfl

theorem parseCIDRs_stored {text : String} (h : (parseTrustedProxies text).2 = none) :
    (∃ ps, parseCIDRs (joinEntries (parseTrustedProxies text).1) = .ok ps) ↔
      ∀ e ∈ (parseTrustedProxies text).1, wellFormedEntry e = true := by
  have hentries : ∀ e ∈ (parseTrustedProxies text).1, entryError e = none :=
    findSome?_eq_none_iff.mp h
  unfold parseCIDRs
  rw [fieldsFunc_stored, mapM_ok_iff]
  exact forall₂_congr fun e he => parseProxy_iff (hentries e he)

/-! ## The stored section -/

theorem fitsDuration_none {text : String} (h : parseRateLimit text = .ok none) :
    fitsDuration text = true := by
  unfold parseRateLimit at h
  split at h
  · rename_i hblank
    have hdrop : text.toList.dropWhile isSpaceJs = [] := by
      have hall := dropWhile_eq_nil_iff.mp (reverse_eq_nil_iff.mp hblank)
      rw [← dropWhile_idempotent (p := isSpaceJs)]
      exact dropWhile_eq_nil_iff.mpr fun c hc => hall c (mem_reverse.mpr hc)
    unfold fitsDuration matchLimit
    rw [hdrop]
    rfl
  · split at h
    · cases h
    · split at h
      · cases h
      · split at h
        · cases h
        · split at h <;> cases h

theorem saveRateLimitSettings_ok {fd : RateLimitForm} {kept : RateLimitSection}
    (h : saveRateLimitSettings fd = .ok kept) :
    ∃ anon auth, parseRateLimit (str fd.anonymous) = .ok anon ∧
      parseRateLimit (str fd.authenticated) = .ok auth ∧
      (parseTrustedProxies (str fd.trustedProxies)).2 = none ∧
      kept.anonymous = storedLimit anon (str fd.anonymous) ∧
      kept.authenticated = storedLimit auth (str fd.authenticated) ∧
      kept.trustedProxies = joinEntries (parseTrustedProxies (str fd.trustedProxies)).1 := by
  unfold saveRateLimitSettings at h
  split at h
  · cases h
  · rename_i anon hanon
    split at h
    · cases h
    · rename_i auth hauth
      split at h
      · cases h
      · rename_i entries hproxies
        split at h
        · cases h
        · split at h
          · cases h
          · cases h
            exact ⟨anon, auth, hanon, hauth, by rw [hproxies], rfl, rfl, by rw [hproxies]⟩

theorem configFromSettings_row (s : RateLimitSection) (defaults : Settings) :
    configFromSettings (some s.row) defaults =
      configOf ⟨s.anonymous, s.authenticated, s.trustedProxies⟩ := by
  have hpicked : ∀ field text, last? field [("anonymous", .str (ofString s.anonymous)),
      ("authenticated", .str (ofString s.authenticated)),
      ("trustedProxies", .str (ofString s.trustedProxies)),
      ("apiAnonymous", .str (ofString s.apiAnonymous)),
      ("apiAuthenticated", .str (ofString s.apiAuthenticated))] =
        some (.str (ofString text)) →
      ∀ dflt, pick [("anonymous", .str (ofString s.anonymous)),
        ("authenticated", .str (ofString s.authenticated)),
        ("trustedProxies", .str (ofString s.trustedProxies)),
        ("apiAnonymous", .str (ofString s.apiAnonymous)),
        ("apiAuthenticated", .str (ofString s.apiAuthenticated))] field dflt = text := by
    intro field text hlast dflt
    unfold pick
    rw [hlast]
    exact toText_ofString text
  unfold RateLimitSection.row configFromSettings effectiveSettings
  simp only
  rw [hpicked "anonymous" s.anonymous rfl, hpicked "authenticated" s.authenticated rfl,
    hpicked "trustedProxies" s.trustedProxies rfl]

/-- registryd reads the stored section without an error, and as the form was meant: the limits
with the same counts and the same windows, no window of which overflows, and the proxies. -/
def ReadAlike (fd : RateLimitForm) (s : RateLimitSection) (defaults : Settings) : Prop :=
  ∃ cfg anon auth, configFromSettings (some s.row) defaults = .ok cfg ∧
    parseLimit s.anonymous = .ok cfg.anonymous ∧
    parseLimit s.authenticated = .ok cfg.authenticated ∧
    parseCIDRs s.trustedProxies = .ok cfg.trustedProxies ∧
    parseRateLimit (str fd.anonymous) = .ok anon ∧ SameLimit anon cfg.anonymous ∧
    parseRateLimit (str fd.authenticated) = .ok auth ∧ SameLimit auth cfg.authenticated

/-- **The condition**: the windows are 64-bit durations, and the entries well-formed. -/
def readable (fd : RateLimitForm) : Bool :=
  fitsDuration (str fd.anonymous) && fitsDuration (str fd.authenticated) &&
    (parseTrustedProxies (str fd.trustedProxies)).1.all wellFormedEntry

theorem stored_limit_iff {text : String} {limit : Option RateLimit}
    (h : parseRateLimit text = .ok limit) :
    ∃ l, parseLimit (storedLimit limit text) = .ok l ∧
      (SameLimit limit l ↔ fitsDuration text = true) := by
  obtain ⟨l, hl, hiff⟩ := parseLimit_stored h
  refine ⟨l, hl, hiff.trans ⟨fun hthis => ?_, .inr⟩⟩
  rcases hthis with rfl | hthis
  · exact fitsDuration_none h
  · exact hthis

/-- **The two grammars.** An accepted form is stored so that registryd reads it as it was
meant, exactly where its windows are 64-bit durations and its entries well-formed; a limit that
registryd has read comes out of its text again exactly where its window is whole. -/
theorem grammars_agree_iff (fd : RateLimitForm) (s : RateLimitSection) (defaults : Settings)
    (text : String) (l : Limit) (hsaved : saveRateLimitSettings fd = .ok s)
    (hread : parseLimit text = .ok l) :
    (ReadAlike fd s defaults ↔ readable fd = true) ∧
    (parseLimit l.string = .ok l ↔ wholeWindow text = true) := by
  refine ⟨?_, parseLimit_round hread⟩
  obtain ⟨anon, auth, hanon, hauth, hproxies, hsanon, hsauth, hsproxies⟩ :=
    saveRateLimitSettings_ok hsaved
  obtain ⟨la, hla, haiff⟩ := stored_limit_iff hanon
  obtain ⟨lu, hlu, huiff⟩ := stored_limit_iff hauth
  have hlist := parseCIDRs_stored hproxies
  rw [← hsproxies] at hlist
  rw [← hsanon] at hla
  rw [← hsauth] at hlu
  simp only [readable, Bool.and_eq_true, all_eq_true]
  constructor
  · rintro ⟨cfg, anon', auth', -, hca, hcu, hcp, ha', hsa, hu', hsu⟩
    cases hanon.symm.trans ha'
    cases hauth.symm.trans hu'
    cases hla.symm.trans hca
    cases hlu.symm.trans hcu
    exact ⟨⟨haiff.mp hsa, huiff.mp hsu⟩, hlist.mp ⟨_, hcp⟩⟩
  · rintro ⟨⟨hfa, hfu⟩, hentries⟩
    obtain ⟨ps, hps⟩ := hlist.mpr hentries
    refine ⟨⟨la, lu, ps⟩, anon, auth, ?_, hla, hlu, hps, hanon, haiff.mpr hfa, hauth, huiff.mpr hfu⟩
    rw [configFromSettings_row, configOf, hla, hlu, hps]

/-! ## Two forms -/

def plainForm : RateLimitForm :=
  ⟨" 100 / 6h", "", "10.0.0.0/8; 192.168.1.5\nfd00::/8", "60/1m", ""⟩

theorem grammars_agree_plain :
    ReadAlike plainForm ⟨"100/6h", "", "10.0.0.0/8, 192.168.1.5, fd00::/8", "60/1m", ""⟩
      ⟨"", "", ""⟩ ∧
    parseLimit (Limit.string ⟨7, 90 * second⟩) = .ok ⟨7, 90 * second⟩ := by
  have hsaved : saveRateLimitSettings plainForm =
      .ok ⟨"100/6h", "", "10.0.0.0/8, 192.168.1.5, fd00::/8", "60/1m", ""⟩ := by decide +kernel
  have hread : parseLimit "7/90s" = .ok ⟨7, 90 * second⟩ := by decide +kernel
  have hboth := grammars_agree_iff plainForm _ ⟨"", "", ""⟩ "7/90s" _ hsaved hread
  exact ⟨hboth.1.mpr (by decide +kernel), hboth.2.mpr (by decide +kernel)⟩

/-- 106752 days are no 64-bit duration: the form takes the limit, registryd reads a window
below zero, which is no limit at all. -/
theorem long_window_unlimited : ∃ fd s, saveRateLimitSettings fd = .ok s ∧
    ¬ ReadAlike fd s ⟨"", "", ""⟩ ∧
    ∃ l, parseLimit s.anonymous = .ok l ∧ l.isZero = true := by
  refine ⟨⟨"100/106752d", "", "", "", ""⟩, ⟨"100/106752d", "", "", "", ""⟩, by decide +kernel,
    ?_, ⟨100, -9223371273709551616⟩, by decide +kernel, by decide⟩
  rintro ⟨⟨la, lu, ps⟩, anon, -, -, hca, -, -, hanon, hsame, -, -⟩
  have hread : parseLimit "100/106752d" = .ok ⟨100, -9223371273709551616⟩ := by decide +kernel
  have hform : parseRateLimit (str "100/106752d") = .ok (some ⟨100, .finite 9223372800⟩) := by
    decide +kernel
  cases hread.symm.trans hca
  cases hform.symm.trans hanon
  obtain ⟨-, sec, hsec, hfits, -⟩ := hsame
  cases hsec
  exact absurd hfits (by decide)

end Chicoree.RateLimits
