import Chicoree.Lib.Trimming
import Chicoree.RateLimits.LimitGrammar
import Chicoree.RateLimits.PeerAddress

/-! # Range headers

`parseRange` of `ranges.go`: a single range of bytes, read with blanks allowed between its
parts. What it reads is compared with the ranges of RFC 9110: from a first to a last position,
from a first position on, or the last bytes. -/

namespace Chicoree.Ranges

open List
open RateLimits (isDigit decimal isSpace isSpace_digit trimSpace int64)

/-! ## The parser -/

inductive RangeStatus where
  /-- Absent or ignored: the whole blob is served. -/
  | none
  | ok (offset length : Int)
  | unsatisfiable
deriving DecidableEq

/-- `strings.Cut` at a character. -/
def cut (sep : Char) (s : List Char) : Option (List Char × List Char) :=
  if sep ∈ s then some (s.takeWhile (· ≠ sep), (s.dropWhile (· ≠ sep)).tail) else none

/-- The letter of ASCII a character folds to; the Kelvin sign and the long s fold to one, too. -/
def fold (c : Char) : Char :=
  if c.toNat = 0x212A then 'k' else if c.toNat = 0x17F then 's' else c.toLower

/-- `strings.EqualFold` with a text of lower-case letters of ASCII. -/
def equalFold (s : List Char) (lower : String) : Bool := decide (s.map fold = lower.toList)

/-- `strconv.ParseInt(s, 10, 64)`; `none` for an error. -/
def parseInt (s : List Char) : Option Int :=
  let neg := decide (s.head? = some '-')
  let digits := if s.head? = some '-' ∨ s.head? = some '+' then s.tail else s
  if digits = [] ∨ digits.all isDigit = false then Option.none
  else if neg then if decimal digits ≤ 2 ^ 63 then some (-(decimal digits : Int)) else Option.none
  else if decimal digits < 2 ^ 63 then some (decimal digits : Int) else Option.none

def rangePositions (header : String) : Option (List Char × List Char) :=
  match cut '=' (trimSpace header.toList) with
  | Option.none => Option.none
  | some (unit, spec) =>
    if equalFold (trimSpace unit) "bytes" = false then Option.none
    else
      let spec := trimSpace spec
      if spec = [] ∨ ',' ∈ spec then Option.none
      else (cut '-' spec).map fun ends => (trimSpace ends.1, trimSpace ends.2)

section arithmetic

variable {m : Type → Type} [Monad m] (arith : Int → m Int)

def suffixRange (last : List Char) (size : Int) : m RangeStatus :=
  match parseInt last with
  | Option.none => pure .none
  | some n =>
    if n ≤ 0 ∨ size ≤ 0 then pure .unsatisfiable
    else
      let n := if size < n then size else n
      do
        let offset ← arith (size - n)
        pure (.ok offset n)

def boundedRange (start last size : Int) : m RangeStatus :=
  if size ≤ start then pure .unsatisfiable
  else do
    let span ← arith (last - start)
    let length ← arith (span + 1)
    pure (.ok start length)

def startRange (first last : List Char) (size : Int) : m RangeStatus :=
  match parseInt first with
  | Option.none => pure .none
  | some start =>
    if start < 0 then pure .none
    else do
      let final ← arith (size - 1)
      if last = [] then boundedRange arith start final size
      else
        match parseInt last with
        | Option.none => pure .none
        | some stop =>
          if stop < start then pure .none
          else boundedRange arith start (if final < stop then final else stop) size

def selectRange (first last : List Char) (size : Int) : m RangeStatus :=
  if first = [] then if last = [] then pure .none else suffixRange arith last size
  else startRange arith first last size

/-- `parseRange` with a notion of what arithmetic on 64-bit numbers does. -/
def parseRangeBy (header : String) (size : Int) : m RangeStatus :=
  match rangePositions header with
  | Option.none => pure .none
  | some (first, last) => selectRange arith first last size

end arithmetic

/-- Arithmetic on 64-bit numbers wraps around. -/
def wrapping (x : Int) : Id Int := int64 x

/-- Arithmetic that stops where it would wrap around. -/
def checking (x : Int) : Option Int :=
  if -(2 ^ 63) ≤ x ∧ x < 2 ^ 63 then some x else Option.none

def parseRange (header : String) (size : Int) : RangeStatus :=
  parseRangeBy wrapping header size

/-- A range of RFC 9110: between two positions, from a position on, or the last bytes. -/
inductive RangeSpec where
  | between (first last : Nat)
  | onward (first : Nat)
  | suffix (length : Nat)

/-- The bytes that a range selects of a blob. -/
def RangeSpec.Selects (size : Nat) (i : Nat) : RangeSpec → Prop
  | .between first last => i < size ∧ first ≤ i ∧ i ≤ last
  | .onward first => i < size ∧ first ≤ i
  | .suffix length => i < size ∧ size ≤ i + length

def Blank (s : List Char) : Prop := ∀ c ∈ s, isSpace c = true

/-- Digits that name a 64-bit number. -/
def IsDecimal (s : List Char) (n : Nat) : Prop :=
  s ≠ [] ∧ (∀ c ∈ s, isDigit c = true) ∧ decimal s = n ∧ n < 2 ^ 63

/-- What stands around the minus sign of a range. -/
def Reads (first last : List Char) : RangeSpec → Prop
  | .between a b => IsDecimal first a ∧ IsDecimal last b ∧ a ≤ b
  | .onward a => IsDecimal first a ∧ last = []
  | .suffix n => first = [] ∧ IsDecimal last n

/-- A header with a range of bytes, with blanks around each of its parts. -/
def Writes (header first last : List Char) : Prop :=
  ∃ a unit b c d e f : List Char, Blank a ∧ Blank b ∧ Blank c ∧ Blank d ∧ Blank e ∧ Blank f ∧
    equalFold unit "bytes" = true ∧
    header = a ++ unit ++ b ++ '=' :: (c ++ first ++ d ++ '-' :: (e ++ last ++ f))

/-- The header is well formed and denotes a range. -/
def Denotes (header : String) (r : RangeSpec) : Prop :=
  ∃ first last, Writes header.toList first last ∧ Reads first last r

/-- The positions are written without a sign. -/
def Unsigned (header : String) : Prop :=
  ∀ first last, rangePositions header = some (first, last) →
    ∀ sign ∈ ['+', '-'], first.head? ≠ some sign ∧ last.head? ≠ some sign

section blanks

variable {s a b u v : List Char} {c : Char}

def trimRight (s : List Char) : List Char := (s.reverse.dropWhile isSpace).reverse

theorem trimSpace_around (hc : isSpace c = false) (u v : List Char) :
    trimSpace (u ++ c :: v) = u.dropWhile isSpace ++ c :: trimRight v :=
  Trimming.trim_around hc u v

theorem exists_trimSpace (s : List Char) : ∃ a b, Blank a ∧ Blank b ∧ s = a ++ trimSpace s ++ b :=
  Trimming.exists_trim isSpace s

theorem trimSpace_between (ha : Blank a) (hb : Blank b) (hs : ∀ c ∈ s, isSpace c = false) :
    trimSpace (a ++ s ++ b) = s :=
  Trimming.trim_between ha hb hs

theorem trimSpace_dropWhile (s : List Char) : trimSpace (s.dropWhile isSpace) = trimSpace s :=
  Trimming.trim_dropWhile s

theorem trimSpace_trimRight (s : List Char) : trimSpace (trimRight s) = trimSpace s :=
  Trimming.trim_trimRight s

end blanks

/-! ## Reading the positions -/

section positions

variable {s u v first last unit : List Char} {sep : Char} {header : String} {r : RangeSpec} {n : Nat}

theorem cut_eq_some (hu : sep ∉ u) (v : List Char) : cut sep (u ++ sep :: v) = some (u, v) := by
  have hne (c : Char) (hc : c ∈ u) : decide (c ≠ sep) = true := by
    refine decide_eq_true fun heq => hu ?_
    rw [← heq]
    exact hc
  unfold cut
  rw [if_pos (by simp), takeWhile_append_of_pos hne, dropWhile_append_of_pos hne]
  simp

theorem eq_of_cut (h : cut sep s = some (u, v)) : s = u ++ sep :: v := by
  unfold cut at h
  split at h
  · rename_i hmem
    cases h
    have hsplit := (takeWhile_append_dropWhile (p := fun c => decide (c ≠ sep)) (l := s)).symm
    cases hdrop : s.dropWhile fun c => decide (c ≠ sep) with
    | nil =>
      rw [hdrop, append_nil] at hsplit
      rw [hsplit] at hmem
      exact absurd (mem_takeWhile_imp hmem) (by simp)
    | cons c t =>
      have hc := head?_dropWhile_not (fun c => decide (c ≠ sep)) s
      rw [hdrop] at hc
      simp only [head?_cons, decide_eq_false_iff_not, not_not] at hc
      rw [hdrop, hc] at hsplit
      exact hsplit
  · cases h

theorem writes_of_positions (h : rangePositions header = some (first, last)) :
    Writes header.toList first last := by
  unfold rangePositions at h
  cases hcut : cut '=' (trimSpace header.toList) with
  | none => simp [hcut] at h
  | some halves =>
    obtain ⟨left, spec⟩ := halves
    simp only [hcut] at h
    split at h
    · cases h
    · rename_i hunit
      rw [Bool.not_eq_false] at hunit
      split at h
      · cases h
      · obtain ⟨ends, hends, heq⟩ := Option.map_eq_some_iff.mp h
        obtain ⟨rfl, rfl⟩ := Prod.mk.inj heq
        obtain ⟨a, f, ha, hf, hheader⟩ := exists_trimSpace header.toList
        obtain ⟨a', b, ha', hb, hleft⟩ := exists_trimSpace left
        obtain ⟨c, f', hc, hf', hspec⟩ := exists_trimSpace spec
        obtain ⟨c', d, hc', hd, hfirst⟩ := exists_trimSpace ends.1
        obtain ⟨e, f'', he, hf'', hlast⟩ := exists_trimSpace ends.2
        have hblank {x y : List Char} (hx : Blank x) (hy : Blank y) : Blank (x ++ y) := by
          intro z hz
          rcases mem_append.mp hz with hz | hz
          · exact hx z hz
          · exact hy z hz
        refine ⟨a ++ a', trimSpace left, b, c ++ c', d, e, f'' ++ f' ++ f, hblank ha ha', hb,
          hblank hc hc', hd, he, hblank (hblank hf'' hf') hf, hunit, ?_⟩
        have hends : trimSpace spec = ends.1 ++ '-' :: ends.2 := eq_of_cut hends
        rw [hheader, eq_of_cut hcut]
        conv_lhs => rw [hleft, hspec, hends, hfirst, hlast]
        simp only [append_assoc, cons_append]

theorem fold_eq_self {c : Char} (h : c.toNat < 65 ∨ 123 ≤ c.toNat) (hkelvin : c.toNat ≠ 0x212A)
    (hlong : c.toNat ≠ 0x17F) : fold c = c := by
  unfold fold
  rw [if_neg hkelvin, if_neg hlong]
  unfold Char.toLower
  rw [dif_neg]
  rintro ⟨hlow, hhigh⟩
  have hlow : 65 ≤ c.toNat := hlow
  have hhigh : c.toNat ≤ 90 := hhigh
  omega

theorem isSpace_not_letter {c : Char} (h : isSpace c = true) :
    (c.toNat < 65 ∨ 123 ≤ c.toNat) ∧ c.toNat ≠ 0x212A ∧ c.toNat ≠ 0x17F := by
  have hblank : ' '.toNat = 32 := rfl
  unfold isSpace at h
  simp only [Bool.or_eq_true, Bool.and_eq_true, decide_eq_true_eq] at h
  rcases h with (((((((((h | rfl) | h) | h) | h) | h) | h) | h) | h) | h) | h
  all_goals omega

theorem isSpace_unit (hunit : equalFold unit "bytes" = true) {c : Char} (hc : c ∈ unit) :
    isSpace c = false ∧ c ≠ '=' := by
  have hletter : fold c ∈ "bytes".toList := by
    rw [← of_decide_eq_true hunit]
    exact mem_map_of_mem hc
  have hself (hplain : fold c = c) : isSpace c = false ∧ c ≠ '=' := by
    rw [hplain] at hletter
    have hcases : c = 'b' ∨ c = 'y' ∨ c = 't' ∨ c = 'e' ∨ c = 's' := by simpa using hletter
    rcases hcases with rfl | rfl | rfl | rfl | rfl <;> exact ⟨by decide, by decide⟩
  constructor
  · by_contra hspace
    rw [Bool.not_eq_false] at hspace
    have hplain := isSpace_not_letter hspace
    rw [(hself (fold_eq_self hplain.1 hplain.2.1 hplain.2.2)).1] at hspace
    cases hspace
  · rintro rfl
    exact (hself (fold_eq_self (by decide) (by decide) (by decide))).2 rfl

theorem positions_of_writes (hfirst : ∀ c ∈ first, isDigit c = true)
    (hlast : ∀ c ∈ last, isDigit c = true) (h : Writes header.toList first last) :
    rangePositions header = some (first, last) := by
  obtain ⟨a, unit, b, c, d, e, f, ha, hb, hc, hd, he, hf, hunit, hheader⟩ := h
  have hblank {x : List Char} {y : Char} (hx : Blank x) (hy : isSpace y = false) : y ∉ x := by
    intro hmem
    rw [hx y hmem] at hy
    cases hy
  have hdigit {x : List Char} {y : Char} (hx : ∀ z ∈ x, isDigit z = true) (hy : isDigit y = false) :
      y ∉ x := by
    intro hmem
    rw [hx y hmem] at hy
    cases hy
  have hnoEq : '=' ∉ a ++ unit ++ b := by
    simp only [mem_append, not_or]
    exact ⟨⟨hblank ha (by decide), fun hmem => (isSpace_unit hunit hmem).2 rfl⟩,
      hblank hb (by decide)⟩
  have hnoMinus : '-' ∉ c ++ first ++ d := by
    simp only [mem_append, not_or]
    exact ⟨⟨hblank hc (by decide), hdigit hfirst (by decide)⟩, hblank hd (by decide)⟩
  have hdropped {x : List Char} {y : Char} (h : y ∉ x) : y ∉ x.dropWhile isSpace :=
    fun hmem => h ((dropWhile_sublist _).subset hmem)
  -- the equals sign and the minus sign stay where they are
  have hleft : cut '=' (trimSpace header.toList) = some ((a ++ unit ++ b).dropWhile isSpace,
      trimRight (c ++ first ++ d ++ '-' :: (e ++ last ++ f))) := by
    rw [hheader, trimSpace_around (by decide)]
    exact cut_eq_some (hdropped hnoEq) _
  have hspec : trimSpace (trimRight (c ++ first ++ d ++ '-' :: (e ++ last ++ f))) =
      (c ++ first ++ d).dropWhile isSpace ++ '-' :: trimRight (e ++ last ++ f) := by
    rw [trimSpace_trimRight, trimSpace_around (by decide)]
  have hright : cut '-' (trimSpace (trimRight (c ++ first ++ d ++ '-' :: (e ++ last ++ f)))) =
      some ((c ++ first ++ d).dropWhile isSpace, trimRight (e ++ last ++ f)) := by
    rw [hspec]
    exact cut_eq_some (hdropped hnoMinus) _
  have hword : trimSpace ((a ++ unit ++ b).dropWhile isSpace) = unit := by
    rw [trimSpace_dropWhile]
    exact trimSpace_between ha hb fun x hx => (isSpace_unit hunit hx).1
  have hcomma : ',' ∉ trimSpace (trimRight (c ++ first ++ d ++ '-' :: (e ++ last ++ f))) := by
    rw [trimSpace_trimRight]
    intro hmem
    obtain ⟨x, y, -, -, hsplit⟩ := exists_trimSpace (c ++ first ++ d ++ '-' :: (e ++ last ++ f))
    have hthere : ',' ∈ c ++ first ++ d ++ '-' :: (e ++ last ++ f) := by
      rw [hsplit]
      exact mem_append_left _ (mem_append_right _ hmem)
    simp only [mem_append, mem_cons] at hthere
    rcases hthere with ((hthere | hthere) | hthere) | hthere | (hthere | hthere) | hthere
    · exact hblank hc (by decide) hthere
    · exact hdigit hfirst (by decide) hthere
    · exact hblank hd (by decide) hthere
    · cases hthere
    · exact hblank he (by decide) hthere
    · exact hdigit hlast (by decide) hthere
    · exact hblank hf (by decide) hthere
  have hnonempty : trimSpace (trimRight (c ++ first ++ d ++ '-' :: (e ++ last ++ f))) ≠ [] := by
    rw [hspec]
    simp
  unfold rangePositions
  rw [hleft]
  simp only [hword, hunit]
  rw [if_neg (by simp), if_neg (not_or.mpr ⟨hnonempty, hcomma⟩), hright, Option.map_some,
    trimSpace_dropWhile, trimSpace_trimRight,
    trimSpace_between hc hd fun x hx => isSpace_digit (hfirst x hx),
    trimSpace_between he hf fun x hx => isSpace_digit (hlast x hx)]

end positions

section selection

variable {first last s : List Char} {size : Nat} {start stop : Int} {r r' : RangeSpec}

theorem parseInt_unsigned (hs : s ≠ [])
    (hsign : ∀ sign ∈ ['+', '-'], s.head? ≠ some sign) {n : Int} :
    parseInt s = some n ↔ ∃ m : Nat, n = m ∧ IsDecimal s m := by
  have hplus := hsign '+' (by decide)
  have hminus := hsign '-' (by decide)
  unfold parseInt
  simp only [hminus, hplus, decide_false, or_self, if_false, hs, false_or]
  by_cases hdigits : s.all isDigit = true
  · have hall : ∀ c ∈ s, isDigit c = true := all_eq_true.mp hdigits
    rw [if_neg (by simp [hdigits])]
    by_cases hlt : decimal s < 2 ^ 63
    · rw [if_neg (by simp), if_pos hlt]
      constructor
      · intro h
        exact ⟨decimal s, (Option.some.inj h).symm, hs, hall, rfl, hlt⟩
      · rintro ⟨m, rfl, -, -, rfl, -⟩
        rfl
    · rw [if_neg (by simp), if_neg hlt]
      constructor
      · intro h
        cases h
      · rintro ⟨m, -, -, -, rfl, hm⟩
        exact absurd hm hlt
  · rw [if_pos (by simpa using hdigits)]
    constructor
    · intro h
      cases h
    · rintro ⟨m, -, -, hall, -⟩
      exact absurd (all_eq_true.mpr hall) hdigits

def exactly (x : Int) : Id Int := x

section exact

variable {m : Type → Type} [Monad m] [LawfulMonad m] {arith : Int → m Int}
  (harith : ∀ x : Int, -(2 ^ 63) ≤ x → x < 2 ^ 63 → arith x = pure x)

include harith

theorem boundedRange_exact (hstart : 0 ≤ start) (hstop : -1 ≤ stop) (hsize : size < 2 ^ 63)
    (hlast : stop < size) :
    boundedRange arith start stop size =
      pure (if (size : Int) ≤ start then .unsatisfiable else .ok start (stop - start + 1)) := by
  unfold boundedRange
  by_cases hpast : (size : Int) ≤ start
  · rw [if_pos hpast, if_pos hpast]
  · rw [if_neg hpast, if_neg hpast, harith (stop - start) (by omega) (by omega), pure_bind,
      harith (stop - start + 1) (by omega) (by omega), pure_bind]

theorem suffixRange_exact (hsize : size < 2 ^ 63) : suffixRange arith last size =
    pure (suffixRange exactly last size) := by
  unfold suffixRange
  cases parseInt last with
  | none => rfl
  | some n =>
    simp only
    by_cases hnone : n ≤ 0 ∨ (size : Int) ≤ 0
    · rw [if_pos hnone, if_pos hnone]
      rfl
    · rw [if_neg hnone, if_neg hnone]
      split
      · rw [harith _ (by omega) (by omega), pure_bind]
        rfl
      · rw [harith _ (by omega) (by omega), pure_bind]
        rfl

theorem startRange_exact (hsize : size < 2 ^ 63) : startRange arith first last size =
    pure (startRange exactly first last size) := by
  have hid (x : Int) (_ : -(2 ^ 63) ≤ x) (_ : x < 2 ^ 63) : exactly x = pure x := rfl
  unfold startRange
  cases parseInt first with
  | none => rfl
  | some start =>
    simp only
    by_cases hneg : start < 0
    · rw [if_pos hneg, if_pos hneg]
      rfl
    · rw [if_neg hneg, if_neg hneg, harith (size - 1) (by omega) (by omega), pure_bind]
      show _ = pure (if last = [] then boundedRange exactly start (size - 1) size
        else _)
      by_cases hlast : last = []
      · rw [if_pos hlast, if_pos hlast,
          boundedRange_exact harith (by omega) (by omega) hsize (by omega),
          boundedRange_exact hid (by omega) (by omega) hsize (by omega)]
        rfl
      · rw [if_neg hlast, if_neg hlast]
        cases parseInt last with
        | none => rfl
        | some stop =>
          simp only
          by_cases hbefore : stop < start
          · rw [if_pos hbefore, if_pos hbefore]
            rfl
          · have hfinal : (if (size : Int) - 1 < stop then (size : Int) - 1 else stop) < size := by
              split <;> omega
            have hlow : -1 ≤ (if (size : Int) - 1 < stop then (size : Int) - 1 else stop) := by
              split <;> omega
            rw [if_neg hbefore, if_neg hbefore,
              boundedRange_exact harith (by omega) hlow hsize hfinal]
            show _ = pure (boundedRange exactly start
              (if (size : Int) - 1 < stop then (size : Int) - 1 else stop) size)
            rw [boundedRange_exact hid (by omega) hlow hsize hfinal]
            rfl

theorem parseRangeBy_exact (header : String) (hsize : size < 2 ^ 63) :
    parseRangeBy arith header size = pure (parseRangeBy exactly header size) := by
  unfold parseRangeBy
  cases rangePositions header with
  | none => rfl
  | some ends =>
    obtain ⟨first, last⟩ := ends
    simp only [selectRange]
    by_cases hfirst : first = []
    · rw [if_pos hfirst, if_pos hfirst]
      by_cases hlast : last = []
      · rw [if_pos hlast, if_pos hlast]
        rfl
      · rw [if_neg hlast, if_neg hlast]
        exact suffixRange_exact harith hsize
    · rw [if_neg hfirst, if_neg hfirst]
      exact startRange_exact harith hsize

end exact

/-! ### What is served -/

/-- An answer serves the bytes of a range. -/
def Serves (size : Nat) (r : RangeSpec) : RangeStatus → Prop
  | .none => False
  | .ok offset length => 0 ≤ offset ∧ 1 ≤ length ∧ offset + length ≤ size ∧
      ∀ i : Nat, r.Selects size i ↔ offset ≤ i ∧ i < offset + length
  | .unsatisfiable => ∀ i, ¬ r.Selects size i

def ServesRead (size : Nat) (first last : List Char) (status : RangeStatus) : Prop :=
  (∃ r, Reads first last r ∧ Serves size r status) ∨ (status = .none ∧ ∀ r, ¬ Reads first last r)

theorem IsDecimal.unique {n n' : Nat} (h : IsDecimal s n) (h' : IsDecimal s n') : n = n' :=
  h.2.2.1.symm.trans h'.2.2.1

theorem Reads.unique (h : Reads first last r) (h' : Reads first last r') : r = r' := by
  cases r with
  | between a b =>
    obtain ⟨ha, hb, -⟩ := h
    cases r' with
    | between a' b' =>
      obtain ⟨ha', hb', -⟩ := h'
      rw [ha.unique ha', hb.unique hb']
    | onward a' => exact absurd h'.2 hb.1
    | suffix n' => exact absurd h'.1 ha.1
  | onward a =>
    obtain ⟨ha, hlast⟩ := h
    cases r' with
    | between a' b' => exact absurd hlast h'.2.1.1
    | onward a' => rw [ha.unique h'.1]
    | suffix n' => exact absurd h'.1 ha.1
  | suffix n =>
    obtain ⟨hfirst, hn⟩ := h
    cases r' with
    | between a' b' | onward a' => exact absurd hfirst h'.1.1
    | suffix n' => rw [hn.unique h'.2]

theorem Serves.bounds {offset length : Int} (h : Serves size r (.ok offset length)) :
    ∃ low high : Nat, offset = low ∧ offset + length = high + 1 ∧ r.Selects size low ∧
      r.Selects size high := by
  obtain ⟨h0, h1, -, hselects⟩ := h
  refine ⟨offset.toNat, (offset + length - 1).toNat, by omega, by omega, ?_, ?_⟩
  · exact (hselects _).mpr ⟨by omega, by omega⟩
  · exact (hselects _).mpr ⟨by omega, by omega⟩

theorem Serves.unique {status status' : RangeStatus} (h : Serves size r status)
    (h' : Serves size r status') : status = status' := by
  cases status with
  | none => exact h.elim
  | unsatisfiable =>
    cases status' with
    | none => exact h'.elim
    | unsatisfiable => rfl
    | ok offset length =>
      obtain ⟨low, -, -, -, hlow, -⟩ := h'.bounds
      exact absurd hlow (h low)
  | ok offset length =>
    obtain ⟨low, high, hoffset, hend, hlow, hhigh⟩ := h.bounds
    cases status' with
    | none => exact h'.elim
    | unsatisfiable => exact absurd hlow (h' low)
    | ok offset' length' =>
      obtain ⟨low', high', hoffset', hend', hlow', hhigh'⟩ := h'.bounds
      have hfirst := ((h'.2.2.2 low).mp hlow).1
      have hfirst' := ((h.2.2.2 low').mp hlow').1
      have hlast := ((h'.2.2.2 high).mp hhigh).2
      have hlast' := ((h.2.2.2 high').mp hhigh').2
      rw [show offset = offset' by omega, show length = length' by omega]

section unsigned

variable (hsign : ∀ sign ∈ ['+', '-'], first.head? ≠ some sign ∧ last.head? ≠ some sign)

include hsign

theorem suffixRange_serves (hlast : last ≠ []) :
    ServesRead size [] last (suffixRange exactly last size) := by
  have hnumber {n : Int} := parseInt_unsigned (n := n) hlast fun sign h => (hsign sign h).2
  unfold suffixRange
  cases hparse : parseInt last with
  | none =>
    refine .inr ⟨rfl, fun r hr => ?_⟩
    cases r with
    | between a b | onward a => exact hr.1.1 rfl
    | suffix n =>
      have hread := hnumber.mpr ⟨n, rfl, hr.2⟩
      rw [hparse] at hread
      cases hread
  | some n =>
    obtain ⟨k, rfl, hk⟩ := hnumber.mp hparse
    refine .inl ⟨.suffix k, ⟨rfl, hk⟩, ?_⟩
    simp only
    by_cases hnone : (k : Int) ≤ 0 ∨ (size : Int) ≤ 0
    · rw [if_pos hnone]
      rintro i ⟨hi, hlate⟩
      omega
    · rw [if_neg hnone]
      by_cases hmore : (size : Int) < k
      · rw [if_pos hmore]
        show 0 ≤ (size : Int) - size ∧ 1 ≤ (size : Int) ∧ (size : Int) - size + size ≤ size ∧
          ∀ i : Nat, (i < size ∧ size ≤ i + k) ↔
            (size : Int) - size ≤ i ∧ (i : Int) < (size : Int) - size + size
        exact ⟨by omega, by omega, by omega, fun i => by omega⟩
      · rw [if_neg hmore]
        show 0 ≤ (size : Int) - k ∧ 1 ≤ (k : Int) ∧ (size : Int) - k + k ≤ size ∧
          ∀ i : Nat, (i < size ∧ size ≤ i + k) ↔
            (size : Int) - k ≤ i ∧ (i : Int) < (size : Int) - k + k
        exact ⟨by omega, by omega, by omega, fun i => by omega⟩

theorem startRange_serves (hsize : size < 2 ^ 63) (hfirst : first ≠ []) :
    ServesRead size first last (startRange exactly first last size) := by
  have hid (x : Int) (_ : -(2 ^ 63) ≤ x) (_ : x < 2 ^ 63) : exactly x = pure x := rfl
  have hstart {n : Int} := parseInt_unsigned (n := n) hfirst fun sign h => (hsign sign h).1
  unfold startRange
  cases hparse : parseInt first with
  | none =>
    have hnot (a : Nat) : ¬ IsDecimal first a := by
      intro ha
      have hread := hstart.mpr ⟨a, rfl, ha⟩
      rw [hparse] at hread
      cases hread
    refine .inr ⟨rfl, fun r hr => ?_⟩
    cases r with
    | between a b | onward a => exact hnot a hr.1
    | suffix n => exact hfirst hr.1
  | some start =>
    obtain ⟨a, rfl, ha⟩ := hstart.mp hparse
    simp only
    rw [if_neg (by omega)]
    show ServesRead size first last (if last = [] then boundedRange exactly a (size - 1) size else _)
    by_cases hlast : last = []
    · rw [if_pos hlast, boundedRange_exact hid (by omega) (by omega) hsize (by omega)]
      refine .inl ⟨.onward a, ⟨ha, hlast⟩, ?_⟩
      by_cases hpast : (size : Int) ≤ a
      · rw [if_pos hpast]
        rintro i ⟨hi, hlow⟩
        omega
      · rw [if_neg hpast]
        show 0 ≤ (a : Int) ∧ 1 ≤ (size : Int) - 1 - a + 1 ∧ (a : Int) + (size - 1 - a + 1) ≤ size ∧
          ∀ i : Nat, (i < size ∧ a ≤ i) ↔ _
        exact ⟨by omega, by omega, by omega, fun i => by omega⟩
    · rw [if_neg hlast]
      have hstop {n : Int} := parseInt_unsigned (n := n) hlast fun sign h => (hsign sign h).2
      cases hparse' : parseInt last with
      | none =>
        refine .inr ⟨rfl, fun r hr => ?_⟩
        cases r with
        | between a' b' =>
          have hread := hstop.mpr ⟨b', rfl, hr.2.1⟩
          rw [hparse'] at hread
          cases hread
        | onward a' => exact hlast hr.2
        | suffix n => exact hfirst hr.1
      | some stop =>
        obtain ⟨b, rfl, hb⟩ := hstop.mp hparse'
        simp only
        by_cases hbefore : (b : Int) < a
        · rw [if_pos hbefore]
          refine .inr ⟨rfl, fun r hr => ?_⟩
          cases r with
          | between a' b' =>
            obtain ⟨ha', hb', hle⟩ := hr
            have := ha.unique ha'
            have := hb.unique hb'
            omega
          | onward a' => exact hlast hr.2
          | suffix n => exact hfirst hr.1
        · rw [if_neg hbefore]
          refine .inl ⟨.between a b, ⟨ha, hb, by omega⟩, ?_⟩
          show Serves size _ (boundedRange exactly a
            (if (size : Int) - 1 < b then (size : Int) - 1 else b) size)
          have hcut : ∃ final : Int, (if (size : Int) - 1 < b then (size : Int) - 1 else b) = final ∧
              -1 ≤ final ∧ final < size ∧ ∀ i : Int, i ≤ final ↔ i < size ∧ i ≤ b := by
            refine ⟨_, rfl, ?_, ?_, fun i => ?_⟩ <;> split <;> omega
          obtain ⟨final, hfinal, hlow, hhigh, hle⟩ := hcut
          rw [hfinal, boundedRange_exact hid (by omega) hlow hsize hhigh]
          by_cases hpast : (size : Int) ≤ a
          · rw [if_pos hpast]
            rintro i ⟨hi, hlow, -⟩
            omega
          · rw [if_neg hpast]
            show 0 ≤ (a : Int) ∧ 1 ≤ final - a + 1 ∧ (a : Int) + (final - a + 1) ≤ size ∧
              ∀ i : Nat, (i < size ∧ a ≤ i ∧ i ≤ b) ↔ _
            refine ⟨by omega, by omega, by omega, fun i => ?_⟩
            have hi := hle i
            omega

end unsigned

end selection

/-! ## The header and its answer -/

section answer

variable {header : String} {first last : List Char} {r : RangeSpec} {size : Nat}

theorem Reads.digits (h : Reads first last r) :
    (∀ c ∈ first, isDigit c = true) ∧ ∀ c ∈ last, isDigit c = true := by
  cases r with
  | between a b => exact ⟨h.1.2.1, h.2.1.2.1⟩
  | onward a =>
    obtain ⟨ha, rfl⟩ := h
    exact ⟨ha.2.1, by simp⟩
  | suffix n =>
    obtain ⟨rfl, hn⟩ := h
    exact ⟨by simp, hn.2.1⟩

theorem denotes_iff : Denotes header r ↔
    ∃ first last, rangePositions header = some (first, last) ∧ Reads first last r := by
  constructor
  · rintro ⟨first, last, hwrites, hreads⟩
    exact ⟨first, last, positions_of_writes hreads.digits.1 hreads.digits.2 hwrites, hreads⟩
  · rintro ⟨first, last, hpositions, hreads⟩
    exact ⟨first, last, writes_of_positions hpositions, hreads⟩

theorem Denotes.unique {r' : RangeSpec} (h : Denotes header r) (h' : Denotes header r') :
    r = r' := by
  obtain ⟨first, last, hpositions, hreads⟩ := denotes_iff.mp h
  obtain ⟨first', last', hpositions', hreads'⟩ := denotes_iff.mp h'
  rw [hpositions] at hpositions'
  obtain ⟨rfl, rfl⟩ := Prod.mk.inj (Option.some.inj hpositions')
  exact hreads.unique hreads'

theorem parseRange_exact (header : String) (hsize : size < 2 ^ 63) :
    parseRange header size = parseRangeBy exactly header size := by
  have hwrap (x : Int) (hlow : -(2 ^ 63) ≤ x) (hhigh : x < 2 ^ 63) : wrapping x = pure x := by
    exact Int.bmod_eq_of_le (by omega) (by omega)
  exact parseRangeBy_exact hwrap header hsize

theorem parseRange_serves (hsize : size < 2 ^ 63) (hunsigned : Unsigned header) :
    (∃ r, Denotes header r ∧ Serves size r (parseRange header size)) ∨
      (parseRange header size = .none ∧ ∀ r, ¬ Denotes header r) := by
  rw [parseRange_exact header hsize]
  unfold parseRangeBy
  cases hpositions : rangePositions header with
  | none =>
    refine .inr ⟨rfl, fun r hr => ?_⟩
    obtain ⟨first, last, hsome, -⟩ := denotes_iff.mp hr
    rw [hpositions] at hsome
    cases hsome
  | some ends =>
    obtain ⟨first, last⟩ := ends
    have hdenotes (r : RangeSpec) : Denotes header r ↔ Reads first last r := by
      rw [denotes_iff, hpositions]
      constructor
      · rintro ⟨first', last', hsame, hreads⟩
        cases hsame
        exact hreads
      · intro hreads
        exact ⟨first, last, rfl, hreads⟩
    simp only [hdenotes]
    have hsign := hunsigned first last hpositions
    unfold selectRange
    by_cases hfirst : first = []
    · subst hfirst
      by_cases hlast : last = []
      · rw [if_pos rfl, if_pos hlast]
        refine .inr ⟨rfl, fun r hr => ?_⟩
        cases r with
        | between a b | onward a => exact hr.1.1 rfl
        | suffix n => exact hr.2.1 hlast
      · rw [if_pos rfl, if_neg hlast]
        exact suffixRange_serves hsign hlast
    · rw [if_neg hfirst]
      exact startRange_serves hsign hsize hfirst

end answer

/-- **Range headers select what they denote**: for a header without signs the answer is a part
of the blob exactly where the header denotes a range with bytes in it, and then these; no part
where it denotes a range without any; the whole where it denotes none. Whatever the header, no
number overflows. -/
theorem parseRange_selects (header : String) (size : Nat) (hsize : size < 2 ^ 63)
    (hunsigned : Unsigned header) :
    (∀ offset length : Int, parseRange header size = .ok offset length ↔
      ∃ r, Denotes header r ∧ 0 ≤ offset ∧ 1 ≤ length ∧ offset + length ≤ size ∧
        ∀ i : Nat, r.Selects size i ↔ offset ≤ i ∧ i < offset + length) ∧
      (parseRange header size = .unsatisfiable ↔ ∃ r, Denotes header r ∧ ∀ i, ¬ r.Selects size i) ∧
      (parseRange header size = .none ↔ ∀ r, ¬ Denotes header r) ∧
      parseRangeBy checking header size = some (parseRange header size) := by
  have hcheck (x : Int) (hlow : -(2 ^ 63) ≤ x) (hhigh : x < 2 ^ 63) : checking x = pure x :=
    if_pos ⟨hlow, hhigh⟩
  have hanswer := parseRange_serves hsize hunsigned
  refine ⟨fun offset length => ⟨fun hok => ?_, fun hdenotes => ?_⟩, ⟨fun hno => ?_, fun hdenotes => ?_⟩,
    ⟨fun hnone => ?_, fun hmalformed => ?_⟩, ?_⟩
  · rw [hok] at hanswer
    rcases hanswer with hserves | ⟨hnone, -⟩
    · exact hserves
    · cases hnone
  · obtain ⟨r, hr, h0, h1, hle, hselects⟩ := hdenotes
    rcases hanswer with ⟨r', hr', hserves⟩ | ⟨-, hmalformed⟩
    · obtain rfl := hr.unique hr'
      exact Serves.unique hserves (show Serves size r (.ok offset length) from ⟨h0, h1, hle, hselects⟩)
    · exact absurd hr (hmalformed r)
  · rw [hno] at hanswer
    rcases hanswer with hserves | ⟨hnone, -⟩
    · exact hserves
    · cases hnone
  · obtain ⟨r, hr, hselects⟩ := hdenotes
    rcases hanswer with ⟨r', hr', hserves⟩ | ⟨-, hmalformed⟩
    · obtain rfl := hr.unique hr'
      exact Serves.unique hserves (show Serves size r .unsatisfiable from hselects)
    · exact absurd hr (hmalformed r)
  · rw [hnone] at hanswer
    rcases hanswer with ⟨r, -, hserves⟩ | ⟨-, hmalformed⟩
    · exact hserves.elim
    · exact hmalformed
  · rcases hanswer with ⟨r, hr, -⟩ | ⟨hnone, -⟩
    · exact absurd hr (hmalformed r)
    · exact hnone
  · rw [parseRangeBy_exact hcheck header hsize, parseRange_exact header hsize]
    rfl

theorem parseRange_selects_suffix : parseRange " Bytes=-1000" 100 = .ok 0 100 ∧
    ∃ r, Denotes " Bytes=-1000" r ∧ ∀ i : Nat, r.Selects 100 i ↔ (0 : Int) ≤ i ∧ (i : Int) < 0 + 100 := by
  have hunsigned : Unsigned " Bytes=-1000" := by
    intro first last h
    have hread : rangePositions " Bytes=-1000" = some ([], "1000".toList) := by decide
    rw [hread] at h
    cases h
    intro sign hsign
    rcases mem_pair.mp hsign with rfl | rfl
    · decide
    · decide
  have hok : parseRange " Bytes=-1000" 100 = .ok 0 100 := by decide
  obtain ⟨r, hr, -, -, -, hselects⟩ :=
    ((parseRange_selects " Bytes=-1000" 100 (by decide) hunsigned).1 0 100).mp hok
  exact ⟨hok, r, hr, hselects⟩

/-- A header as RFC 9110 writes it: no blanks, and positions of any length. -/
def StrictlyDenotes (header : String) (r : RangeSpec) : Prop :=
  ∃ unit first last : List Char, equalFold unit "bytes" = true ∧
    header.toList = unit ++ '=' :: (first ++ '-' :: last) ∧
    (∀ c ∈ first ++ last, isDigit c = true) ∧
    (r = .between (decimal first) (decimal last) ∧ first ≠ [] ∧ last ≠ [] ∧
        decimal first ≤ decimal last ∨
      r = .onward (decimal first) ∧ first ≠ [] ∧ last = [] ∨
      r = .suffix (decimal last) ∧ first = [] ∧ last ≠ [])

/-- Blanks are read over, and a position beyond int64 makes no range. -/
theorem parseRange_lenient : (¬ ∀ (header : String) (size : Nat), size < 2 ^ 63 →
      ((∃ offset length, parseRange header size = .ok offset length) ↔
        ∃ r, StrictlyDenotes header r ∧ ∃ i, r.Selects size i)) ∧
      parseRange "bytes=0-9223372036854775808" 100 = .none := by
  refine ⟨fun hall => ?_, by decide +kernel⟩
  have hok : parseRange "bytes = 0 - 4" 100 = .ok 0 5 := by decide
  obtain ⟨r, ⟨unit, first, last, hunit, hheader, hdigits, -⟩, -⟩ :=
    (hall "bytes = 0 - 4" 100 (by decide)).mp ⟨0, 5, hok⟩
  have hblank : ' ' ∈ unit ++ '=' :: (first ++ '-' :: last) := by
    rw [← hheader]
    decide
  simp only [mem_append, mem_cons] at hblank hdigits
  rcases hblank with hblank | hblank | hblank | hblank | hblank
  · exact absurd (isSpace_unit hunit hblank).1 (by decide)
  · cases hblank
  · exact absurd (hdigits ' ' (.inl hblank)) (by decide)
  · cases hblank
  · exact absurd (hdigits ' ' (.inr hblank)) (by decide)

end Chicoree.Ranges
