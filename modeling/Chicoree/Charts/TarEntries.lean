import Mathlib.Algebra.Order.Ring.Int
import Mathlib.Data.List.Infix
import Mathlib.Data.List.TakeWhile

/-! # The entries of a chart archive

`tarEntries` of `helm.ts` walks the headers of a tar archive: 512 bytes each, followed by the
data of the member in whole blocks. A text of the archive stands here for the bytes it is decoded
from: the decoder keeps the characters of ASCII, and makes no other byte into one. -/

namespace Chicoree.Charts

open List Option

/-! ## The reader -/

/-- Where an index of `subarray` points: a negative one counts from the end. -/
def offsetOf (bytes : List UInt8) (i : Int) : Nat :=
  if i < 0 then ((bytes.length : Int) + i).toNat else i.toNat

/-- `subarray(start, end)` -/
def subarray (bytes : List UInt8) (start stop : Int) : List UInt8 :=
  (bytes.take (offsetOf bytes stop)).drop (offsetOf bytes start)

/-- What `trim` and `parseInt` skip: the blanks and line terminators of the language. -/
def whiteSpace : List (List UInt8) :=
  [[9], [10], [11], [12], [13], [32], [0xC2, 0xA0], [0xE1, 0x9A, 0x80], [0xE2, 0x80, 0x80],
    [0xE2, 0x80, 0x81], [0xE2, 0x80, 0x82], [0xE2, 0x80, 0x83], [0xE2, 0x80, 0x84],
    [0xE2, 0x80, 0x85], [0xE2, 0x80, 0x86], [0xE2, 0x80, 0x87], [0xE2, 0x80, 0x88],
    [0xE2, 0x80, 0x89], [0xE2, 0x80, 0x8A], [0xE2, 0x80, 0xA8], [0xE2, 0x80, 0xA9],
    [0xE2, 0x80, 0xAF], [0xE2, 0x81, 0x9F], [0xE3, 0x80, 0x80], [0xEF, 0xBB, 0xBF]]

/-- The text without the blanks in front, of which there are at most `n`. -/
def skipSpace : Nat → List UInt8 → List UInt8
  | 0, s => s
  | n + 1, s =>
    match whiteSpace.find? (·.isPrefixOf s) with
    | some blank => skipSpace n (s.drop blank.length)
    | none => s

def isOctal (b : UInt8) : Bool := 48 ≤ b && b ≤ 55

def octalValue (digits : List UInt8) : Nat :=
  digits.foldl (fun n b => n * 8 + (b.toNat - 48)) 0

/-- `parseInt(s.trim() || "0", 8) || 0`: what follows the digits is ignored. -/
def parseOctal (s : List UInt8) : Int :=
  let s := skipSpace s.length s
  if s.head? = some 45 then -(octalValue (s.tail.takeWhile isOctal) : Int)
  else if s.head? = some 43 then octalValue (s.tail.takeWhile isOctal)
  else octalValue (s.takeWhile isOctal)

def field (header : List UInt8) (start len : Nat) : List UInt8 :=
  ((header.drop start).take len).takeWhile (· ≠ 0)

def headerSize (header : List UInt8) : Int := parseOctal (field header 124 12)

def headerName (header : List UInt8) : List UInt8 :=
  let name := field header 0 100
  let dir := field header 345 155
  if dir = [] then name else dir ++ 47 :: name

/-- What `.` does not match. -/
def lineTerminators : List (List UInt8) := [[10], [13], [0xE2, 0x80, 0xA8], [0xE2, 0x80, 0xA9]]

def isOneLine (s : List UInt8) : Bool :=
  s.tails.all fun t => lineTerminators.all fun w => !w.isPrefixOf t

def isDigit (b : UInt8) : Bool := 48 ≤ b && b ≤ 57

/-- ` path=` -/
def pathKeyword : List UInt8 := [32, 112, 97, 116, 104, 61]

/-- `/^\d+ path=(.*)$/` -/
def pathRecord (line : List UInt8) : Option (List UInt8) :=
  let rest := line.dropWhile isDigit
  let value := rest.drop pathKeyword.length
  if line.takeWhile isDigit ≠ [] ∧ pathKeyword.isPrefixOf rest ∧ isOneLine value then some value
  else none

/-- The path of a pax header's records: the last line that reads as one counts. -/
def paxPathOf (path : Option (List UInt8)) (records : List UInt8) : Option (List UInt8) :=
  (records.splitOn 10).foldl (fun path line => (pathRecord line).or path) path

structure TarEntry where
  name : List UInt8
  size : Int
  offset : Int

/-- The variables of the loop; `pos` is its `at`. -/
structure TarState where
  pos : Int
  paxPath : Option (List UInt8)
  longName : Option (List UInt8)
  out : List TarEntry

def TarState.start : TarState := ⟨0, none, none, []⟩

def headerAt (tar : List UInt8) (pos : Int) : List UInt8 := subarray tar pos (pos + 512)

def isHeader (tar : List UInt8) (pos : Int) : Bool :=
  pos + 512 ≤ tar.length && !(headerAt tar pos).all (· == 0)

/-- Where the header after this one is looked for: `dataStart + Math.ceil(size / 512) * 512`. -/
def nextHeader (tar : List UInt8) (pos : Int) : Int :=
  pos + 512 + -(-headerSize (headerAt tar pos) / 512) * 512

def readMember (tar : List UInt8) (s : TarState) : TarState :=
  let header := headerAt tar s.pos
  let size := headerSize header
  let dataStart := s.pos + 512
  let data := subarray tar dataStart (dataStart + size)
  let type := field header 156 1
  if type = [120] then { s with paxPath := paxPathOf s.paxPath data }
  else if type = [76] then { s with longName := some (data.takeWhile (· ≠ 0)) }
  else if type = [48] ∨ type = [] then
    let name := (s.paxPath.or s.longName).getD (headerName header)
    { s with paxPath := none, longName := none, out := s.out ++ [⟨name, size, dataStart⟩] }
  else { s with paxPath := none, longName := none }

/-- A round of the loop; `none` when it is over. -/
def tarRound (tar : List UInt8) (s : TarState) : Option TarState :=
  if isHeader tar s.pos then some { readMember tar s with pos := nextHeader tar s.pos } else none

/-- The loop; `none` when it is not over after that many rounds. -/
def tarLoop (tar : List UInt8) : Nat → TarState → Option (List TarEntry)
  | 0, _ => none
  | rounds + 1, s =>
    match tarRound tar s with
    | none => some s.out
    | some s' => tarLoop tar rounds s'

def Returns (tar : List UInt8) (s : TarState) (entries : List TarEntry) : Prop :=
  ∃ rounds, tarLoop tar rounds s = some entries

/-- `tarEntries(tar)` returns these entries. -/
def TarEntries (tar : List UInt8) (entries : List TarEntry) : Prop := Returns tar .start entries

/-- The positions at which the loop looks for a header. -/
inductive Position (tar : List UInt8) : Int → Prop where
  | first : Position tar 0
  | next {pos : Int} (h : Position tar pos) (hheader : isHeader tar pos = true) :
      Position tar (nextHeader tar pos)

/-- The reader ends on the buffer, going forward from header to header, with no more entries than
there are blocks. -/
def Ends (tar : List UInt8) : Prop :=
  (∃ entries, TarEntries tar entries ∧ entries.length ≤ tar.length / 512) ∧
    ∀ pos, Position tar pos → isHeader tar pos = true → pos < nextHeader tar pos

/-- No header that the loop comes to declares minus a block or less. -/
def SizesForward (tar : List UInt8) : Prop :=
  ∀ pos, Position tar pos → isHeader tar pos = true → -512 < headerSize (headerAt tar pos)

/-! ## Archives -/

/-- The field of a size: octal digits, and blanks or NULs after them. -/
structure SizeField (size : Nat) where
  digits : List UInt8
  fill : List UInt8
  octal : ∀ b ∈ digits, isOctal b = true
  filled : ∀ b ∈ fill, b = 0 ∨ b = 32
  some_digit : digits ≠ []
  length : digits.length + fill.length = 12
  value : octalValue digits = size

/-- A ustar header, less its type and what is in its size. The fields that no reader of names
and sizes looks at are taken together. -/
structure Header where
  name : List UInt8
  /-- The prefix of the name: the directories that lead to it. -/
  dir : List UInt8
  /-- Mode, owner and group. -/
  access : List UInt8
  /-- Time and checksum. -/
  sums : List UInt8
  /-- The target of a link, the magic, the names of owner and group, and device numbers. -/
  link : List UInt8
  pad : List UInt8
  name_text : 0 ∉ name
  dir_text : 0 ∉ dir
  name_length : name.length ≤ 100
  dir_length : dir.length ≤ 155
  access_length : access.length = 24
  sums_length : sums.length = 20
  link_length : link.length = 188
  pad_length : pad.length = 12

def inField (len : Nat) (s : List UInt8) : List UInt8 := s ++ List.replicate (len - s.length) 0

def Header.bytes (h : Header) {size : Nat} (f : SizeField size) (type : UInt8) : List UInt8 :=
  inField 100 h.name ++ h.access ++ (f.digits ++ f.fill) ++ h.sums ++ [type] ++ h.link ++
    inField 155 h.dir ++ h.pad

def Header.fullName (h : Header) : List UInt8 :=
  if h.dir = [] then h.name else h.dir ++ 47 :: h.name

def inBlocks (data : List UInt8) : List UInt8 :=
  data ++ List.replicate ((512 - data.length % 512) % 512) 0

/-- A record of a pax header: its length in digits, a keyword, and a value. -/
structure PaxRecord where
  digits : List UInt8
  keyword : List UInt8
  value : List UInt8
  some_digit : digits ≠ []
  decimal : ∀ b ∈ digits, isDigit b = true
  keyword_text : 61 ∉ keyword

def PaxRecord.bytes (r : PaxRecord) : List UInt8 :=
  r.digits ++ 32 :: r.keyword ++ 61 :: r.value ++ [10]

def pathText (digits path : List UInt8) : List UInt8 := digits ++ pathKeyword ++ path

def paxText (before : List PaxRecord) (digits path : List UInt8) (after : List PaxRecord) :
    List UInt8 :=
  before.flatMap PaxRecord.bytes ++ (pathText digits path ++ 10 :: after.flatMap PaxRecord.bytes)

structure PaxHeader where
  before : List PaxRecord
  digits : List UInt8
  path : List UInt8
  after : List PaxRecord
  header : Header
  size : SizeField (paxText before digits path after).length
  some_digit : digits ≠ []
  decimal : ∀ b ∈ digits, isDigit b = true
  last : ∀ r ∈ after, 32 :: r.keyword ++ [61] ≠ pathKeyword

def PaxHeader.text (p : PaxHeader) : List UInt8 := paxText p.before p.digits p.path p.after

def PaxHeader.bytes (p : PaxHeader) : List UInt8 :=
  p.header.bytes p.size 120 ++ inBlocks p.text

/-- A regular file or a directory, with a pax header or without. -/
structure Member where
  pax : Option PaxHeader
  header : Header
  type : UInt8
  data : List UInt8
  size : SizeField data.length
  type_eq : type = 48 ∨ type = 0 ∨ type = 53
  empty : type = 53 → data = []

namespace Member

def Regular (m : Member) : Prop := m.type ≠ 53

instance (m : Member) : Decidable m.Regular := inferInstanceAs (Decidable (m.type ≠ 53))

def paxBytes (m : Member) : List UInt8 :=
  match m.pax with
  | none => []
  | some p => p.bytes

def bytes (m : Member) : List UInt8 :=
  m.paxBytes ++ m.header.bytes m.size m.type ++ inBlocks m.data

def fullName (m : Member) : List UInt8 :=
  match m.pax with
  | none => m.header.fullName
  | some p => p.path

def entries (m : Member) (name : Member → List UInt8) (pos : Nat) : List TarEntry :=
  if m.Regular then
    [⟨name m, m.data.length, ((pos + m.paxBytes.length + 512 : Nat) : Int)⟩]
  else []

end Member

/-- An archive: its members, two blocks of zeros, and whatever fills up the last record. -/
def archive (members : List Member) (rest : List UInt8) : List UInt8 :=
  members.flatMap Member.bytes ++ (List.replicate 1024 0 ++ rest)

/-- The regular files of an archive in order, each under its name, where the first member is at
the position. -/
def listing (name : Member → List UInt8) : Nat → List Member → List TarEntry
  | _, [] => []
  | pos, m :: members => m.entries name pos ++ listing name (pos + m.bytes.length) members

/-- The path in the pax header is one line; or no line of the records reads as a path at all, and
the ustar header has the path as well. Where a line of a record after it reads as a path, the
last of them has to carry this one. -/
def PaxHeader.Legible (p : PaxHeader) (own : List UInt8) : Prop :=
  match paxPathOf none (p.after.flatMap PaxRecord.bytes) with
  | some path => path = p.path
  | none =>
    isOneLine p.path = true ∨ (∀ line ∈ p.text.splitOn 10, pathRecord line = none) ∧ own = p.path

/-- Every path of a regular file that is in a pax header is legible. -/
def Legible (members : List Member) : Prop :=
  ∀ m ∈ members, m.Regular → ∀ p, m.pax = some p → p.Legible m.header.fullName

/-! ## The loop ends -/

section loop

variable {tar : List UInt8} {pos : Int} {s s' : TarState} {entries : List TarEntry}

theorem lt_nextHeader_iff : pos < nextHeader tar pos ↔ -512 < headerSize (headerAt tar pos) := by
  unfold nextHeader
  omega

theorem readMember_out_length : (readMember tar s).out.length ≤ s.out.length + 1 := by
  unfold readMember
  extract_lets header size dataStart data type name
  by_cases hx : type = [120]
  · rw [if_pos hx]
    exact Nat.le_succ _
  by_cases hl : type = [76]
  · rw [if_neg hx, if_pos hl]
    exact Nat.le_succ _
  by_cases hfile : type = [48] ∨ type = []
  · rw [if_neg hx, if_neg hl, if_pos hfile]
    rw [length_append]
    exact Nat.le_refl _
  · rw [if_neg hx, if_neg hl, if_neg hfile]
    exact Nat.le_succ _

theorem tarRound_cases (h : tarRound tar s = some s') :
    isHeader tar s.pos = true ∧ s' = { readMember tar s with pos := nextHeader tar s.pos } := by
  unfold tarRound at h
  by_cases hheader : isHeader tar s.pos = true
  · rw [if_pos hheader] at h
    exact ⟨hheader, (Option.some.inj h).symm⟩
  · rw [if_neg hheader] at h
    cases h

theorem isHeader_fits (h : isHeader tar pos = true) : pos + 512 ≤ tar.length := by
  exact of_decide_eq_true (Bool.and_eq_true_iff.mp h).1

theorem returns_of_none (h : tarRound tar s = none) : Returns tar s entries ↔ entries = s.out := by
  constructor
  · rintro ⟨rounds, hrun⟩
    cases rounds with
    | zero => cases hrun
    | succ rounds =>
      simp only [tarLoop, h] at hrun
      exact (Option.some.inj hrun).symm
  · intro heq
    refine ⟨1, ?_⟩
    simp only [tarLoop, h]
    rw [heq]

theorem returns_of_some (h : tarRound tar s = some s') :
    Returns tar s entries ↔ Returns tar s' entries := by
  constructor
  · rintro ⟨rounds, hrun⟩
    cases rounds with
    | zero => cases hrun
    | succ rounds =>
      simp only [tarLoop, h] at hrun
      exact ⟨rounds, hrun⟩
  · rintro ⟨rounds, hrun⟩
    refine ⟨rounds + 1, ?_⟩
    simp only [tarLoop, h]
    exact hrun

/-- What holds of the loop before each round: every entry has had a block to itself. -/
structure Walked (tar : List UInt8) (s : TarState) : Prop where
  position : Position tar s.pos
  before : (s.out.length : Int) * 512 ≤ s.pos
  within : (s.out.length : Int) * 512 ≤ tar.length

theorem Walked.start : Walked tar .start where
  position := .first
  before := by decide
  within := Int.natCast_nonneg _

theorem Walked.round (hsizes : SizesForward tar) (hw : Walked tar s)
    (h : tarRound tar s = some s') : Walked tar s' ∧ s.pos < s'.pos := by
  obtain ⟨hheader, rfl⟩ := tarRound_cases h
  have hfits := isHeader_fits hheader
  have hlt : s.pos < nextHeader tar s.pos :=
    lt_nextHeader_iff.mpr (hsizes s.pos hw.position hheader)
  have hblock : s.pos + 512 ≤ nextHeader tar s.pos := by
    unfold nextHeader at hlt ⊢
    omega
  have hlength : (readMember tar s).out.length ≤ s.out.length + 1 := readMember_out_length
  have hbefore := hw.before
  exact ⟨⟨.next hw.position hheader,
    by show ((readMember tar s).out.length : Int) * 512 ≤ nextHeader tar s.pos; omega,
    by show ((readMember tar s).out.length : Int) * 512 ≤ tar.length; omega⟩, hlt⟩

/-- By induction on the blocks that are left. -/
theorem Walked.returns (hsizes : SizesForward tar) (left : Nat) :
    ∀ {s : TarState}, Walked tar s → (tar.length : Int) - s.pos < left →
      ∃ entries, Returns tar s entries ∧ entries.length ≤ tar.length / 512 := by
  induction left with
  | zero =>
    intro s hw hleft
    cases h : tarRound tar s with
    | none =>
      refine ⟨s.out, (returns_of_none h).mpr rfl, ?_⟩
      have hwithin := hw.within
      omega
    | some s' =>
      have hfits := isHeader_fits (tarRound_cases h).1
      omega
  | succ left ih =>
    intro s hw hleft
    cases h : tarRound tar s with
    | none =>
      refine ⟨s.out, (returns_of_none h).mpr rfl, ?_⟩
      have hwithin := hw.within
      omega
    | some s' =>
      obtain ⟨hw', hlt⟩ := hw.round hsizes h
      obtain ⟨entries, hreturns, hlength⟩ := ih hw' (by omega)
      exact ⟨entries, (returns_of_some h).mpr hreturns, hlength⟩

theorem ends_iff (tar : List UInt8) : Ends tar ↔ SizesForward tar := by
  constructor
  · intro hends pos hpos hheader
    exact lt_nextHeader_iff.mp (hends.2 pos hpos hheader)
  · intro hsizes
    refine ⟨?_, fun pos hpos hheader => lt_nextHeader_iff.mpr (hsizes pos hpos hheader)⟩
    exact Walked.start.returns hsizes (tar.length + 1) (by
      show (tar.length : Int) - 0 < (tar.length + 1 : Nat)
      omega)

end loop

/-! ## The fields of a header -/

section fields

variable {s a b c digits fill : List UInt8} {size : Nat}

theorem takeWhile_text (h : 0 ∉ s) (t : List UInt8) :
    (s ++ t).takeWhile (· ≠ 0) = s ++ t.takeWhile (· ≠ 0) := by
  refine takeWhile_append_of_pos fun x hx => ?_
  have hne : x ≠ 0 := fun heq => h (heq ▸ hx)
  exact decide_eq_true hne

theorem takeWhile_inField (h : 0 ∉ s) (len : Nat) : (inField len s).takeWhile (· ≠ 0) = s := by
  unfold inField
  rw [takeWhile_text h]
  cases len - s.length with
  | zero => exact append_nil s
  | succ n => rw [replicate_succ, takeWhile_cons_of_neg (by decide), append_nil]

theorem length_inField {len : Nat} (h : s.length ≤ len) : (inField len s).length = len := by
  unfold inField
  rw [length_append, length_replicate]
  omega

theorem field_append {start len : Nat} (ha : a.length = start) (hb : b.length = len) :
    field (a ++ (b ++ c)) start len = b.takeWhile (· ≠ 0) := by
  unfold field
  rw [← ha, drop_left, ← hb, take_left]

theorem isOctal_ne {x : UInt8} (h : isOctal x = true) : x ≠ 0 ∧ x ≠ 32 ∧ x ≠ 43 ∧ x ≠ 45 := by
  refine ⟨?_, ?_, ?_, ?_⟩ <;> rintro rfl <;> exact absurd h (by decide)

theorem skipSpace_octal {x : UInt8} (hx : isOctal x = true) (n : Nat) :
    skipSpace n (x :: s) = x :: s := by
  cases n with
  | zero => rfl
  | succ n =>
    have hfind : whiteSpace.find? (·.isPrefixOf (x :: s)) = none := by
      refine find?_eq_none.mpr fun blank hblank hprefix => ?_
      have hheads : ∀ blank ∈ whiteSpace, blank.head?.all isOctal = false := by decide
      have hhead := hheads blank hblank
      cases blank with
      | nil => cases hhead
      | cons y rest =>
        have heq : y = x := (cons_prefix_cons.mp (List.isPrefixOf_iff_prefix.mp hprefix)).1
        rw [heq, head?_cons, all_some, hx] at hhead
        cases hhead
    unfold skipSpace
    rw [hfind]

theorem parseOctal_digits (hoctal : ∀ x ∈ digits, isOctal x = true) (hne : digits ≠ [])
    (hfill : ∀ x ∈ fill, x = 32) : parseOctal (digits ++ fill) = octalValue digits := by
  cases digits with
  | nil => exact absurd rfl hne
  | cons x digits =>
    have hx := hoctal x mem_cons_self
    obtain ⟨_, _, hplus, hminus⟩ := isOctal_ne hx
    have htake : (x :: digits ++ fill).takeWhile isOctal = x :: digits := by
      rw [takeWhile_append_of_pos hoctal]
      cases fill with
      | nil => exact append_nil _
      | cons y fill =>
        rw [hfill y mem_cons_self, takeWhile_cons_of_neg (by decide), append_nil]
    unfold parseOctal
    rw [cons_append, skipSpace_octal hx, ← cons_append]
    simp only [cons_append, head?_cons, Option.some.injEq]
    rw [if_neg hminus, if_neg hplus, ← cons_append, htake]

theorem SizeField.read (f : SizeField size) :
    parseOctal ((f.digits ++ f.fill).takeWhile (· ≠ 0)) = size := by
  have htext : 0 ∉ f.digits := fun h0 => (isOctal_ne (f.octal 0 h0)).1 rfl
  rw [takeWhile_text htext, parseOctal_digits f.octal f.some_digit, f.value]
  intro x hx
  rcases f.filled x ((takeWhile_sublist _).subset hx) with rfl | rfl
  · exact absurd (mem_takeWhile_imp hx) (by decide)
  · rfl

namespace Header

variable (h : Header) (f : SizeField size) (type : UInt8)

theorem length_bytes : (h.bytes f type).length = 512 := by
  have hname := length_inField h.name_length
  have hdir := length_inField h.dir_length
  have haccess := h.access_length
  have hsize := f.length
  have hsums := h.sums_length
  have hlink := h.link_length
  have hpad := h.pad_length
  simp only [bytes, length_append, length_cons, length_nil]
  omega

theorem field_name : field (h.bytes f type) 0 100 = h.name := by
  have hb : h.bytes f type = [] ++ (inField 100 h.name ++ (h.access ++ ((f.digits ++ f.fill) ++
      (h.sums ++ ([type] ++ (h.link ++ (inField 155 h.dir ++ h.pad))))))) := by
    simp only [bytes, append_assoc, nil_append]
  have ha : ([] : List UInt8).length = 0 := rfl
  rw [hb, field_append ha (length_inField h.name_length), takeWhile_inField h.name_text]

theorem field_size : parseOctal (field (h.bytes f type) 124 12) = size := by
  have hb : h.bytes f type = (inField 100 h.name ++ h.access) ++ ((f.digits ++ f.fill) ++
      (h.sums ++ ([type] ++ (h.link ++ (inField 155 h.dir ++ h.pad))))) := by
    simp only [bytes, append_assoc]
  have ha : (inField 100 h.name ++ h.access).length = 124 := by
    rw [length_append, length_inField h.name_length, h.access_length]
  have hlen : (f.digits ++ f.fill).length = 12 := (length_append).trans f.length
  rw [hb, field_append ha hlen, f.read]

theorem field_type : field (h.bytes f type) 156 1 = if type = 0 then [] else [type] := by
  have hb : h.bytes f type = (inField 100 h.name ++ h.access ++ (f.digits ++ f.fill) ++ h.sums) ++
      ([type] ++ (h.link ++ (inField 155 h.dir ++ h.pad))) := by
    simp only [bytes, append_assoc]
  have ha : (inField 100 h.name ++ h.access ++ (f.digits ++ f.fill) ++ h.sums).length = 156 := by
    have hsize := f.length
    simp only [length_append, length_inField h.name_length, h.access_length, h.sums_length]
    omega
  have hlen : [type].length = 1 := rfl
  rw [hb, field_append ha hlen]
  by_cases h0 : type = 0
  · rw [if_pos h0, h0]
    rfl
  · rw [if_neg h0]
    exact takeWhile_cons_of_pos (decide_eq_true h0)

theorem field_dir : field (h.bytes f type) 345 155 = h.dir := by
  have hb : h.bytes f type = (inField 100 h.name ++ h.access ++ (f.digits ++ f.fill) ++ h.sums ++
      [type] ++ h.link) ++ (inField 155 h.dir ++ h.pad) := by
    simp only [bytes, append_assoc]
  have ha : (inField 100 h.name ++ h.access ++ (f.digits ++ f.fill) ++ h.sums ++ [type] ++
      h.link).length = 345 := by
    have hsize := f.length
    simp only [length_append, length_inField h.name_length, h.access_length, h.sums_length,
      h.link_length, length_cons, length_nil]
    omega
  rw [hb, field_append ha (length_inField h.dir_length), takeWhile_inField h.dir_text]

theorem headerName_bytes : headerName (h.bytes f type) = h.fullName := by
  unfold headerName
  rw [field_name, field_dir]
  rfl

theorem not_zeros : (h.bytes f type).all (· == 0) = false := by
  obtain ⟨x, digits, hdigits⟩ := exists_cons_of_ne_nil f.some_digit
  have hx : x ∈ f.digits := by rw [hdigits]; exact mem_cons_self
  refine all_eq_false.mpr ⟨x, ?_, ?_⟩
  · simp only [bytes, mem_append]
    exact .inl (.inl (.inl (.inl (.inl (.inr (.inl hx))))))
  · have hne := (isOctal_ne (f.octal x hx)).1
    simpa using hne

end Header

end fields

/-! ## Paths in pax headers -/

section pax

variable {path line records : List UInt8} {value : List UInt8}

theorem isOneLine_lf (h : isOneLine path = true) : 10 ∉ path := by
  intro hmem
  obtain ⟨a, b, rfl⟩ := append_of_mem hmem
  have htail : 10 :: b ∈ (a ++ 10 :: b).tails := (mem_tails _ _).mpr ⟨a, rfl⟩
  have hall := all_eq_true.mp h _ htail
  exact absurd hall (by simp [lineTerminators])

theorem pathRecord_isOneLine (h : pathRecord line = some value) : isOneLine value = true := by
  unfold pathRecord at h
  extract_lets rest v at h
  by_cases hcond : line.takeWhile isDigit ≠ [] ∧ pathKeyword.isPrefixOf rest ∧ isOneLine v = true
  · rw [if_pos hcond] at h
    exact Option.some.inj h ▸ hcond.2.2
  · rw [if_neg hcond] at h
    cases h

theorem pathRecord_pathText {digits : List UInt8} (hne : digits ≠ [])
    (hdecimal : ∀ b ∈ digits, isDigit b = true) (h : isOneLine path = true) :
    pathRecord (pathText digits path) = some path := by
  have hkeyword : (pathKeyword ++ path).takeWhile isDigit = [] ∧
      (pathKeyword ++ path).dropWhile isDigit = pathKeyword ++ path :=
    ⟨takeWhile_cons_of_neg (by decide), dropWhile_cons_of_neg (by decide)⟩
  have htake : (pathText digits path).takeWhile isDigit = digits := by
    unfold pathText
    rw [append_assoc, takeWhile_append_of_pos hdecimal, hkeyword.1, append_nil]
  have hdrop : (pathText digits path).dropWhile isDigit = pathKeyword ++ path := by
    unfold pathText
    rw [append_assoc, dropWhile_append_of_pos hdecimal, hkeyword.2]
  have hvalue : (pathKeyword ++ path).drop pathKeyword.length = path := drop_left
  have hprefix : pathKeyword.isPrefixOf (pathKeyword ++ path) = true :=
    isPrefixOf_iff_prefix.mpr (prefix_append _ _)
  unfold pathRecord
  simp only [htake, hdrop, hvalue]
  rw [if_pos ⟨hne, hprefix, h⟩]

theorem foldl_pathRecord (lines : List (List UInt8)) (path : Option (List UInt8)) :
    lines.foldl (fun path line => (pathRecord line).or path) path =
      (lines.reverse.findSome? pathRecord).or path := by
  induction lines generalizing path with
  | nil => rfl
  | cons line lines ih =>
    have hline : [line].findSome? pathRecord = pathRecord line := by
      rw [findSome?_cons, findSome?_nil]
      cases pathRecord line <;> rfl
    rw [foldl_cons, ih, reverse_cons, findSome?_append, hline, Option.or_assoc]

theorem paxPathOf_or (path : Option (List UInt8)) (records : List UInt8) :
    paxPathOf path records = (paxPathOf none records).or path := by
  unfold paxPathOf
  rw [foldl_pathRecord, foldl_pathRecord _ none, or_none]

theorem paxPathOf_append (path : Option (List UInt8)) (a b : List UInt8) :
    paxPathOf path (a ++ 10 :: b) = paxPathOf (paxPathOf path a) b := by
  unfold paxPathOf
  rw [splitOn_append_cons_self, foldl_append]

theorem paxPathOf_none : paxPathOf none records = none ↔
    ∀ line ∈ records.splitOn 10, pathRecord line = none := by
  unfold paxPathOf
  rw [foldl_pathRecord, or_none, findSome?_eq_none_iff]
  simp only [mem_reverse]

theorem paxPathOf_isOneLine (h : paxPathOf none records = some value) : isOneLine value = true := by
  unfold paxPathOf at h
  rw [foldl_pathRecord, or_none] at h
  obtain ⟨line, _, hline⟩ := exists_of_findSome?_eq_some h
  exact pathRecord_isOneLine hline

theorem flatMap_bytes (rs : List PaxRecord) :
    rs.flatMap PaxRecord.bytes = [] ∨ ∃ a, rs.flatMap PaxRecord.bytes = a ++ [10] := by
  induction rs with
  | nil => exact .inl rfl
  | cons r rs ih =>
    rw [flatMap_cons]
    rcases ih with hnil | ⟨a, ha⟩
    · rw [hnil, append_nil]
      exact .inr ⟨_, rfl⟩
    · rw [ha, ← append_assoc]
      exact .inr ⟨_, rfl⟩

namespace PaxHeader

def read (p : PaxHeader) : Option (List UInt8) := paxPathOf none p.text

theorem read_eq (p : PaxHeader) : ∃ path,
    p.read = (paxPathOf none (p.after.flatMap PaxRecord.bytes)).or
      ((paxPathOf none (pathText p.digits p.path)).or path) := by
  unfold read text paxText
  rcases flatMap_bytes p.before with hnil | ⟨a, ha⟩
  · refine ⟨none, ?_⟩
    rw [hnil, nil_append, paxPathOf_append, paxPathOf_or, or_none]
  · refine ⟨paxPathOf none a, ?_⟩
    rw [ha, append_assoc, singleton_append, paxPathOf_append, paxPathOf_append,
      paxPathOf_or, paxPathOf_or (paxPathOf none a)]

theorem paxPathOf_pathText (p : PaxHeader) (h : isOneLine p.path = true) :
    paxPathOf none (pathText p.digits p.path) = some p.path := by
  have hlf : 10 ∉ pathText p.digits p.path := by
    intro hmem
    rcases mem_append.mp hmem with hmem | hmem
    · rcases mem_append.mp hmem with hmem | hmem
      · exact absurd (p.decimal 10 hmem) (by decide)
      · exact absurd hmem (by decide)
    · exact isOneLine_lf h hmem
  unfold paxPathOf
  rw [splitOn_eq_singleton hlf, foldl_cons, foldl_nil, pathRecord_pathText p.some_digit p.decimal h]
  rfl

theorem read_eq_iff (p : PaxHeader) (own : List UInt8) :
    p.read.getD own = p.path ↔ p.Legible own := by
  obtain ⟨earlier, hread⟩ := p.read_eq
  unfold Legible
  cases hafter : paxPathOf none (p.after.flatMap PaxRecord.bytes) with
  | some path =>
    rw [hread, hafter]
    exact Iff.rfl
  | none =>
    rw [hafter, none_or] at hread
    by_cases hline : isOneLine p.path = true
    · rw [p.paxPathOf_pathText hline] at hread
      rw [hread]
      exact iff_of_true rfl (.inl hline)
    · constructor
      · intro hpath
        cases h : p.read with
        | none =>
          rw [h] at hpath
          exact .inr ⟨paxPathOf_none.mp h, hpath⟩
        | some value =>
          rw [h] at hpath
          have hvalue := paxPathOf_isOneLine h
          rw [show value = p.path from hpath] at hvalue
          exact absurd hvalue hline
      · rintro (h | ⟨hnone, hown⟩)
        · exact absurd h hline
        · rw [show p.read = none from paxPathOf_none.mpr hnone]
          exact hown

end PaxHeader

end pax

/-! ## Reading an archive -/

section members

variable {pre post data out : List UInt8} {tar : List UInt8} {s : TarState}

theorem subarray_append (a b c : List UInt8) {stop : Int} (h : stop = a.length + b.length) :
    subarray (a ++ (b ++ c)) a.length stop = b := by
  have hstart : offsetOf (a ++ (b ++ c)) a.length = a.length := by
    unfold offsetOf
    rw [if_neg (by omega)]
    exact Int.toNat_natCast _
  have hstop : offsetOf (a ++ (b ++ c)) stop = (a ++ b).length := by
    unfold offsetOf
    rw [if_neg (by omega), length_append]
    omega
  unfold subarray
  rw [hstart, hstop, ← append_assoc, take_left, drop_left]

theorem length_inBlocks (data : List UInt8) :
    ((inBlocks data).length : Int) = -(-(data.length : Int) / 512) * 512 := by
  unfold inBlocks
  rw [length_append, length_replicate]
  omega

section header

variable {h : Header} {f : SizeField data.length} {type : UInt8}

section

variable (htar : tar = pre ++ (h.bytes f type ++ (inBlocks data ++ post)))
include htar

theorem headerAt_bytes : headerAt tar pre.length = h.bytes f type := by
  rw [htar]
  exact subarray_append _ _ _ (by rw [h.length_bytes]; rfl)

theorem tarRound_bytes (hpos : s.pos = pre.length) :
    tarRound tar s = some { readMember tar s with
      pos := ((pre ++ (h.bytes f type ++ inBlocks data)).length : Nat) } := by
  have hheaderAt := headerAt_bytes htar
  have hheader : isHeader tar s.pos = true := by
    unfold isHeader
    rw [hpos, hheaderAt, h.not_zeros f type, htar, Bool.and_eq_true_iff]
    refine ⟨decide_eq_true ?_, rfl⟩
    simp only [length_append, h.length_bytes]
    omega
  have hnext : nextHeader tar s.pos =
      ((pre ++ (h.bytes f type ++ inBlocks data)).length : Nat) := by
    have hsize : headerSize (h.bytes f type) = data.length := h.field_size f type
    unfold nextHeader
    rw [hpos, hheaderAt, hsize, ← length_inBlocks]
    simp only [length_append, h.length_bytes]
    omega
  unfold tarRound
  rw [if_pos hheader, hnext]

theorem readMember_bytes (hpos : s.pos = pre.length) :
    readMember tar s =
      if type = 120 then { s with paxPath := paxPathOf s.paxPath data }
      else if type = 76 then { s with longName := some (data.takeWhile (· ≠ 0)) }
      else if type = 48 ∨ type = 0 then
        { s with
          paxPath := none
          longName := none
          out := s.out ++ [⟨(s.paxPath.or s.longName).getD h.fullName, data.length,
            ((pre.length + 512 : Nat) : Int)⟩] }
      else { s with paxPath := none, longName := none } := by
  have hsize : headerSize (h.bytes f type) = data.length := h.field_size f type
  have hdata : subarray tar ((pre.length : Int) + 512) ((pre.length : Int) + 512 + data.length) =
      data := by
    have hsplit : tar = (pre ++ h.bytes f type) ++
        (data ++ (List.replicate ((512 - data.length % 512) % 512) 0 ++ post)) := by
      rw [htar]
      simp only [inBlocks, append_assoc]
    have hlength : ((pre ++ h.bytes f type).length : Int) = (pre.length : Int) + 512 := by
      rw [length_append, h.length_bytes]
      rfl
    rw [hsplit, ← hlength]
    exact subarray_append _ _ _ rfl
  unfold readMember
  rw [hpos, headerAt_bytes htar]
  simp only [hsize, hdata, h.field_type f type, h.headerName_bytes f type]
  by_cases h0 : type = 0
  · subst h0
    rfl
  · rw [if_neg h0]
    simp [h0]

end

end header

namespace Member

variable (m : Member)

def readName : List UInt8 :=
  match m.pax with
  | none => m.header.fullName
  | some p => p.read.getD m.header.fullName

theorem tarRound_header {path : Option (List UInt8)} {out : List TarEntry}
    (htar : tar = pre ++ (m.header.bytes m.size m.type ++ (inBlocks m.data ++ post))) :
    tarRound tar ⟨pre.length, path, none, out⟩ = some
      ⟨((pre ++ (m.header.bytes m.size m.type ++ inBlocks m.data)).length : Nat), none, none,
        out ++ if m.Regular then
          [⟨path.getD m.header.fullName, m.data.length, ((pre.length + 512 : Nat) : Int)⟩] else []⟩ := by
  rw [tarRound_bytes htar rfl, readMember_bytes htar rfl]
  rcases m.type_eq with htype | htype | htype
  · have hregular : m.Regular := by unfold Regular; rw [htype]; decide
    rw [htype, if_pos hregular, if_neg (by decide), if_neg (by decide), if_pos (.inl rfl)]
    simp
  · have hregular : m.Regular := by unfold Regular; rw [htype]; decide
    rw [htype, if_pos hregular, if_neg (by decide), if_neg (by decide), if_pos (.inr rfl)]
    simp
  · have hdir : ¬m.Regular := fun hne => hne htype
    rw [htype, if_neg hdir, if_neg (by decide), if_neg (by decide), if_neg (by decide)]
    simp

theorem returns_member {out entries : List TarEntry} (htar : tar = pre ++ (m.bytes ++ post)) :
    Returns tar ⟨pre.length, none, none, out⟩ entries ↔
      Returns tar ⟨((pre ++ m.bytes).length : Nat), none, none,
        out ++ m.entries readName pre.length⟩ entries := by
  cases hpax : m.pax with
  | none =>
    have hbytes : m.bytes = m.header.bytes m.size m.type ++ inBlocks m.data := by
      unfold bytes paxBytes
      rw [hpax, nil_append]
    have hentries : m.entries readName pre.length = if m.Regular then
        [⟨(none : Option (List UInt8)).getD m.header.fullName, m.data.length,
          ((pre.length + 512 : Nat) : Int)⟩] else [] := by
      unfold Member.entries readName paxBytes
      rw [hpax]
      rfl
    have hheader : tar = pre ++ (m.header.bytes m.size m.type ++ (inBlocks m.data ++ post)) := by
      rw [htar, hbytes, append_assoc]
    rw [hentries, hbytes]
    exact returns_of_some (m.tarRound_header hheader)
  | some p =>
    have hbytes : m.bytes = p.bytes ++ (m.header.bytes m.size m.type ++ inBlocks m.data) := by
      unfold bytes paxBytes
      rw [hpax, append_assoc]
    have hentries : m.entries readName pre.length = if m.Regular then
        [⟨p.read.getD m.header.fullName, m.data.length,
          (((pre ++ p.bytes).length + 512 : Nat) : Int)⟩] else [] := by
      unfold Member.entries readName paxBytes
      rw [hpax, length_append]
    have hheader : tar = pre ++ (p.header.bytes p.size 120 ++ (inBlocks p.text ++
        (m.header.bytes m.size m.type ++ inBlocks m.data ++ post))) := by
      rw [htar, hbytes]
      simp only [PaxHeader.bytes, append_assoc]
    have hround : tarRound tar ⟨pre.length, none, none, out⟩ =
        some ⟨((pre ++ p.bytes).length : Nat), p.read, none, out⟩ := by
      rw [tarRound_bytes hheader rfl, readMember_bytes hheader rfl, if_pos rfl]
      rfl
    have hfile : tar = (pre ++ p.bytes) ++
        (m.header.bytes m.size m.type ++ (inBlocks m.data ++ post)) := by
      rw [htar, hbytes]
      simp only [append_assoc]
    rw [returns_of_some hround, hentries, hbytes, ← append_assoc]
    exact returns_of_some (m.tarRound_header hfile)

theorem readName_eq_iff :
    m.readName = m.fullName ↔ ∀ p, m.pax = some p → p.Legible m.header.fullName := by
  unfold readName fullName
  cases m.pax with
  | none => exact iff_of_true rfl (fun p hp => nomatch hp)
  | some p =>
    refine (p.read_eq_iff m.header.fullName).trans ⟨fun h q hq => ?_, fun h => h p rfl⟩
    exact Option.some.inj hq ▸ h

end Member

/-- By induction on the members, each passed over by `returns_member`. -/
theorem returns_archive (rest : List UInt8) (entries : List TarEntry) (members : List Member) :
    ∀ (pre : List UInt8) (out : List TarEntry),
      Returns (pre ++ archive members rest) ⟨pre.length, none, none, out⟩ entries ↔
        entries = out ++ listing Member.readName pre.length members := by
  induction members with
  | nil =>
    intro pre out
    have hzeros : headerAt (pre ++ archive [] rest) pre.length = List.replicate 512 0 := by
      have hsplit : archive [] rest = List.replicate 512 0 ++ (List.replicate 512 0 ++ rest) := by
        show [] ++ (List.replicate (512 + 512) 0 ++ rest) = _
        rw [nil_append, replicate_add, append_assoc]
      rw [hsplit]
      exact subarray_append _ _ _ (by rw [length_replicate]; rfl)
    have hend : tarRound (pre ++ archive [] rest) ⟨pre.length, none, none, out⟩ = none := by
      have hall : (List.replicate 512 (0 : UInt8)).all (· == 0) = true :=
        all_eq_true.mpr fun b hb => beq_iff_eq.mpr (eq_of_mem_replicate hb)
      unfold tarRound isHeader
      rw [hzeros, hall, Bool.not_true, Bool.and_false]
      rfl
    rw [returns_of_none hend]
    unfold listing
    rw [append_nil]
  | cons m members ih =>
    intro pre out
    have htar : pre ++ archive (m :: members) rest = pre ++ (m.bytes ++ archive members rest) := by
      unfold archive
      rw [flatMap_cons, append_assoc]
    rw [m.returns_member htar, htar, ← append_assoc, ih (pre ++ m.bytes), append_assoc,
      length_append]
    rfl

theorem listing_eq_iff {name name' : Member → List UInt8} (members : List Member) (pos : Nat) :
    listing name pos members = listing name' pos members ↔
      ∀ m ∈ members, m.Regular → name m = name' m := by
  induction members generalizing pos with
  | nil => exact iff_of_true rfl (fun m hm => nomatch hm)
  | cons m members ih =>
    unfold listing Member.entries
    by_cases hregular : m.Regular
    · simp only [if_pos hregular, cons_append, nil_append, List.cons.injEq,
        TarEntry.mk.injEq, and_true, ih, forall_mem_cons]
      exact and_congr_left fun _ => ⟨fun h _ => h, fun h => h hregular⟩
    · simp only [if_neg hregular, nil_append, ih, forall_mem_cons]
      exact ⟨fun h => ⟨fun hr => absurd hr hregular, h⟩, fun h => h.2⟩

theorem tarEntries_archive (members : List Member) (rest : List UInt8) :
    TarEntries (archive members rest) (listing Member.fullName 0 members) ↔ Legible members := by
  have hreturns := returns_archive rest (listing Member.fullName 0 members) members [] []
  refine hreturns.trans ?_
  rw [nil_append]
  refine eq_comm.trans ((listing_eq_iff members 0).trans ?_)
  exact forall_congr' fun m => forall_congr' fun _ => forall_congr' fun _ => m.readName_eq_iff

end members

/-- The reader ends, going forward, exactly on the buffers in which no header that it comes to
declares minus a block or less; and it lists the regular files of an archive exactly if their
paths in pax headers are legible. -/
theorem tarEntries_iff (tar : List UInt8) (members : List Member) (rest : List UInt8) :
    (Ends tar ↔ SizesForward tar) ∧
      (TarEntries (archive members rest) (listing Member.fullName 0 members) ↔ Legible members) :=
  ⟨ends_iff tar, tarEntries_archive members rest⟩

/-- A header of a regular file with `-1000` in its size. -/
def backwardTar : List UInt8 :=
  List.replicate 124 0 ++ [45, 49, 48, 48, 48] ++ List.replicate 27 0 ++ [48] ++
    List.replicate 355 0

/-- On a header that declares minus a block the loop stays where it is, however long it runs. -/
theorem backwardTar_endless : (∀ entries, ¬TarEntries backwardTar entries) ∧ ¬∀ tar, Ends tar := by
  have hstays (s : TarState) (hpos : s.pos = 0) :
      ∃ s', tarRound backwardTar s = some s' ∧ s'.pos = 0 := by
    have hheader : isHeader backwardTar 0 = true := by decide +kernel
    have hnext : nextHeader backwardTar 0 = 0 := by decide +kernel
    refine ⟨{ readMember backwardTar s with pos := 0 }, ?_, rfl⟩
    unfold tarRound
    rw [hpos, if_pos hheader, hnext]
  have hnever (rounds : Nat) : ∀ s : TarState, s.pos = 0 → tarLoop backwardTar rounds s = none := by
    induction rounds with
    | zero => exact fun s _ => rfl
    | succ rounds ih =>
      intro s hpos
      obtain ⟨s', hround, hpos'⟩ := hstays s hpos
      simp only [tarLoop, hround]
      exact ih s' hpos'
  have hendless : ∀ entries, ¬TarEntries backwardTar entries := by
    rintro entries ⟨rounds, hrun⟩
    rw [hnever rounds .start rfl] at hrun
    cases hrun
  refine ⟨hendless, fun hends => ?_⟩
  obtain ⟨entries, hentries, _⟩ := (hends backwardTar).1
  exact hendless entries hentries

end Chicoree.Charts
