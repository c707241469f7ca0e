import Mathlib.Algebra.Order.Ring.Int
import Mathlib.Data.List.Basic

/-! # The packets of a signature block

`pgpKeyId` of `helm.ts` walks the packets of a signature block to the first signature, and the
subpackets of that to its issuer. The walk goes by indices and reads lengths in several
encodings. It is compared with a reading of the bytes as a sequence of packets, in which nothing
is read that is not there. -/

namespace Chicoree.Charts

open List Option

/-! ## Reads of a buffer -/

/-- What `b[i]` does: `none` where the reader may not go on, and `some none` for `undefined`. -/
abbrev Index : Type := List UInt8 → Nat → Option (Option Nat)

/-- An index outside of the buffer gives `undefined`. -/
def undefinedOutside : Index := fun b i => some (b[i]?.map UInt8.toNat)

def insideOnly : Index := fun b i => b[i]?.map fun x => some x.toNat

def bigEndian (b : List UInt8) : Nat := b.foldl (fun n x => n * 256 + x.toNat) 0

/-- `readUInt16BE(i)` and `readUInt32BE(i)`, which throw where the buffer ends before. -/
def readUIntBE (octets : Nat) (b : List UInt8) (i : Nat) : Option Nat :=
  if i + octets ≤ b.length then some (bigEndian ((b.drop i).take octets)) else none

/-! ## The walk -/

def isPacket (tag : Nat) : Prop := tag &&& 0x80 ≠ 0

def isNew (tag : Nat) : Prop := tag &&& 0x40 ≠ 0

def lengthType (tag : Nat) : Nat := tag &&& 0x03

instance (tag : Nat) : Decidable (isPacket tag) := inferInstanceAs (Decidable (_ ≠ _))

instance (tag : Nat) : Decidable (isNew tag) := inferInstanceAs (Decidable (_ ≠ _))

def packetTag (tag : Nat) : Nat := if isNew tag then tag &&& 0x3f else (tag >>> 2) &&& 0x0f

def twoOctets (a b : Nat) : Nat := ((a - 192) <<< 8) + b + 192

/-- A length of the walk; `bodyLen` is `none` for `undefined` and `NaN`. -/
structure PacketLength where
  octets : Nat
  bodyLen : Option Nat

/-- A subpacket's length with the octets of it after the first, and the subpacket's type. -/
structure SubpacketHeader where
  more : Nat
  sl : Option Nat
  type : Nat

section walk

variable (index : Index)

/-- The length of a packet whose tag is before `i`. The walk gives up on a length that is not
definite. -/
def packetLength (der : List UInt8) (i tag : Nat) : Option (Option PacketLength) :=
  if isNew tag then
    match index der i with
    | none => none
    | some none => some none
    | some (some l) =>
      if l < 192 then some (some ⟨1, some l⟩)
      else if l < 224 then (index der (i + 1)).map fun low => some ⟨2, low.map (twoOctets l)⟩
      else if l = 255 then (readUIntBE 4 der (i + 1)).map fun n => some ⟨5, some n⟩
      else some none
  else if lengthType tag = 0 then (index der i).map fun l => some ⟨1, l⟩
  else if lengthType tag = 1 then (readUIntBE 2 der i).map fun n => some ⟨2, some n⟩
  else if lengthType tag = 2 then (readUIntBE 4 der i).map fun n => some ⟨4, some n⟩
  else some none

def subpacketLength (sig : List UInt8) (p : Nat) : Option (Nat × Option Nat) :=
  match index sig p with
  | none => none
  | some none => some (0, none)
  | some (some sl) =>
    if 192 ≤ sl ∧ sl < 255 then (index sig (p + 1)).map fun low => (1, low.map (twoOctets sl))
    else if sl = 255 then (readUIntBE 4 sig (p + 1)).map fun n => (4, some n)
    else some (0, some sl)

def subpacketHeader (sig : List UInt8) (p : Nat) : Option SubpacketHeader :=
  match subpacketLength index sig p with
  | none => none
  | some (more, sl) =>
    (index sig (p + (1 + more))).map fun type => ⟨more, sl, (type.map (· &&& 0x7f)).getD 0⟩

/-- The subpackets of an area that ends at `stop`: the issuer, or where the walk goes on. A length
that is not a number ends the loop, and so does the end of the area: each round takes an octet. -/
def area (sig : List UInt8) (stop p : Nat) : Option (List UInt8 ⊕ Option Nat) :=
  if p < stop then
    match subpacketHeader index sig p with
    | none => none
    | some h =>
      if h.type = 16 ∧ h.sl = some 9 then
        some (.inl ((sig.drop (p + (1 + h.more) + 1)).take 8))
      else
        match h.sl with
        | none => some (.inr none)
        | some sl => area sig stop (p + (1 + h.more) + sl)
  else some (.inr (some p))
termination_by stop - p

/-- The areas that are left. `readUInt16BE` does not take a position that is not a number. -/
def areas (sig : List UInt8) : Nat → Option Nat → Option (Option (List UInt8))
  | 0, _ => some none
  | _ + 1, none => none
  | left + 1, some p =>
    match readUIntBE 2 sig p with
    | none => none
    | some len =>
      match area index sig (p + 2 + len) (p + 2) with
      | none => none
      | some (.inl key) => some (some key)
      | some (.inr p) => areas sig left p

def signature (sig : List UInt8) : Option (Option (List UInt8)) :=
  match index sig 0 with
  | none => none
  | some version => if version = some 4 then areas index sig 2 (some 4) else some none

/-- `subarray(start, start + len)`; an end that is not a number counts as 0. -/
def bodyOf (der : List UInt8) (start : Nat) (len : Option Nat) : List UInt8 :=
  (der.take ((len.map (start + ·)).getD 0)).drop start

/-- The issuer of the first signature packet from a position on; `none` if a read throws. A packet
takes two octets at least, so the loop ends on every buffer. -/
def packets (der : List UInt8) (pos : Nat) : Option (Option (List UInt8)) :=
  if pos < der.length then
    match index der pos with
    | none => none
    | some none => some none
    | some (some tag) =>
      if isPacket tag then
        match packetLength index der (pos + 1) tag with
        | none => none
        | some none => some none
        | some (some h) =>
          if packetTag tag = 2 then signature index (bodyOf der (pos + 1 + h.octets) h.bodyLen)
          else
            match h.bodyLen with
            | none => some none
            | some len => packets der (pos + 1 + h.octets + len)
      else some none
  else some none
termination_by der.length - pos

end walk

/-! ## Packets -/

/-- Octets after a tag that give the length of the packet's body. -/
inductive LengthOctets (tag : Nat) : Nat → List UInt8 → Prop where
  | one (hnew : isNew tag) {l : UInt8} (hl : l.toNat < 192) : LengthOctets tag l.toNat [l]
  | two (hnew : isNew tag) {a b : UInt8} (ha : 192 ≤ a.toNat) (ha' : a.toNat < 224) :
      LengthOctets tag (twoOctets a.toNat b.toNat) [a, b]
  | five (hnew : isNew tag) {a : UInt8} {b : List UInt8} (ha : a.toNat = 255)
      (hb : b.length = 4) : LengthOctets tag (bigEndian b) (a :: b)
  | oldOne (hold : ¬isNew tag) (htype : lengthType tag = 0) {l : UInt8} :
      LengthOctets tag l.toNat [l]
  | oldTwo (hold : ¬isNew tag) (htype : lengthType tag = 1) {b : List UInt8}
      (hb : b.length = 2) : LengthOctets tag (bigEndian b) b
  | oldFour (hold : ¬isNew tag) (htype : lengthType tag = 2) {b : List UInt8}
      (hb : b.length = 4) : LengthOctets tag (bigEndian b) b

/-- What follows the tag gives no definite length. -/
inductive Indefinite (tag : Nat) : List UInt8 → Prop where
  | part (hnew : isNew tag) {l : UInt8} {s : List UInt8} (hl : 224 ≤ l.toNat)
      (hl' : l.toNat < 255) : Indefinite tag (l :: s)
  | old (hold : ¬isNew tag) (htype : lengthType tag = 3) (s : List UInt8) : Indefinite tag s

inductive SubpacketLength : Nat → List UInt8 → Prop where
  | one {l : UInt8} (hl : l.toNat < 192) : SubpacketLength l.toNat [l]
  | two {a b : UInt8} (ha : 192 ≤ a.toNat) (ha' : a.toNat < 255) :
      SubpacketLength (twoOctets a.toNat b.toNat) [a, b]
  | five {a : UInt8} {b : List UInt8} (ha : a.toNat = 255) (hb : b.length = 4) :
      SubpacketLength (bigEndian b) (a :: b)

/-- The subpacket that names the issuer. -/
def IsIssuer (type : UInt8) (len : Nat) : Prop := type.toNat &&& 0x7f = 16 ∧ len = 9

instance (type : UInt8) (len : Nat) : Decidable (IsIssuer type len) :=
  inferInstanceAs (Decidable (_ ∧ _))

/-! ## Reading the packets

Every octet a reader looks at is there. A length may still say more than there is: what it then
skips are the octets that are left. -/

inductive ReadsArea : Nat → List UInt8 → List UInt8 ⊕ List UInt8 → Prop where
  | stop (s : List UInt8) : ReadsArea 0 s (.inr s)
  | issuer {left len : Nat} {octets rest : List UInt8} {type : UInt8} (hleft : 0 < left)
      (hlen : SubpacketLength len octets) (htype : IsIssuer type len) :
      ReadsArea left (octets ++ type :: rest) (.inl (rest.take 8))
  | skip {left len : Nat} {octets rest : List UInt8} {type : UInt8}
      {out : List UInt8 ⊕ List UInt8} (hleft : 0 < left) (hlen : SubpacketLength len octets)
      (htype : ¬IsIssuer type len)
      (hrest : ReadsArea (left - (octets.length + len)) ((type :: rest).drop len) out) :
      ReadsArea left (octets ++ type :: rest) out

inductive ReadsAreas : Nat → List UInt8 → Option (List UInt8) → Prop where
  | done (s : List UInt8) : ReadsAreas 0 s none
  | issuer {n : Nat} {len s key : List UInt8} (hlen : len.length = 2)
      (h : ReadsArea (bigEndian len) s (.inl key)) : ReadsAreas (n + 1) (len ++ s) (some key)
  | next {n : Nat} {len s rest : List UInt8} {key : Option (List UInt8)} (hlen : len.length = 2)
      (h : ReadsArea (bigEndian len) s (.inr rest)) (hrest : ReadsAreas n rest key) :
      ReadsAreas (n + 1) (len ++ s) key

/-- The body of a signature: of another version, or with two areas after four octets. -/
inductive ReadsSignature : List UInt8 → Option (List UInt8) → Prop where
  | other {version : UInt8} (s : List UInt8) (hversion : version.toNat ≠ 4) :
      ReadsSignature (version :: s) none
  | four {version : UInt8} {s : List UInt8} {key : Option (List UInt8)}
      (hversion : version.toNat = 4) (h : ReadsAreas 2 (s.drop 3) key) :
      ReadsSignature (version :: s) key

/-- The packets up to the first signature, and the issuer of that. -/
inductive Reads : List UInt8 → Option (List UInt8) → Prop where
  | nil : Reads [] none
  | other {tag : UInt8} (s : List UInt8) (htag : ¬isPacket tag.toNat) : Reads (tag :: s) none
  | indefinite {tag : UInt8} {s : List UInt8} (htag : isPacket tag.toNat)
      (hs : Indefinite tag.toNat s) : Reads (tag :: s) none
  | packet {tag : UInt8} {len : Nat} {octets rest : List UInt8} {key : Option (List UInt8)}
      (htag : isPacket tag.toNat) (hlen : LengthOctets tag.toNat len octets)
      (htype : packetTag tag.toNat ≠ 2) (hrest : Reads (rest.drop len) key) :
      Reads (tag :: (octets ++ rest)) key
  | signature {tag : UInt8} {len : Nat} {octets rest : List UInt8} {key : Option (List UInt8)}
      (htag : isPacket tag.toNat) (hlen : LengthOctets tag.toNat len octets)
      (htype : packetTag tag.toNat = 2) (hbody : ReadsSignature (rest.take len) key) :
      Reads (tag :: (octets ++ rest)) key

inductive Subpackets : List UInt8 → Prop where
  | nil : Subpackets []
  | cons {octets data rest : List UInt8} {type : UInt8}
      (hlen : SubpacketLength (data.length + 1) octets) (hrest : Subpackets rest) :
      Subpackets (octets ++ (type :: data ++ rest))

inductive Area : List UInt8 → Prop where
  | mk {len s : List UInt8} (hlen : len.length = 2) (hs : s.length = bigEndian len)
      (h : Subpackets s) : Area (len ++ s)

inductive SignatureBody : List UInt8 → Prop where
  | other {version : UInt8} (s : List UInt8) (hversion : version.toNat ≠ 4) :
      SignatureBody (version :: s)
  | four {version : UInt8} {kinds hashed unhashed rest : List UInt8}
      (hversion : version.toNat = 4) (hkinds : kinds.length = 3) (hhashed : Area hashed)
      (hunhashed : Area unhashed) :
      SignatureBody (version :: (kinds ++ (hashed ++ (unhashed ++ rest))))

inductive Packets : List UInt8 → Prop where
  | nil : Packets []
  | cons {tag : UInt8} {octets body rest : List UInt8} (htag : isPacket tag.toNat)
      (hlen : LengthOctets tag.toNat body.length octets)
      (hbody : packetTag tag.toNat = 2 → SignatureBody body) (hrest : Packets rest) :
      Packets (tag :: (octets ++ (body ++ rest)))

section reads

variable {b os rest : List UInt8} {x : UInt8} {i n : Nat} {v : Option Nat}

theorem drop_next (h : b.drop i = x :: rest) : b.drop (i + 1) = rest := by
  rw [← drop_drop, h]
  rfl

theorem drop_after (h : b.drop i = os ++ rest) : b.drop (i + os.length) = rest := by
  rw [← drop_drop, h, drop_left]

theorem insideOnly_drop (h : b.drop i = x :: rest) : insideOnly b i = some (some x.toNat) := by
  have hget : b[i]? = some x := by
    rw [← Nat.add_zero i, ← getElem?_drop, h]
    rfl
  unfold insideOnly
  rw [hget]
  rfl

theorem of_insideOnly (h : insideOnly b i = some v) :
    ∃ x rest, b.drop i = x :: rest ∧ v = some x.toNat := by
  cases hs : b.drop i with
  | nil =>
    have hget : b[i]? = none := by
      rw [← Nat.add_zero i, ← getElem?_drop, hs]
      rfl
    unfold insideOnly at h
    rw [hget] at h
    cases h
  | cons x rest =>
    rw [insideOnly_drop hs] at h
    exact ⟨x, rest, rfl, (Option.some.inj h).symm⟩

theorem readUIntBE_drop (h : b.drop i = os ++ rest) (hn : os.length = n) (hpos : 0 < n) :
    readUIntBE n b i = some (bigEndian os) := by
  have hlength : b.length - i = os.length + rest.length := by
    rw [← length_drop, h, length_append]
  unfold readUIntBE
  rw [if_pos (by omega), h, ← hn, take_left]

theorem of_readUIntBE {len : Nat} (h : readUIntBE n b i = some len) :
    ∃ os rest, b.drop i = os ++ rest ∧ os.length = n ∧ len = bigEndian os := by
  unfold readUIntBE at h
  by_cases hfits : i + n ≤ b.length
  · rw [if_pos hfits] at h
    refine ⟨(b.drop i).take n, (b.drop i).drop n, (take_append_drop _ _).symm, ?_,
      (Option.some.inj h).symm⟩
    rw [length_take, length_drop]
    omega
  · rw [if_neg hfits] at h
    cases h

end reads

/-! ## Lengths -/

section lengths

variable {b os rest : List UInt8} {i tag len : Nat}

theorem packetLength_of (h : LengthOctets tag len os) (hs : b.drop i = os ++ rest) :
    packetLength insideOnly b i tag = some (some ⟨os.length, some len⟩) := by
  unfold packetLength
  cases h with
  | one hnew hl =>
    rw [if_pos hnew, insideOnly_drop hs]
    simp only [if_pos hl]
    rfl
  | two hnew ha ha' =>
    rw [if_pos hnew, insideOnly_drop hs]
    simp only [if_neg (Nat.not_lt.mpr ha), if_pos ha', insideOnly_drop (drop_next hs)]
    rfl
  | five hnew ha hb =>
    rw [if_pos hnew, insideOnly_drop hs]
    simp only [ha, readUIntBE_drop (drop_next hs) hb (by decide)]
    rw [length_cons, hb]
    rfl
  | oldOne hold htype =>
    rw [if_neg hold, if_pos htype, insideOnly_drop hs]
    rfl
  | oldTwo hold htype hb | oldFour hold htype hb =>
    rw [if_neg hold, htype, readUIntBE_drop hs hb (by decide), hb]
    rfl

theorem packetLength_of_indefinite (h : Indefinite tag (b.drop i)) :
    packetLength insideOnly b i tag = some none := by
  unfold packetLength
  cases hs : b.drop i with
  | nil =>
    rw [hs] at h
    cases h with
    | old hold htype => rw [if_neg hold, htype]; rfl
  | cons l s =>
    rw [hs] at h
    cases h with
    | part hnew hl hl' =>
      rw [if_pos hnew, insideOnly_drop hs]
      simp only [if_neg (show ¬l.toNat < 192 by omega), if_neg (Nat.not_lt.mpr hl),
        if_neg (Nat.ne_of_lt hl')]
    | old hold htype => rw [if_neg hold, htype]; rfl

/-- A length that is read without leaving the buffer is given by octets that are there. -/
theorem of_packetLength {x : Option PacketLength} (h : packetLength insideOnly b i tag = some x) :
    x = none ∧ Indefinite tag (b.drop i) ∨
      ∃ len os rest, x = some ⟨os.length, some len⟩ ∧ b.drop i = os ++ rest ∧
        LengthOctets tag len os := by
  unfold packetLength at h
  by_cases hnew : isNew tag
  · rw [if_pos hnew] at h
    cases hread : insideOnly b i with
    | none => simp only [hread] at h; cases h
    | some v =>
      obtain ⟨l, s, hs, rfl⟩ := of_insideOnly hread
      have hl256 : l.toNat < 256 := l.toNat_lt
      simp only [hread] at h
      by_cases hone : l.toNat < 192
      · rw [if_pos hone] at h
        exact .inr ⟨_, [l], s, (Option.some.inj h).symm, hs, .one hnew hone⟩
      rw [if_neg hone] at h
      by_cases htwo : l.toNat < 224
      · rw [if_pos htwo] at h
        obtain ⟨w, hw, rfl⟩ := map_eq_some_iff.mp h
        obtain ⟨low, s', hs', rfl⟩ := of_insideOnly hw
        rw [drop_next hs] at hs'
        exact .inr ⟨_, [l, low], s', rfl, by rw [hs, hs']; rfl, .two hnew (Nat.not_lt.mp hone) htwo⟩
      rw [if_neg htwo] at h
      by_cases hfive : l.toNat = 255
      · rw [if_pos hfive] at h
        obtain ⟨n, hn, rfl⟩ := map_eq_some_iff.mp h
        obtain ⟨os, s', hs', hos, rfl⟩ := of_readUIntBE hn
        rw [drop_next hs] at hs'
        refine .inr ⟨_, l :: os, s', ?_, by rw [hs, hs']; rfl, .five hnew hfive hos⟩
        rw [length_cons, hos]
      · rw [if_neg hfive] at h
        refine .inl ⟨(Option.some.inj h).symm, ?_⟩
        rw [hs]
        exact .part hnew (Nat.not_lt.mp htwo) (by omega)
  · rw [if_neg hnew] at h
    by_cases h0 : lengthType tag = 0
    · rw [if_pos h0] at h
      obtain ⟨v, hv, rfl⟩ := map_eq_some_iff.mp h
      obtain ⟨l, s, hs, rfl⟩ := of_insideOnly hv
      exact .inr ⟨_, [l], s, rfl, hs, .oldOne hnew h0⟩
    rw [if_neg h0] at h
    by_cases h1 : lengthType tag = 1
    · rw [if_pos h1] at h
      obtain ⟨n, hn, rfl⟩ := map_eq_some_iff.mp h
      obtain ⟨os, s, hs, hos, rfl⟩ := of_readUIntBE hn
      exact .inr ⟨_, os, s, by rw [hos], hs, .oldTwo hnew h1 hos⟩
    rw [if_neg h1] at h
    by_cases h2 : lengthType tag = 2
    · rw [if_pos h2] at h
      obtain ⟨n, hn, rfl⟩ := map_eq_some_iff.mp h
      obtain ⟨os, s, hs, hos, rfl⟩ := of_readUIntBE hn
      exact .inr ⟨_, os, s, by rw [hos], hs, .oldFour hnew h2 hos⟩
    · rw [if_neg h2] at h
      have hlt : lengthType tag ≤ 3 := Nat.and_le_right
      exact .inl ⟨(Option.some.inj h).symm, .old hnew (by omega) _⟩

theorem subpacketHeader_of {type : UInt8} (h : SubpacketLength len os)
    (hs : b.drop i = os ++ type :: rest) :
    subpacketHeader insideOnly b i = some ⟨os.length - 1, some len, type.toNat &&& 0x7f⟩ := by
  have hlength : subpacketLength insideOnly b i = some (os.length - 1, some len) := by
    unfold subpacketLength
    cases h with
    | @one l hl =>
      have htwo : ¬(192 ≤ l.toNat ∧ l.toNat < 255) := by omega
      have hfive : l.toNat ≠ 255 := by omega
      rw [insideOnly_drop hs]
      simp only [if_neg htwo, if_neg hfive]
      rfl
    | two ha ha' =>
      rw [insideOnly_drop hs]
      simp only [if_pos (And.intro ha ha'), insideOnly_drop (drop_next hs)]
      rfl
    | five ha hb =>
      rw [insideOnly_drop hs]
      simp only [ha, readUIntBE_drop (drop_next hs) hb (by decide)]
      rw [length_cons, hb]
      rfl
  have hos : 1 + (os.length - 1) = os.length := by
    cases h <;> simp only [length_cons] <;> omega
  unfold subpacketHeader
  simp only [hlength]
  rw [hos, insideOnly_drop (drop_after hs)]
  rfl

theorem of_subpacketHeader {x : SubpacketHeader} (h : subpacketHeader insideOnly b i = some x) :
    ∃ len os rest, ∃ type : UInt8, x = ⟨os.length - 1, some len, type.toNat &&& 0x7f⟩ ∧
      b.drop i = os ++ type :: rest ∧ SubpacketLength len os := by
  have hlength (y : Nat × Option Nat) (hy : subpacketLength insideOnly b i = some y) :
      ∃ len os rest, y = (os.length - 1, some len) ∧ b.drop i = os ++ rest ∧
        SubpacketLength len os := by
    unfold subpacketLength at hy
    cases hread : insideOnly b i with
    | none => simp only [hread] at hy; cases hy
    | some v =>
      obtain ⟨l, s, hs, rfl⟩ := of_insideOnly hread
      have hl256 : l.toNat < 256 := l.toNat_lt
      simp only [hread] at hy
      by_cases htwo : 192 ≤ l.toNat ∧ l.toNat < 255
      · rw [if_pos htwo] at hy
        obtain ⟨w, hw, rfl⟩ := map_eq_some_iff.mp hy
        obtain ⟨low, s', hs', rfl⟩ := of_insideOnly hw
        rw [drop_next hs] at hs'
        exact ⟨_, [l, low], s', rfl, by rw [hs, hs']; rfl, .two htwo.1 htwo.2⟩
      rw [if_neg htwo] at hy
      by_cases hfive : l.toNat = 255
      · rw [if_pos hfive] at hy
        obtain ⟨n, hn, rfl⟩ := map_eq_some_iff.mp hy
        obtain ⟨os, s', hs', hos, rfl⟩ := of_readUIntBE hn
        rw [drop_next hs] at hs'
        refine ⟨_, l :: os, s', ?_, by rw [hs, hs']; rfl, .five hfive hos⟩
        rw [length_cons, hos]
      · rw [if_neg hfive] at hy
        exact ⟨_, [l], s, (Option.some.inj hy).symm, hs, .one (by omega)⟩
  unfold subpacketHeader at h
  cases hy : subpacketLength insideOnly b i with
  | none => simp only [hy] at h; cases h
  | some y =>
    obtain ⟨len, os, rest, rfl, hs, hlen⟩ := hlength y hy
    have hos : 1 + (os.length - 1) = os.length := by
      cases hlen <;> simp only [length_cons] <;> omega
    simp only [hy] at h
    obtain ⟨w, hw, rfl⟩ := map_eq_some_iff.mp h
    obtain ⟨type, rest', hs', rfl⟩ := of_insideOnly hw
    rw [hos, drop_after hs] at hs'
    exact ⟨len, os, rest', type, rfl, by rw [hs, hs'], hlen⟩

end lengths

/-! ## The walk reads what is there -/

variable {out : List UInt8 ⊕ Option Nat}

section walk

variable {sig der s : List UInt8} {p pos stop : Nat}

/-- What a walk over an area comes to: the issuer, or the octets it goes on with. -/
def areaRest (sig : List UInt8) : List UInt8 ⊕ Option Nat → Option (List UInt8 ⊕ List UInt8)
  | .inl key => some (.inl key)
  | .inr (some p) => some (.inr (sig.drop p))
  | .inr none => none

/-- By induction on the reading, whose octets are the ones from `p` on. -/
theorem area_of_reads (stop : Nat) {left : Nat} {out : List UInt8 ⊕ List UInt8}
    (h : ReadsArea left s out) :
    ∀ p, sig.drop p = s → stop - p = left →
      (area insideOnly sig stop p).bind (areaRest sig) = some out := by
  induction h with
  | stop s =>
    intro p hs hleft
    unfold area
    rw [if_neg (by omega), bind_some]
    show some (Sum.inr (sig.drop p)) = _
    rw [hs]
  | @issuer left len octets rest type hleft hlen htype =>
    intro p hs hp
    have hheader := subpacketHeader_of hlen hs
    have hpos : 1 + (octets.length - 1) = octets.length := by
      cases hlen <;> simp only [length_cons] <;> omega
    have hrest : sig.drop (p + octets.length + 1) = rest := drop_next (drop_after hs)
    unfold area
    simp only [if_pos (show p < stop by omega), hheader]
    rw [if_pos ⟨htype.1, by rw [htype.2]⟩, hpos, hrest]
    rfl
  | @skip left len octets rest type out hleft hlen htype hrest ih =>
    intro p hs hp
    have hheader := subpacketHeader_of hlen hs
    have hpos : 1 + (octets.length - 1) = octets.length := by
      cases hlen <;> simp only [length_cons] <;> omega
    have hnext : sig.drop (p + octets.length + len) = (type :: rest).drop len := by
      rw [← drop_drop, drop_after hs]
    have hother : ¬(type.toNat &&& 0x7f = 16 ∧ some len = some 9) :=
      fun hc => htype ⟨hc.1, Option.some.inj hc.2⟩
    unfold area
    simp only [if_pos (show p < stop by omega), hheader]
    rw [if_neg hother, hpos]
    exact ih _ hnext (by omega)

/-- By induction on the octets that are left of the area. -/
theorem reads_of_area (left : Nat) :
    ∀ p, stop - p = left → area insideOnly sig stop p = some out →
      ∃ rest, areaRest sig out = some rest ∧ ReadsArea left (sig.drop p) rest := by
  induction left using Nat.strong_induction_on with
  | _ left ih =>
    intro p hp h
    unfold area at h
    by_cases hstop : p < stop
    · rw [if_pos hstop] at h
      cases hheader : subpacketHeader insideOnly sig p with
      | none => simp only [hheader] at h; cases h
      | some x =>
        obtain ⟨len, os, rest, type, rfl, hs, hlen⟩ := of_subpacketHeader hheader
        have hpos : 1 + (os.length - 1) = os.length ∧ 0 < os.length := by
          cases hlen <;> simp only [length_cons] <;> omega
        have hleft : 0 < left := by omega
        simp only [hheader, hpos.1] at h
        rw [hs]
        by_cases hissuer : IsIssuer type len
        · rw [if_pos ⟨hissuer.1, by rw [hissuer.2]⟩, drop_next (drop_after hs)] at h
          cases h
          exact ⟨_, rfl, .issuer hleft hlen hissuer⟩
        · have hother : ¬(type.toNat &&& 0x7f = 16 ∧ some len = some 9) :=
            fun hc => hissuer ⟨hc.1, Option.some.inj hc.2⟩
          have hnext : sig.drop (p + os.length + len) = (type :: rest).drop len := by
            rw [← drop_drop, drop_after hs]
          rw [if_neg hother] at h
          obtain ⟨rest', hout, hreads⟩ :=
            ih (left - (os.length + len)) (by omega) (p + os.length + len) (by omega) h
          rw [hnext] at hreads
          exact ⟨rest', hout, .skip hleft hlen hissuer hreads⟩
    · rw [if_neg hstop] at h
      cases h
      have hzero : left = 0 := by omega
      rw [hzero]
      exact ⟨_, rfl, .stop _⟩

variable {key : Option (List UInt8)}

/-- The walk over the area after its length. -/
theorem area_after {len : List UInt8} {out : List UInt8 ⊕ List UInt8} (hlen : len.length = 2)
    (harea : ReadsArea (bigEndian len) s out) {p : Nat} (hs : sig.drop p = len ++ s) :
    ∃ found, area insideOnly sig (p + 2 + bigEndian len) (p + 2) = some found ∧
      areaRest sig found = some out := by
  have hnext : sig.drop (p + 2) = s := by rw [← hlen]; exact drop_after hs
  exact bind_eq_some_iff.mp (area_of_reads (p + 2 + bigEndian len) harea (p + 2) hnext (by omega))

theorem areas_of_reads {n : Nat} (h : ReadsAreas n s key) :
    ∀ p, sig.drop p = s → areas insideOnly sig n (some p) = some key := by
  induction h with
  | done s => exact fun p _ => rfl
  | @issuer n len s key hlen harea =>
    intro p hs
    obtain ⟨found, hfound, hrest⟩ := area_after hlen harea hs
    unfold areas
    simp only [readUIntBE_drop hs hlen (by decide), hfound]
    match found with
    | .inl key' => cases hrest; rfl
    | .inr none | .inr (some q) => cases hrest
  | @next n len s rest key hlen harea hareas ih =>
    intro p hs
    obtain ⟨found, hfound, hrest⟩ := area_after hlen harea hs
    unfold areas
    simp only [readUIntBE_drop hs hlen (by decide), hfound]
    match found with
    | .inl key' | .inr none => cases hrest
    | .inr (some q) =>
      cases hrest
      exact ih q rfl

theorem reads_of_areas (n : Nat) :
    ∀ p, areas insideOnly sig n (some p) = some key → ReadsAreas n (sig.drop p) key := by
  induction n with
  | zero =>
    intro p h
    cases h
    exact .done _
  | succ n ih =>
    intro p h
    unfold areas at h
    cases hread : readUIntBE 2 sig p with
    | none => simp only [hread] at h; cases h
    | some len =>
      obtain ⟨os, rest, hs, hos, rfl⟩ := of_readUIntBE hread
      have hnext : sig.drop (p + 2) = rest := by rw [← hos]; exact drop_after hs
      simp only [hread] at h
      cases hout : area insideOnly sig (p + 2 + bigEndian os) (p + 2) with
      | none => simp only [hout] at h; cases h
      | some out =>
        obtain ⟨out', hrest, hreads⟩ := reads_of_area (bigEndian os) (p + 2) (by omega) hout
        rw [hnext] at hreads
        rw [hs]
        match out with
        | .inl key' =>
          simp only [hout] at h
          cases h
          cases hrest
          exact .issuer hos hreads
        | .inr none => cases hrest
        | .inr (some q) =>
          simp only [hout] at h
          cases hrest
          exact .next hos hreads (ih q h)

theorem signature_iff : signature insideOnly sig = some key ↔ ReadsSignature sig key := by
  unfold signature
  constructor
  · intro h
    cases hread : insideOnly sig 0 with
    | none => simp only [hread] at h; cases h
    | some v =>
      obtain ⟨version, s, hs, rfl⟩ := of_insideOnly hread
      rw [drop_zero] at hs
      simp only [hread] at h
      rw [hs]
      by_cases h4 : some version.toNat = some 4
      · rw [if_pos h4] at h
        have hareas := reads_of_areas 2 4 h
        rw [hs] at hareas
        exact .four (Option.some.inj h4) hareas
      · rw [if_neg h4] at h
        cases h
        exact .other s (fun hv => h4 (by rw [hv]))
  · intro h
    cases h with
    | @other version s hversion =>
      exact if_neg (fun hv => hversion (Option.some.inj hv))
    | @four version s key hversion hareas =>
      simp only [insideOnly_drop (drop_zero (l := version :: s)), hversion]
      exact areas_of_reads hareas 4 rfl

theorem bodyOf_drop {os rest : List UInt8} {start len : Nat} (hs : der.drop start = os ++ rest) :
    bodyOf der (start + os.length) (some len) = rest.take len := by
  show (der.take (start + os.length + len)).drop (start + os.length) = _
  rw [drop_take, drop_after hs, Nat.add_sub_cancel_left]

/-- By induction on the reading, whose octets are the ones from `pos` on. -/
theorem packets_of_reads (h : Reads s key) :
    ∀ pos, der.drop pos = s → packets insideOnly der pos = some key := by
  have hlt {x : UInt8} {rest : List UInt8} (pos : Nat) (hs : der.drop pos = x :: rest) :
      pos < der.length := by
    by_contra hge
    rw [drop_eq_nil_of_le (Nat.not_lt.mp hge)] at hs
    cases hs
  induction h with
  | nil =>
    intro pos hs
    unfold packets
    exact if_neg (Nat.not_lt.mpr (drop_eq_nil_iff.mp hs))
  | @other tag s htag =>
    intro pos hs
    unfold packets
    simp only [if_pos (hlt pos hs), insideOnly_drop hs]
    exact if_neg htag
  | @indefinite tag s htag hindefinite =>
    intro pos hs
    rw [← drop_next hs] at hindefinite
    unfold packets
    simp only [if_pos (hlt pos hs), insideOnly_drop hs, if_pos htag,
      packetLength_of_indefinite hindefinite]
  | @packet tag len octets rest key htag hlen htype _ ih =>
    intro pos hs
    have hnext := drop_next hs
    unfold packets
    simp only [if_pos (hlt pos hs), insideOnly_drop hs, if_pos htag, packetLength_of hlen hnext,
      if_neg htype]
    refine ih _ ?_
    rw [← drop_drop, drop_after hnext]
  | @signature tag len octets rest key htag hlen htype hbody =>
    intro pos hs
    have hnext := drop_next hs
    unfold packets
    simp only [if_pos (hlt pos hs), insideOnly_drop hs, if_pos htag, packetLength_of hlen hnext,
      if_pos htype, bodyOf_drop hnext]
    exact signature_iff.mpr hbody

/-- By induction on the octets that are left. -/
theorem reads_of_packets (left : Nat) :
    ∀ pos, der.length - pos = left → packets insideOnly der pos = some key →
      Reads (der.drop pos) key := by
  induction left using Nat.strong_induction_on with
  | _ left ih =>
    intro pos hleft h
    unfold packets at h
    by_cases hpos : pos < der.length
    · rw [if_pos hpos] at h
      cases hread : insideOnly der pos with
      | none => simp only [hread] at h; cases h
      | some v =>
        obtain ⟨tag, s, hs, rfl⟩ := of_insideOnly hread
        simp only [hread] at h
        by_cases htag : isPacket tag.toNat
        · rw [if_pos htag] at h
          have hnext := drop_next hs
          cases hlength : packetLength insideOnly der (pos + 1) tag.toNat with
          | none => simp only [hlength] at h; cases h
          | some x =>
            rw [hs]
            rcases of_packetLength hlength with ⟨rfl, hindefinite⟩ | ⟨len, os, rest, rfl, hos, hlen⟩
            · simp only [hlength] at h
              cases h
              rw [hnext] at hindefinite
              exact .indefinite htag hindefinite
            · simp only [hlength] at h
              rw [show s = os ++ rest from hnext.symm.trans hos]
              by_cases htype : packetTag tag.toNat = 2
              · rw [if_pos htype, bodyOf_drop hos] at h
                exact .signature htag hlen htype (signature_iff.mp h)
              · rw [if_neg htype] at h
                have hrest := ih _ (by omega) (pos + 1 + os.length + len) rfl h
                rw [← drop_drop, drop_after hos] at hrest
                exact .packet htag hlen htype hrest
        · rw [if_neg htag] at h
          cases h
          rw [hs]
          exact .other s htag
    · rw [if_neg hpos] at h
      cases h
      rw [drop_eq_nil_of_le (Nat.not_lt.mp hpos)]
      exact .nil

/-- The walk stays inside of the buffer exactly if what it looks at is there. -/
theorem packets_iff : packets insideOnly der 0 = some key ↔ Reads der key :=
  ⟨fun h => reads_of_packets der.length 0 rfl h, fun h => packets_of_reads h 0 rfl⟩

end walk

/-! ## A walk that stays inside does not depend on what is outside -/

/-- Where the one index gives something, the other gives the same. -/
def Refines (index index' : Index) : Prop :=
  ∀ b i v, index b i = some v → index' b i = some v

theorem insideOnly_refines : Refines insideOnly undefinedOutside := by
  intro b i v h
  obtain ⟨x, hx, rfl⟩ := map_eq_some_iff.mp h
  unfold undefinedOutside
  rw [hx]
  rfl

namespace Refines

variable {index index' : Index} (hr : Refines index index') {b : List UInt8} {i p stop tag : Nat}
include hr

theorem map {α : Type} {f : Option Nat → α} {x : α} (h : (index b i).map f = some x) :
    (index' b i).map f = some x := by
  obtain ⟨v, hv, rfl⟩ := map_eq_some_iff.mp h
  rw [hr b i v hv]
  rfl

theorem packetLength {x : Option PacketLength} (h : packetLength index b i tag = some x) :
    Charts.packetLength index' b i tag = some x := by
  unfold Charts.packetLength at h ⊢
  by_cases hnew : isNew tag
  · rw [if_pos hnew] at h ⊢
    cases hread : index b i with
    | none => simp only [hread] at h; cases h
    | some v =>
      simp only [hr b i v hread, hread] at h ⊢
      cases v with
      | none => exact h
      | some l =>
        simp only at h ⊢
        by_cases hone : l < 192
        · rw [if_pos hone] at h ⊢
          exact h
        rw [if_neg hone] at h ⊢
        by_cases htwo : l < 224
        · rw [if_pos htwo] at h ⊢
          exact hr.map h
        · rw [if_neg htwo] at h ⊢
          exact h
  · rw [if_neg hnew] at h ⊢
    by_cases h0 : lengthType tag = 0
    · rw [if_pos h0] at h ⊢
      exact hr.map h
    · rw [if_neg h0] at h ⊢
      exact h

theorem subpacketHeader {x : SubpacketHeader} (h : subpacketHeader index b i = some x) :
    Charts.subpacketHeader index' b i = some x := by
  have hlength {y : Nat × Option Nat} (hy : subpacketLength index b i = some y) :
      subpacketLength index' b i = some y := by
    unfold subpacketLength at hy ⊢
    cases hread : index b i with
    | none => simp only [hread] at hy; cases hy
    | some v =>
      simp only [hr b i v hread, hread] at hy ⊢
      cases v with
      | none => exact hy
      | some l =>
        simp only at hy ⊢
        by_cases htwo : 192 ≤ l ∧ l < 255
        · rw [if_pos htwo] at hy ⊢
          exact hr.map hy
        · rw [if_neg htwo] at hy ⊢
          exact hy
  unfold Charts.subpacketHeader at h ⊢
  split at h
  · cases h
  · rename_i _ hy
    simp only [hlength hy]
    exact hr.map h

theorem area (left : Nat) :
    ∀ p, stop - p = left → Charts.area index b stop p = some out →
      Charts.area index' b stop p = some out := by
  induction left using Nat.strong_induction_on with
  | _ left ih =>
    intro p hp h
    unfold Charts.area at h ⊢
    by_cases hstop : p < stop
    · rw [if_pos hstop] at h ⊢
      split at h
      · cases h
      · rename_i x hheader
        simp only [hr.subpacketHeader hheader]
        by_cases hissuer : x.type = 16 ∧ x.sl = some 9
        · rw [if_pos hissuer] at h ⊢
          exact h
        · rw [if_neg hissuer] at h ⊢
          cases hsl : x.sl with
          | none => simp only [hsl] at h ⊢; exact h
          | some sl =>
            simp only [hsl] at h ⊢
            exact ih _ (by omega) _ rfl h
    · rw [if_neg hstop] at h ⊢
      exact h

variable {key : Option (List UInt8)}

theorem areas (n : Nat) :
    ∀ p, Charts.areas index b n p = some key → Charts.areas index' b n p = some key := by
  induction n with
  | zero => exact fun _ h => h
  | succ n ih =>
    intro p h
    cases p with
    | none => cases h
    | some p =>
      unfold Charts.areas at h ⊢
      cases hread : readUIntBE 2 b p with
      | none => simp only [hread] at h; cases h
      | some len =>
        simp only [hread] at h ⊢
        cases hout : Charts.area index b (p + 2 + len) (p + 2) with
        | none => simp only [hout] at h; cases h
        | some out =>
          simp only [hout] at h
          simp only [hr.area _ _ rfl hout]
          cases out with
          | inl key => exact h
          | inr q => exact ih q h

theorem signature (h : signature index b = some key) : Charts.signature index' b = some key := by
  unfold Charts.signature at h ⊢
  split at h
  · cases h
  · rename_i v hread
    simp only [hr b 0 v hread]
    by_cases h4 : v = some 4
    · rw [if_pos h4] at h ⊢
      exact hr.areas 2 _ h
    · rw [if_neg h4] at h ⊢
      exact h

theorem packets (left : Nat) :
    ∀ pos, b.length - pos = left → Charts.packets index b pos = some key →
      Charts.packets index' b pos = some key := by
  induction left using Nat.strong_induction_on with
  | _ left ih =>
    intro pos hleft h
    unfold Charts.packets at h ⊢
    by_cases hpos : pos < b.length
    · rw [if_pos hpos] at h ⊢
      cases hread : index b pos with
      | none => simp only [hread] at h; cases h
      | some v =>
        simp only [hread] at h
        simp only [hr b pos v hread]
        cases v with
        | none => exact h
        | some tag =>
          simp only at h ⊢
          by_cases htag : isPacket tag
          · rw [if_pos htag] at h ⊢
            cases hlength : Charts.packetLength index b (pos + 1) tag with
            | none => simp only [hlength] at h; cases h
            | some x =>
              simp only [hlength] at h
              simp only [hr.packetLength hlength]
              cases x with
              | none => exact h
              | some x =>
                simp only at h ⊢
                by_cases htype : packetTag tag = 2
                · rw [if_pos htype] at h ⊢
                  exact hr.signature h
                · rw [if_neg htype] at h ⊢
                  cases hlen : x.bodyLen with
                  | none => simp only [hlen] at h ⊢; exact h
                  | some len =>
                    simp only [hlen] at h ⊢
                    exact ih _ (by omega) _ rfl h
          · rw [if_neg htag] at h ⊢
            exact h
    · rw [if_neg hpos] at h ⊢
      exact h

end Refines

end Chicoree.Charts
