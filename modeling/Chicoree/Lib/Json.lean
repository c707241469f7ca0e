import Mathlib.Data.Rat.Defs
import Chicoree.Lib.Table

/-! # JSON values as an untyped program reads them

A parsed JSON value and the accesses of a program that has cast it to a type
without checking: a missing field is `undefined` (`none`), optional chaining goes
through it, and a plain access to a field of nothing throws. -/

/-- A JSON value; an object has one entry for each key. -/
inductive Json where
  | null
  | bool (b : Bool)
  | num (n : Rat)
  | str (s : String)
  | arr (xs : List Json)
  | obj (fields : List (String × Json))

namespace Json

/-- A field of a value; anything but an object has none. -/
def get? (k : String) : Json → Option Json
  | .obj fields => (fields.find? fun f => decide (f.1 = k)).map (·.2)
  | _ => none

/-- `x?.k` -/
def field? (x : Option Json) (k : String) : Option Json :=
  x.bind (get? k)

/-- `x.k`, which throws on nothing. -/
def field! : Option Json → String → Option (Option Json)
  | none, _ => none
  | some .null, _ => none
  | some v, k => some (v.get? k)

/-- `x?.[0]` -/
def first? : Option Json → Option Json
  | some (.arr xs) => xs.head?
  | some v => v.get? "0"
  | none => none

/-- Whether a condition on the value holds. -/
def truthy : Option Json → Bool
  | none => false
  | some .null => false
  | some (.bool b) => b
  | some (.num n) => decide (n ≠ 0)
  | some (.str s) => decide (s ≠ "")
  | some (.arr _) => true
  | some (.obj _) => true

/-- Neither missing nor `null`. -/
def isSet : Option Json → Bool
  | none => false
  | some .null => false
  | some _ => true

/-- `x ?? y` -/
def orElse (x y : Option Json) : Option Json :=
  if isSet x then x else y

def str? : Option Json → Option String
  | some (.str s) => some s
  | _ => none

/-- The elements of an array, `none` for anything else. -/
def arr? : Option Json → Option (List Json)
  | some (.arr xs) => some xs
  | _ => none

/-- The entries of an object, none for anything else. -/
def entries : Option Json → List (String × Json)
  | some (.obj fields) => fields
  | _ => []

/-- A value of object type: an object or an array. -/
def isObject : Option Json → Bool
  | some (.obj _) => true
  | some (.arr _) => true
  | _ => false

variable {x y : Option Json}

theorem orElse_of_isSet (h : isSet x = true) : orElse x y = x := by
  simp only [orElse, h, if_true]

theorem orElse_of_not_isSet (h : isSet x = false) : orElse x y = y := by
  simp only [orElse, h, Bool.false_eq_true, if_false]

theorem some_getD_of_isSet (h : isSet x = true) (d : Json) : some (x.getD d) = x := by
  cases x with
  | none => contradiction
  | some v => rfl

theorem isSet_of_truthy (h : truthy x = true) : isSet x = true := by
  cases x with
  | none => contradiction
  | some v => cases v <;> simp_all [truthy, isSet]

end Json

/-! ## JSON documents as two languages read them

A document as it stands in its text: an object lists its members in order, names may repeat.
Decoding into a struct goes through the members in order, matches names exactly or else up to
case, merges into what earlier members left, and lets `null` reset pointers, slices and
maps only. -/

/-- The text of a JSON string by code points; an escape may name half of a surrogate
pair. -/
abbrev CodePoints := List Nat

inductive JsonDoc where
  | null
  | bool (b : Bool)
  /-- A number written without fraction and exponent. -/
  | int (n : Int)
  | decimal (n : Rat)
  | str (s : CodePoints)
  | arr (xs : List JsonDoc)
  | obj (members : List (String × JsonDoc))

namespace CodePoints

def ofString (s : String) : CodePoints := s.toList.map Char.toNat

/-- A code point that is no character becomes U+FFFD. -/
def toChar (n : Nat) : Char :=
  if h : n.isValidChar then Char.ofNatAux n h else '\uFFFD'

def toText (s : CodePoints) : String := String.ofList (s.map toChar)

theorem toChar_toNat (c : Char) : toChar c.toNat = c := by
  have hvalid : c.toNat.isValidChar := c.valid
  unfold toChar
  rw [dif_pos hvalid]
  rfl

theorem toText_ofString (s : String) : toText (ofString s) = s := by
  unfold toText ofString
  rw [List.map_map]
  have hid : toChar ∘ Char.toNat = id := funext toChar_toNat
  rw [hid, List.map_id, String.ofList_toList]

theorem ofString_injective : Function.Injective ofString := by
  intro s t h
  rw [← toText_ofString s, h, toText_ofString]

end CodePoints

namespace JsonDoc

/-! ## What `JSON.parse` keeps -/

def last? (k : String) (members : List (String × JsonDoc)) : Option JsonDoc :=
  (members.reverse.find? fun m => decide (m.1 = k)).map (·.2)

/-- `x.k` of a parsed document; `none` is `undefined`. -/
def get? (k : String) : JsonDoc → Option JsonDoc
  | .obj members => last? k members
  | _ => none

end JsonDoc

/-! ## Decoding into a struct -/

namespace GoJson

open JsonDoc

/-- Upper case, for names of ASCII letters: besides them only `ſ` and the Kelvin sign fold
to such a letter. -/
def foldChar (c : Char) : Char :=
  if 'a' ≤ c ∧ c ≤ 'z' then Char.ofNat (c.toNat - 32)
  else if c = 'ſ' then 'S'
  else if c = '\u212A' then 'K'
  else c

def foldName (k : String) : List Char := k.toList.map foldChar

/-- A field of a struct: which values fit it, and what a fitting value does to it. -/
structure StructField (σ : Type) where
  name : String
  typed : JsonDoc → Bool
  set : σ → JsonDoc → σ

section fields

variable {σ : Type}

/-- The field a member is decoded into. -/
def fieldFor (fs : List (StructField σ)) (k : String) : Option (StructField σ) :=
  (fs.find? fun f => decide (f.name = k)).or
    (fs.find? fun f => decide (foldName f.name = foldName k))

/-- Every member fits its field; members without a field are skipped. -/
def typedMembers (fs : List (StructField σ)) (members : List (String × JsonDoc)) : Bool :=
  members.all fun m =>
    match fieldFor fs m.1 with
    | some f => f.typed m.2
    | none => true

def setMember (fs : List (StructField σ)) (s : σ) (m : String × JsonDoc) : σ :=
  match fieldFor fs m.1 with
  | some f => f.set s m.2
  | none => s

def setMembers (fs : List (StructField σ)) (s : σ) (members : List (String × JsonDoc)) : σ :=
  members.foldl (setMember fs) s

/-- A value for a struct. -/
def structTyped (fs : List (StructField σ)) : JsonDoc → Bool
  | .obj members => typedMembers fs members
  | .null => true
  | _ => false

def structValue (fs : List (StructField σ)) (old : σ) : JsonDoc → σ
  | .obj members => setMembers fs old members
  | _ => old

/-- A value for a pointer to a struct, whose zero value is `zero`. -/
def pointerValue (fs : List (StructField σ)) (zero : σ) (old : Option σ) : JsonDoc → Option σ
  | .obj members => some (setMembers fs (old.getD zero) members)
  | .null => none
  | _ => old

end fields

def stringTyped : JsonDoc → Bool
  | .str _ | .null => true
  | _ => false

def stringValue (old : String) : JsonDoc → String
  | .str s => s.toText
  | _ => old

/-- An integer literal in the range of `int64`. -/
def int64Typed : JsonDoc → Bool
  | .int n => decide (-9223372036854775808 ≤ n ∧ n < 9223372036854775808)
  | .null => true
  | _ => false

def int64Value (old : Int) : JsonDoc → Int
  | .int n => n
  | _ => old

/-- A map from strings to strings; `none` is the nil map. -/
def mapTyped : JsonDoc → Bool
  | .obj members => members.all fun m => stringTyped m.2
  | .null => true
  | _ => false

def mapValue (old : Option (List (String × String))) :
    JsonDoc → Option (List (String × String))
  | .obj members =>
    some (members.foldl (fun es m => Table.upsert Prod.fst (m.1, stringValue "" m.2) es)
      (old.getD []))
  | .null => none
  | _ => old

/-! ## Slices -/

/-- A slice: its elements, and what its backing array holds beyond them. -/
structure Slice (α : Type) where
  elems : List α := []
  rest : List α := []

section slices

variable {α : Type}

def sliceTyped (typed : JsonDoc → Bool) : JsonDoc → Bool
  | .arr xs => xs.all typed
  | .null => true
  | _ => false

/-- Decode elements over a memory: an element is decoded into what is there. -/
def fill (value : α → JsonDoc → α) (zero : α) : List α → List JsonDoc → List α × List α
  | mem, [] => ([], mem)
  | [], x :: xs =>
    let (elems, rest) := fill value zero [] xs
    (value zero x :: elems, rest)
  | m :: mem, x :: xs =>
    let (elems, rest) := fill value zero mem xs
    (value m x :: elems, rest)

def sliceValue (value : α → JsonDoc → α) (zero : α) (old : Slice α) : JsonDoc → Slice α
  | .arr [] => {}
  | .arr xs =>
    let (elems, rest) := fill value zero (old.elems ++ old.rest) xs
    ⟨elems, rest⟩
  | .null => {}
  | _ => old

end slices

end GoJson

/-! ## JSON texts and their cast to `jsonb`

A JSON text by its grammar: numbers as they are written, strings by code points, where an
escape may name half of a surrogate pair. A database that stores values has no NUL, no half of
a surrogate pair and no number beyond its range, and one of these anywhere fails the cast. -/

/-- A number as it is written; `fraction` is empty where there is no point. -/
structure Numeral where
  negative : Bool := false
  whole : List Nat
  fraction : List Nat := []
  exponent : Option Int := none

namespace Numeral

/-- Neither fraction nor exponent. -/
def isInt (n : Numeral) : Bool := n.fraction.isEmpty && n.exponent.isNone

/-- The digits as one number. -/
def mantissa (n : Numeral) : Int :=
  let m : Nat := (n.whole ++ n.fraction).foldl (fun m d => 10 * m + d) 0
  if n.negative then -m else m

/-- The power of ten the mantissa stands at. -/
def scale (n : Numeral) : Int := n.exponent.getD 0 - n.fraction.length

def value (n : Numeral) : Rat :=
  mkRat (n.mantissa * (Nat.pow 10 n.scale.toNat : Nat)) (Nat.pow 10 (-n.scale).toNat)

end Numeral

inductive JsonText where
  | null
  | bool (b : Bool)
  | num (n : Numeral)
  | str (s : CodePoints)
  | arr (xs : List JsonText)
  | obj (members : List (CodePoints × JsonText))

namespace CodePoints

/-- No NUL and no half of a surrogate pair. -/
def isStorable (s : CodePoints) : Bool :=
  s.all fun c => decide (c ≠ 0) && !decide (0xD800 ≤ c ∧ c ≤ 0xDFFF)

end CodePoints

namespace JsonText

mutual
/-- The document; half of a surrogate pair in a name reads as U+FFFD. -/
def toDoc : JsonText → JsonDoc
  | .null => .null
  | .bool b => .bool b
  | .num n => if n.isInt then .int n.mantissa else .decimal n.value
  | .str s => .str s
  | .arr xs => .arr (toDocs xs)
  | .obj members => .obj (toMembers members)

def toDocs : List JsonText → List JsonDoc
  | [] => []
  | x :: xs => x.toDoc :: toDocs xs

def toMembers : List (CodePoints × JsonText) → List (String × JsonDoc)
  | [] => []
  | (k, x) :: members => (k.toText, x.toDoc) :: toMembers members
end

mutual
/-- The value; the last member of a name stays. -/
def toJson : JsonText → Json
  | .null => .null
  | .bool b => .bool b
  | .num n => .num n.value
  | .str s => .str s.toText
  | .arr xs => .arr (toValues xs)
  | .obj members => .obj (toEntries members [])

def toValues : List JsonText → List Json
  | [] => []
  | x :: xs => x.toJson :: toValues xs

def toEntries : List (CodePoints × JsonText) → List (String × Json) → List (String × Json)
  | [], entries => entries
  | (k, x) :: members, entries =>
    toEntries members (Table.upsert Prod.fst (k.toText, x.toJson) entries)
end

section cast

variable (inRange : Numeral → Bool)

mutual
/-- Every string, every name and every number of the text can be stored. -/
def clean : JsonText → Bool
  | .null => true
  | .bool _ => true
  | .num n => inRange n
  | .str s => s.isStorable
  | .arr xs => cleanAll xs
  | .obj members => cleanMembers members

def cleanAll : List JsonText → Bool
  | [] => true
  | x :: xs => x.clean && cleanAll xs

def cleanMembers : List (CodePoints × JsonText) → Bool
  | [] => true
  | (k, x) :: members => k.isStorable && x.clean && cleanMembers members
end

/-- `text::jsonb`, with the range of its numbers; `none` is an error. -/
def castJsonb (t : JsonText) : Option Json :=
  if t.clean inRange then some t.toJson else none

variable {inRange}

theorem castJsonb_isSome (t : JsonText) : (castJsonb inRange t).isSome = t.clean inRange := by
  unfold castJsonb
  cases t.clean inRange <;> rfl

end cast

end JsonText
