import Chicoree.Web.TagGlobs

/-! # Details of audit rows

`redactDetails`: what a caller tells about an event is stored without its secrets, with
long texts cut, and within 4000 characters. -/

namespace Chicoree.Audit

open List
open Web (codeUnits)

/-! ## Values -/

/-- A text of a program that counts and cuts code units. -/
abbrev Text := List UInt16

inductive Detail where
  | null
  | bool (b : Bool)
  | num (n : Rat)
  | str (s : Text)
  | arr (xs : List Detail)
  | obj (fields : List (Text × Detail))

/-- `Object.entries`; an entry may be `undefined`. -/
abbrev Entries := List (Text × Option Detail)

/-- A value at any depth of another. -/
inductive Part (x : Detail) : Detail → Prop
  | self : Part x x
  | element {y : Detail} {xs : List Detail} : y ∈ xs → Part x y → Part x (.arr xs)
  | member {e : Text × Detail} {fields : List (Text × Detail)} :
      e ∈ fields → Part x e.2 → Part x (.obj fields)

/-! ## `JSON.stringify` -/

def isHigh (u : UInt16) : Bool := 0xD800 ≤ u && u < 0xDC00

def isLow (u : UInt16) : Bool := 0xDC00 ≤ u && u < 0xE000

def hexDigit (n : Nat) : UInt16 := UInt16.ofNat (if n < 10 then 48 + n else 87 + n)

def escapeUnit (u : UInt16) : Text :=
  if u = 0x22 ∨ u = 0x5C then [0x5C, u]
  else if u = 8 then codeUnits "\\b"
  else if u = 9 then codeUnits "\\t"
  else if u = 10 then codeUnits "\\n"
  else if u = 12 then codeUnits "\\f"
  else if u = 13 then codeUnits "\\r"
  else if u < 32 ∨ isHigh u ∨ isLow u then
    let n := u.toNat
    codeUnits "\\u" ++ [n / 4096, n / 256 % 16, n / 16 % 16, n % 16].map hexDigit
  else [u]

def escape : Text → Text
  | [] => []
  | [u] => escapeUnit u
  | u :: v :: rest =>
    if isHigh u ∧ isLow v then u :: v :: escape rest else escapeUnit u ++ escape (v :: rest)

def quote (s : Text) : Text := 0x22 :: (escape s ++ [0x22])

section stringify

-- how a number is written
variable (number : Rat → Text)

mutual

def stringify : Detail → Text
  | .null => codeUnits "null"
  | .bool b => codeUnits (if b then "true" else "false")
  | .num n => number n
  | .str s => quote s
  | .arr xs => codeUnits "[" ++ (codeUnits ",").intercalate (elements xs) ++ codeUnits "]"
  | .obj fields => codeUnits "\x7b" ++ (codeUnits ",").intercalate (members fields) ++ codeUnits "\x7d"

def elements : List Detail → List Text
  | [] => []
  | x :: xs => stringify x :: elements xs

def members : List (Text × Detail) → List Text
  | [] => []
  | (k, v) :: fields => (quote k ++ codeUnits ":" ++ stringify v) :: members fields

end

end stringify

def lowerUnit (u : UInt16) : UInt16 := if 65 ≤ u ∧ u ≤ 90 then u + 32 else u

def isLetter (u : UInt16) : Bool := 97 ≤ lowerUnit u && lowerUnit u ≤ 122

/-- The words of `SECRET_KEY_RE`, any of which may end a key. -/
def secretEndings : List String :=
  ["secret", "password", "passwd", "privatekey", "private_key", "authorization", "cookie"]

def secretKeys : List String :=
  ["token", "pass", "secret", "key", "otp", "code", "backupcodes", "idtoken", "accesstoken",
    "refreshtoken"]

def isSecretKey (k : Text) : Bool :=
  secretEndings.any (fun w => (codeUnits w).isSuffixOf (k.map lowerUnit)) ||
    secretKeys.any fun w => codeUnits w = (k.filter isLetter).map lowerUnit

def shorten : Detail → Detail
  | .str s => .str (if 500 < s.length then s.take 500 ++ codeUnits "…" else s)
  | v => v

/-- `out[k] = v` with a new key; the one name that is no own key sets the prototype. -/
def assign (out : List (Text × Detail)) (k : Text) (v : Detail) : List (Text × Detail) :=
  if k = codeUnits "__proto__" then out else out ++ [(k, v)]

def redactEntry (out : List (Text × Detail)) : Text × Option Detail → List (Text × Detail)
  | (_, none) => out
  | (k, some v) => if isSecretKey k then out else assign out k (shorten v)

def truncated (out : List (Text × Detail)) : List (Text × Detail) :=
  [(codeUnits "truncated", .bool true), (codeUnits "keys", .arr (out.map fun e => .str e.1))]

def redactDetails (number : Rat → Text) : Option Entries → Option (List (Text × Detail))
  | none => none
  | some details =>
    let out := details.foldl redactEntry []
    if 4000 < (stringify number (.obj out)).length then some (truncated out)
    else if out = [] then none else some out

/-! ## What is promised -/

/-- No object at any depth has a secret key. -/
def Clean (x : Detail) : Prop :=
  ∀ fields, Part (.obj fields) x → ∀ e ∈ fields, isSecretKey e.1 = false

def remainingEntry : Text × Option Detail → Option (Text × Detail)
  | (_, none) => none
  | (k, some v) => if isSecretKey k then none else some (k, shorten v)

def remaining (details : Entries) : List (Text × Detail) := details.filterMap remainingEntry

def Fits (number : Rat → Text) (fields : List (Text × Detail)) : Prop :=
  (stringify number (.obj fields)).length ≤ 4000

structure Redacted (number : Rat → Text) (details : Entries) : Prop where
  clean : ∀ fields, redactDetails number (some details) = some fields → Clean (.obj fields)
  capped : ∀ fields, redactDetails number (some details) = some fields → Fits number fields
  kept : Fits number (remaining details) → ∀ e ∈ remaining details,
    ∃ fields, redactDetails number (some details) = some fields ∧ e ∈ fields

def owned (details : Entries) : List (Text × Detail) :=
  (remaining details).filter fun e => decide (e.1 ≠ codeUnits "__proto__")

/-- What the promise rests on: values without secrets in them, keys that can be listed
where the entries are too long, and no `__proto__` among entries that are kept. -/
structure Plain (number : Rat → Text) (details : Entries) : Prop where
  flat : Fits number (owned details) → ∀ e ∈ owned details, Clean e.2
  listed : ¬ Fits number (owned details) → Fits number (truncated (owned details))
  own : Fits number (remaining details) → ∀ e ∈ remaining details, e.1 ≠ codeUnits "__proto__"

section proofs

variable {number : Rat → Text} {details : Entries}

theorem clean_obj {fields : List (Text × Detail)} :
    Clean (.obj fields) ↔ ∀ e ∈ fields, isSecretKey e.1 = false ∧ Clean e.2 := by
  constructor
  · intro h e he
    exact ⟨h fields .self e he, fun fs hpart => h fs (.member he hpart)⟩
  · intro h fs hpart
    cases hpart with
    | self => exact fun e he => (h e he).1
    | member he hpart => exact (h _ he).2 fs hpart

theorem foldl_redactEntry (out : List (Text × Detail)) :
    details.foldl redactEntry out = out ++ owned details := by
  induction details generalizing out with
  | nil => simp [owned, remaining]
  | cons e rest ih =>
    obtain ⟨k, v⟩ := e
    rw [foldl_cons, ih, owned, owned, remaining, remaining, filterMap_cons]
    cases v with
    | none => simp only [redactEntry, remainingEntry]
    | some v =>
      by_cases hsecret : isSecretKey k = true
      · simp only [redactEntry, remainingEntry, hsecret, if_true]
      · by_cases hproto : k = codeUnits "__proto__"
        · simp [redactEntry, assign, remainingEntry, hsecret, ← hproto]
        · simp [redactEntry, assign, remainingEntry, hsecret, hproto]

theorem redactDetails_of_fits (h : Fits number (owned details)) (hne : owned details ≠ []) :
    redactDetails number (some details) = some (owned details) := by
  simp only [redactDetails]
  rw [foldl_redactEntry, nil_append, if_neg (Nat.not_lt.mpr h), if_neg hne]

theorem redactDetails_of_not_fits (h : ¬ Fits number (owned details)) :
    redactDetails number (some details) = some (truncated (owned details)) := by
  simp only [redactDetails]
  rw [foldl_redactEntry, nil_append, if_pos (Nat.not_le.mp h)]

theorem redactDetails_cases {fields : List (Text × Detail)}
    (h : redactDetails number (some details) = some fields) :
    (Fits number (owned details) ∧ fields = owned details) ∨
      (¬ Fits number (owned details) ∧ fields = truncated (owned details)) := by
  by_cases hfits : Fits number (owned details)
  · by_cases hne : owned details = []
    · simp only [redactDetails, foldl_redactEntry, nil_append, hne, if_true] at h
      split at h
      · rename_i hlong
        rw [← hne] at hlong
        exact absurd hfits (Nat.not_le.mpr hlong)
      · contradiction
    · rw [redactDetails_of_fits hfits hne] at h
      exact .inl ⟨hfits, (Option.some.inj h).symm⟩
  · rw [redactDetails_of_not_fits hfits] at h
    exact .inr ⟨hfits, (Option.some.inj h).symm⟩

theorem owned_not_secret {e : Text × Detail} (h : e ∈ owned details) :
    isSecretKey e.1 = false ∧ e.1 ≠ codeUnits "__proto__" := by
  obtain ⟨hmem, hown⟩ := mem_filter.mp h
  obtain ⟨⟨k, v⟩, -, heq⟩ := mem_filterMap.mp hmem
  refine ⟨?_, of_decide_eq_true hown⟩
  cases v with
  | none => contradiction
  | some v =>
    simp only [remainingEntry] at heq
    split at heq
    · contradiction
    · rename_i hsecret
      cases heq
      exact Bool.eq_false_iff.mpr hsecret

theorem clean_truncated (out : List (Text × Detail)) : Clean (.obj (truncated out)) := by
  apply clean_obj.mpr
  intro e he
  rcases mem_pair.mp he with rfl | rfl
  · refine ⟨by decide, fun fields hpart => ?_⟩
    cases hpart
  · have hkey : isSecretKey (codeUnits "keys") = false := by decide
    refine ⟨hkey, fun fields hpart => ?_⟩
    cases hpart with
    | element hmem hpart =>
      obtain ⟨x, -, rfl⟩ := mem_map.mp hmem
      cases hpart

theorem owned_eq_remaining (h : ∀ e ∈ remaining details, e.1 ≠ codeUnits "__proto__") :
    owned details = remaining details :=
  filter_eq_self.mpr fun e he => decide_eq_true (h e he)

end proofs

def settingsWithPassword : Entries :=
  [(codeUnits "smtp", some (.obj [(codeUnits "password", .str (codeUnits "hunter2"))]))]

end Chicoree.Audit
