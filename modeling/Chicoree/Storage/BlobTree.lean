import Mathlib.Data.List.Infix
import Mathlib.Algebra.Order.Ring.Int
import Chicoree.Lib.Table

/-! # The blob tree of a backend

Where a storage backend keeps its blobs: the paths of digests and the way back, the objects of a
backend, and the reader that verifies content on its way into one. Texts are the bytes of Go's
strings. -/

namespace Chicoree.Storage

open List Option Table

/-! ## Paths -/

abbrev Text : Type := List UInt8

def colon : UInt8 := 58

def slash : UInt8 := 47

def blobsDir : Text := [98, 108, 111, 98, 115]

def invalidDir : Text := [105, 110, 118, 97, 108, 105, 100]

def sha256Name : Text := [115, 104, 97, 50, 53, 54]

def isHexDigit (c : UInt8) : Bool := (48 ≤ c && c ≤ 57) || (97 ≤ c && c ≤ 102)

def blobPath (digest : Text) : Text :=
  let algo := digest.takeWhile (· ≠ colon)
  let hex := (digest.dropWhile (· ≠ colon)).tail
  if colon ∉ digest ∨ algo = [] ∨ hex = [] then blobsDir ++ slash :: (invalidDir ++ slash :: digest)
  else blobsDir ++ slash :: (algo ++ slash :: (hex.take 2 ++ slash :: hex))

def digestFromPath (key : Text) : Option Text :=
  match key.splitOn slash with
  | [dir, algo, fan, hex] =>
    if dir = blobsDir ∧ algo ≠ [] ∧ 3 ≤ hex.length ∧ fan.isPrefixOf hex ∧ fan.length = 2 ∧
        hex.all isHexDigit then some (algo ++ colon :: hex)
    else none
  | _ => none

def supportedDigest (digest : Text) : Bool := (sha256Name ++ [colon]).isPrefixOf digest

structure Sha256 where
  hex : List UInt8 → Text
  length : ∀ content, (hex content).length = 64
  digits : ∀ content, ∀ c ∈ hex content, isHexDigit c = true

def Sha256.digestOf (S : Sha256) (content : List UInt8) : Text :=
  sha256Name ++ colon :: S.hex content

structure Object where
  key : Text
  content : List UInt8

/-- A backend: its objects, each under a key of its own, and whether it can list them. -/
structure Backend where
  lists : Bool
  objects : List Object
  keyed : Table.Keyed Object.key objects

namespace Backend

/-- What the backend has under a digest, for `Get` and `Stat`. -/
def get (d : Backend) (digest : Text) : Option (List UInt8) :=
  (Table.find Object.key (blobPath digest) d.objects).map Object.content

/-- The content that `Put` publishes. -/
def put (d : Backend) (digest : Text) (content : List UInt8) : Backend :=
  ⟨d.lists, Table.upsert Object.key ⟨blobPath digest, content⟩ d.objects, d.keyed.upsert _⟩

def inventory (d : Backend) : List (Text × Nat) :=
  (d.objects.filter fun o => (blobsDir ++ [slash]).isPrefixOf o.key).filterMap fun o =>
    (digestFromPath o.key).map fun digest => (digest, o.content.length)

end Backend

/-- The entry of a digest; a later object replaces an earlier one. -/
def sizeIn (inventory : List (Text × Nat)) (digest : Text) : Option Nat :=
  (inventory.reverse.find? fun e => decide (e.1 = digest)).map Prod.snd

inductive ReadError where
  | eof
  | digestMismatch
  | failed
deriving DecidableEq

/-- `VerifyingReader` over what is left of a stream, with what it has hashed so far. -/
structure VerifyingReader where
  chunks : List (List UInt8)
  last : ReadError
  hashed : List UInt8
  expected : Text

def VerifyingReader.readAll (S : Sha256) : VerifyingReader → List UInt8 × ReadError
  | ⟨[], last, hashed, expected⟩ =>
    (hashed, if last = .eof ∧ S.digestOf hashed ≠ expected then .digestMismatch else last)
  | ⟨chunk :: chunks, last, hashed, expected⟩ =>
    readAll S ⟨chunks, last, hashed ++ chunk, expected⟩
termination_by r => r.chunks.length

/-- However a stream comes in chunks: it ends cleanly only if all of it hashes to the digest. -/
theorem VerifyingReader.readAll_eq (S : Sha256) (last : ReadError) (expected : Text)
    (chunks : List (List UInt8)) (hashed : List UInt8) :
    readAll S ⟨chunks, last, hashed, expected⟩ = (hashed ++ chunks.flatten,
        if last = .eof ∧ S.digestOf (hashed ++ chunks.flatten) ≠ expected then .digestMismatch
        else last) := by
  induction chunks generalizing hashed with
  | nil =>
    unfold readAll
    rw [flatten_nil, append_nil]
  | cons chunk chunks ih =>
    unfold readAll
    rw [ih, flatten_cons, append_assoc]

/-! ## Paths and digests -/

section paths

variable {S : Sha256} {digest key hex : Text} {content : List UInt8}

theorem isHexDigit_ne {c : UInt8} (h : isHexDigit c = true) : c ≠ colon ∧ c ≠ slash := by
  constructor <;> rintro rfl <;> exact absurd h (by decide)

theorem Sha256.colon_hex (S : Sha256) (content : List UInt8) : colon ∉ S.hex content :=
  fun hmem => (isHexDigit_ne (S.digits content colon hmem)).1 rfl

theorem blobPath_parts {algo : Text} (halgo : algo ≠ []) (hcolon : colon ∉ algo) (hne : hex ≠ []) :
    blobPath (algo ++ colon :: hex) =
      blobsDir ++ slash :: (algo ++ slash :: (hex.take 2 ++ slash :: hex)) := by
  have hname : ∀ c ∈ algo, decide (c ≠ colon) = true := by
    intro c hc
    apply decide_eq_true
    rintro rfl
    exact hcolon hc
  have htake : (algo ++ colon :: hex).takeWhile (· ≠ colon) = algo := by
    rw [takeWhile_append_of_pos hname, takeWhile_cons_of_neg (by decide), append_nil]
  have hdrop : (algo ++ colon :: hex).dropWhile (· ≠ colon) = colon :: hex := by
    rw [dropWhile_append_of_pos hname, dropWhile_cons_of_neg (by decide)]
  unfold blobPath
  rw [htake, hdrop]
  refine if_neg (fun hor => ?_)
  rcases hor with hnone | hnil | hnil
  · exact hnone (mem_append_right _ mem_cons_self)
  · exact halgo hnil
  · exact hne hnil

theorem blobPath_sha256 (hne : hex ≠ []) : blobPath (sha256Name ++ colon :: hex) =
      blobsDir ++ slash :: (sha256Name ++ slash :: (hex.take 2 ++ slash :: hex)) :=
  blobPath_parts (by decide) (by decide) hne

theorem supportedDigest_iff :
    supportedDigest digest = true ↔ ∃ hex, digest = sha256Name ++ colon :: hex := by
  unfold supportedDigest
  rw [List.isPrefixOf_iff_prefix]
  constructor
  · rintro ⟨hex, rfl⟩
    exact ⟨hex, by rw [append_assoc]; rfl⟩
  · rintro ⟨hex, rfl⟩
    exact ⟨hex, by rw [append_assoc]; rfl⟩

theorem supportedDigest_digestOf : supportedDigest (S.digestOf content) = true :=
  supportedDigest_iff.mpr ⟨_, rfl⟩

theorem hex_ne_nil (S : Sha256) (content : List UInt8) : S.hex content ≠ [] := by
  intro hnil
  have hlength := S.length content
  rw [hnil] at hlength
  cases hlength

theorem eq_digestOf_of_blobPath (hsupported : supportedDigest digest = true)
    (h : blobPath digest = blobPath (S.digestOf content)) : digest = S.digestOf content := by
  obtain ⟨hex, rfl⟩ := supportedDigest_iff.mp hsupported
  unfold Sha256.digestOf at h ⊢
  rw [blobPath_sha256 (hex_ne_nil S content)] at h
  have hlength := S.length content
  by_cases hne : hex = []
  · subst hne
    have hpath : blobPath (sha256Name ++ [colon]) =
        blobsDir ++ slash :: (invalidDir ++ slash :: (sha256Name ++ [colon])) := by decide
    rw [hpath] at h
    have hlengths := congrArg List.length h
    simp only [length_append, length_cons, length_take, hlength] at hlengths
    exact absurd hlengths (by decide)
  · rw [blobPath_sha256 hne] at h
    have htail := append_cancel_left h
    have hrest := append_cancel_left (List.cons.inj htail).2
    have hfan := (List.cons.inj hrest).2
    have hlengths := congrArg List.length hfan
    simp only [length_append, length_cons, length_take, hlength] at hlengths
    have hhex : hex.length = 64 := by omega
    have hfanlength : (hex.take 2).length = ((S.hex content).take 2).length := by
      rw [length_take, length_take, hhex, hlength]
    have hparts := append_inj hfan hfanlength
    rw [(List.cons.inj hparts.2).2]

theorem eq_of_last_colon {a b a' b' : Text} (h : a ++ colon :: b = a' ++ colon :: b')
    (hb : colon ∉ b) (hb' : colon ∉ b') : a = a' ∧ b = b' := by
  rcases append_eq_append_iff.mp h with ⟨c, rfl, hc⟩ | ⟨c, rfl, hc⟩
  · cases c with
    | nil => exact ⟨(append_nil a).symm, (List.cons.inj hc).2⟩
    | cons x c =>
      have hmem : colon ∈ b := by
        rw [(List.cons.inj hc).2]
        exact mem_append_right _ mem_cons_self
      exact absurd hmem hb
  · cases c with
    | nil => exact ⟨append_nil a', (List.cons.inj hc).2.symm⟩
    | cons x c =>
      have hmem : colon ∈ b' := by
        rw [(List.cons.inj hc).2]
        exact mem_append_right _ mem_cons_self
      exact absurd hmem hb'

theorem digestFromPath_shape (h : digestFromPath key = some digest) :
    ∃ algo hex, digest = algo ++ colon :: hex ∧ algo ≠ [] ∧ colon ∉ hex ∧ 3 ≤ hex.length ∧
      key = blobsDir ++ slash :: (algo ++ slash :: (hex.take 2 ++ slash :: hex)) := by
  unfold digestFromPath at h
  cases hparts : key.splitOn slash with
  | nil => exact absurd hparts (splitOn_ne_nil _ _)
  | cons dir rest =>
    match rest with
    | [] | [_] | [_, _] | _ :: _ :: _ :: _ :: _ => rw [hparts] at h; cases h
    | [algo, fan, hex] =>
      rw [hparts] at h
      simp only at h
      by_cases hcond : dir = blobsDir ∧ algo ≠ [] ∧ 3 ≤ hex.length ∧ fan.isPrefixOf hex = true ∧
          fan.length = 2 ∧ hex.all isHexDigit = true
      · rw [if_pos hcond] at h
        obtain ⟨rfl, halgo, hlength, hprefix, hfan, hdigits⟩ := hcond
        have hcolon : colon ∉ hex :=
          fun hmem => (isHexDigit_ne (all_eq_true.mp hdigits colon hmem)).1 rfl
        have htake : fan = hex.take 2 := by
          rw [← hfan]
          exact prefix_iff_eq_take.mp (List.isPrefixOf_iff_prefix.mp hprefix)
        have hjoined : [slash].intercalate (key.splitOn slash) = key := intercalate_splitOn slash
        refine ⟨algo, hex, (Option.some.inj h).symm, halgo, hcolon, hlength, ?_⟩
        rw [← hjoined, hparts, htake]
        simp [List.intercalate]
      · rw [if_neg hcond] at h
        cases h

/-- `DigestFromPath` is the inverse of `BlobPath`: the key it reads a content's digest from is
the path of that. -/
theorem eq_blobPath_of_digestFromPath (h : digestFromPath key = some (S.digestOf content)) :
    key = blobPath (S.digestOf content) := by
  obtain ⟨algo, hex, hdigest, -, hcolon, -, rfl⟩ := digestFromPath_shape h
  obtain ⟨rfl, rfl⟩ := eq_of_last_colon hdigest (S.colon_hex content) hcolon
  exact (blobPath_sha256 (hex_ne_nil S content)).symm

theorem digestFromPath_inj {key' : Text} (h : digestFromPath key = some digest)
    (h' : digestFromPath key' = some digest) : key = key' := by
  obtain ⟨algo, hex, rfl, -, hcolon, -, rfl⟩ := digestFromPath_shape h
  obtain ⟨algo', hex', hdigest, -, hcolon', -, rfl⟩ := digestFromPath_shape h'
  obtain ⟨rfl, rfl⟩ := eq_of_last_colon hdigest hcolon hcolon'
  rfl

end paths

/-! ## What a backend has -/

namespace Backend

variable {d : Backend} {digest digest' : Text} {content : List UInt8}

theorem get_eq_some : d.get digest = some content ↔ ⟨blobPath digest, content⟩ ∈ d.objects := by
  unfold get
  rw [map_eq_some_iff]
  constructor
  · rintro ⟨o, ho, rfl⟩
    obtain ⟨hmem, hkey⟩ := find_some ho
    rw [← hkey]
    exact hmem
  · intro hmem
    exact ⟨_, d.keyed.find_self hmem, rfl⟩

theorem get_put_self : (d.put digest content).get digest = some content := by
  let new : Object := ⟨blobPath digest, content⟩
  have hfind : Table.find Object.key new.key (Table.upsert Object.key new d.objects) = some new :=
    find_upsert_self new d.objects
  exact congrArg (Option.map Object.content) hfind

theorem get_put_ne (h : blobPath digest' ≠ blobPath digest) :
    (d.put digest content).get digest' = d.get digest' := by
  unfold get put
  rw [find_upsert_ne (show blobPath digest' ≠ Object.key ⟨blobPath digest, content⟩ from h)]

theorem mem_put {o : Object} (h : o ∈ (d.put digest content).objects) :
    o ∈ d.objects ∨ o = ⟨blobPath digest, content⟩ :=
  mem_of_mem_upsert h

theorem exists_of_sizeIn {size : Nat} (h : sizeIn d.inventory digest = some size) :
    ∃ o ∈ d.objects, digestFromPath o.key = some digest ∧ o.content.length = size := by
  obtain ⟨e, he, rfl⟩ := map_eq_some_iff.mp h
  have hdigest := find?_some he
  have hmem := mem_reverse.mp (mem_of_find?_eq_some he)
  obtain ⟨o, ho, hentry⟩ := mem_filterMap.mp hmem
  obtain ⟨found, hfound, rfl⟩ := map_eq_some_iff.mp hentry
  refine ⟨o, mem_of_mem_filter ho, ?_, rfl⟩
  rw [hfound]
  exact congrArg some (of_decide_eq_true hdigest)

end Backend

end Chicoree.Storage
