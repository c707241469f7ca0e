import Chicoree.Charts.PgpPackets
import Chicoree.RateLimits.Form
import Chicoree.Signatures.Keyless

/-! # The provenance of a chart

`parseHelmProvenance` of `helm.ts`: a clearsigned text with the chart's name and version, the
digests of the files it signs, and the key it is signed with, which `pgpKeyId` looks for in the
signature block. -/

namespace Chicoree.Charts

open Option
open RateLimits (isSpaceJs trim)
open Signatures (cutAt)

/-! ## Fields of the text -/

def isLineTerminator (c : Char) : Bool :=
  c = '\n' || c = '\r' || c.toNat = 0x2028 || c.toNat = 0x2029

def lineStarts (s : List Char) : List (List Char) :=
  s :: s.tails.filterMap fun t =>
    match t with
    | [] => none
    | c :: rest => if isLineTerminator c then some rest else none

def atLineEnd : List Char → Bool
  | [] => true
  | c :: _ => isLineTerminator c

/-- What `\s*` may leave, the longest run of blanks first. -/
def afterBlanks (s : List Char) : List (List Char) :=
  (List.range ((s.takeWhile isSpaceJs).length + 1)).reverse.map s.drop

/-- What `["']?` may leave. -/
def afterQuote (s : List Char) : List (List Char) :=
  match s with
  | [] => [[]]
  | c :: rest => if c = '"' ∨ c = '\'' then [rest, c :: rest] else [c :: rest]

/-- `["']?\s*$` -/
def fieldEnds (s : List Char) : Bool := (afterQuote s).any fun s => (afterBlanks s).any atLineEnd

/-- `\s*["']?([^"'\n]+)["']?\s*$` -/
def fieldValue (s : List Char) : Option (List Char) :=
  ((afterBlanks s).flatMap afterQuote).findSome? fun s =>
    let run := s.takeWhile fun c => c ≠ '"' && c ≠ '\'' && c ≠ '\n'
    (List.range run.length).reverse.findSome? fun n =>
      if fieldEnds (s.drop (n + 1)) then some (s.take (n + 1)) else none

/-- The value of the first line with the key, as `/^key:\s*["']?([^"'\n]+)["']?\s*$/m` has it. -/
def lineField (key : String) (body : List Char) : Option String :=
  ((lineStarts body).findSome? fun line =>
    if key.toList.isPrefixOf line then fieldValue (line.drop key.length) else none).map
      fun value => String.ofList (trim value)

structure SignedFile where
  name : String
  digest : String

def isHex (c : Char) : Bool := c.isDigit || ('a' ≤ c && c ≤ 'f')

/-- `/^\s+([^:]+):\s*(sha256:[0-9a-f]{64})\s*$/`, with the name trimmed. -/
def fileRecord (line : List Char) : Option SignedFile :=
  let name := line.takeWhile (· ≠ ':')
  let value := (line.drop (name.length + 1)).dropWhile isSpaceJs
  let algorithm := "sha256:".toList
  let hex := (value.drop algorithm.length).take 64
  if name.head?.any isSpaceJs ∧ 2 ≤ name.length ∧ name.length < line.length ∧
      algorithm.isPrefixOf value ∧ hex.length = 64 ∧ hex.all isHex ∧
      (value.drop (algorithm.length + 64)).all isSpaceJs then
    some ⟨String.ofList (trim name), String.ofList (algorithm ++ hex)⟩
  else none

/-- The lines under `files:`, up to one that is neither blank nor indented. -/
def fileRecords : List (List Char) → List SignedFile
  | [] => []
  | line :: lines =>
    match fileRecord line with
    | some file => file :: fileRecords lines
    | none => if trim line ≠ [] ∧ line.head? ≠ some ' ' then [] else fileRecords lines

def signedFiles (body : List Char) : List SignedFile :=
  match cutAt "\nfiles:".toList body with
  | none => []
  | some (_, rest) => fileRecords (rest.splitOn '\n')

/-! ## The signature block -/

/-- The six bits of a character of either alphabet of base64. -/
def sextet (c : Char) : Option Nat :=
  if 'A' ≤ c ∧ c ≤ 'Z' then some (c.toNat - 65)
  else if 'a' ≤ c ∧ c ≤ 'z' then some (c.toNat - 71)
  else if '0' ≤ c ∧ c ≤ '9' then some (c.toNat + 4)
  else if c = '+' ∨ c = '-' then some 62
  else if c = '/' ∨ c = '_' then some 63
  else none

def bytesOfSextets : List Nat → List UInt8
  | a :: b :: c :: d :: rest =>
    UInt8.ofNat (a * 4 + b / 16) :: UInt8.ofNat (b % 16 * 16 + c / 4) ::
      UInt8.ofNat (c % 4 * 64 + d) :: bytesOfSextets rest
  | [a, b, c] => [UInt8.ofNat (a * 4 + b / 16), UInt8.ofNat (b % 16 * 16 + c / 4)]
  | [a, b] => [UInt8.ofNat (a * 4 + b / 16)]
  | _ => []

/-- `Buffer.from(s, "base64")`: it skips blanks and stops at the first `=`. Which characters
outside of the alphabets it skips is not documented, so the reader is given the decoder. -/
def fromBase64 (s : List Char) : List UInt8 :=
  bytesOfSextets ((s.takeWhile (· ≠ '=')).filterMap sextet)

def blockBegin : List Char := "-----BEGIN PGP SIGNATURE-----".toList

def blockEnd : List Char := "-----END PGP SIGNATURE-----".toList

/-- The decoded bytes between the first begin line and the next end line. -/
def signatureBlock (decode : List Char → List UInt8) (text : String) : Option (List UInt8) :=
  match cutAt blockBegin text.toList with
  | none => none
  | some (_, rest) =>
    match cutAt blockEnd rest with
    | none => none
    | some (block, _) =>
      let lines := (block.splitOn '\n').filter fun l =>
        trim l ≠ [] && !l.contains ':' && l.head? ≠ some '='
      some (decode lines.flatten)

/-- `toString("hex").toUpperCase()` -/
def hex (key : List UInt8) : String :=
  let digit (n : Nat) : Char := Char.ofNat (if n < 10 then 48 + n else 55 + n)
  String.ofList (key.flatMap fun b => [digit (b.toNat / 16), digit (b.toNat % 16)])

/-! ## The provenance -/

structure HelmProvenance where
  layerDigest : String
  chartName : Option String
  chartVersion : Option String
  files : List SignedFile
  matchesArchive : Bool
  signedBy : Option String

section provenance

variable (index : Index) (decode : List Char → List UInt8)

/-- `none` if the walk over the packets throws. -/
def pgpKeyId (text : String) : Option (Option String) :=
  match signatureBlock decode text with
  | none => some none
  | some der => (packets index der 0).map fun key => key.map hex

def parseHelmProvenance (text : String) (archiveDigest : Option String) (layerDigest : String) :
    Option HelmProvenance :=
  let body := match cutAt blockBegin text.toList with
    | none => text.toList
    | some (before, _) => before
  let files := signedFiles body
  (pgpKeyId index decode text).map fun signedBy =>
    { layerDigest := layerDigest
      chartName := lineField "name:" body
      chartVersion := lineField "version:" body
      files := files
      matchesArchive := match archiveDigest with
        | none => false
        | some digest => digest ≠ "" && files.any (·.digest = digest)
      signedBy := signedBy }

end provenance

section safety

variable (decode : List Char → List UInt8)

/-- The reader returns a value, no read of it is outside of its buffer, and it finds no key where
the block is not made of whole packets. -/
def ParsesSafely (text : String) (archiveDigest : Option String) (layerDigest : String) : Prop :=
  ∃ p, parseHelmProvenance undefinedOutside decode text archiveDigest layerDigest = some p ∧
    parseHelmProvenance insideOnly decode text archiveDigest layerDigest = some p ∧
    ∀ der, signatureBlock decode text = some der → ¬Packets der → p.signedBy = none

/-- In the signature block of the text, if there is one, whatever the walk looks at is there, up
to the issuer; and where there is an issuer, the block is made of whole packets. -/
def BlockReads (text : String) : Prop :=
  ∀ der, signatureBlock decode text = some der → ∃ key, Reads der key ∧ (key = none ∨ Packets der)

end safety

section provenance

variable {decode : List Char → List UInt8} {text : String} {archiveDigest : Option String} {layerDigest : String}

theorem parseHelmProvenance_signedBy {index : Index} {p : HelmProvenance}
    (h : parseHelmProvenance index decode text archiveDigest layerDigest = some p) :
    pgpKeyId index decode text = some p.signedBy := by
  obtain ⟨signedBy, hkey, rfl⟩ := map_eq_some_iff.mp h
  exact hkey

theorem parseHelmProvenance_congr (archiveDigest : Option String) (layerDigest : String)
    {index index' : Index} {signedBy : Option String}
    (h : pgpKeyId index decode text = some signedBy)
    (h' : pgpKeyId index' decode text = some signedBy) :
    ∃ p, parseHelmProvenance index decode text archiveDigest layerDigest = some p ∧
      parseHelmProvenance index' decode text archiveDigest layerDigest = some p ∧
      p.signedBy = signedBy := by
  unfold parseHelmProvenance
  rw [h, h']
  exact ⟨_, rfl, rfl, rfl⟩

/-- The provenance reader fails on no text, and reads nothing outside of its buffer, exactly if
the octets that its walk over the signature block looks at are there; and it finds no key in a
malformed block exactly if the issuers that are there are in whole packets; whatever the
decoder makes of the block. -/
theorem parsesSafely_iff (decode : List Char → List UInt8) (text : String)
    (archiveDigest : Option String) (layerDigest : String) :
    ParsesSafely decode text archiveDigest layerDigest ↔ BlockReads decode text := by
  constructor
  · rintro ⟨p, _, hinside, hmalformed⟩ der hder
    have hkey := parseHelmProvenance_signedBy hinside
    unfold pgpKeyId at hkey
    rw [hder] at hkey
    obtain ⟨key, hpackets, hsigned⟩ := map_eq_some_iff.mp hkey
    refine ⟨key, packets_iff.mp hpackets, ?_⟩
    by_cases hwhole : Packets der
    · exact .inr hwhole
    · have hnone := hmalformed der hder hwhole
      rw [← hsigned] at hnone
      exact .inl (map_eq_none_iff.mp hnone)
  · intro hreads
    cases hder : signatureBlock decode text with
    | none =>
      have hnokey (index : Index) : pgpKeyId index decode text = some none := by
        unfold pgpKeyId
        rw [hder]
      obtain ⟨p, hp, hinside, hsigned⟩ :=
        parseHelmProvenance_congr archiveDigest layerDigest (hnokey undefinedOutside)
          (hnokey insideOnly)
      exact ⟨p, hp, hinside, fun _ _ _ => hsigned⟩
    | some der =>
      obtain ⟨key, hkey, hwhole⟩ := hreads der hder
      have hinside : packets insideOnly der 0 = some key := packets_iff.mpr hkey
      have hjs : packets undefinedOutside der 0 = some key :=
        insideOnly_refines.packets _ 0 rfl hinside
      have hfinds (index : Index) (h : packets index der 0 = some key) :
          pgpKeyId index decode text = some (key.map hex) := by
        unfold pgpKeyId
        rw [hder]
        simp only [h, map_some]
      obtain ⟨p, hp, hp', hsigned⟩ :=
        parseHelmProvenance_congr archiveDigest layerDigest (hfinds undefinedOutside hjs)
          (hfinds insideOnly hinside)
      refine ⟨p, hp, hp', fun der' hder' hmalformed => ?_⟩
      rw [Option.some.inj (hder.symm.trans hder')] at hwhole
      rcases hwhole with rfl | hwhole
      · exact hsigned
      · exact absurd hwhole hmalformed

end provenance

/-- A block of one octet, the first of a packet with a length of two octets. -/
def cutBlock : String := "-----BEGIN PGP SIGNATURE-----\nmQ==\n-----END PGP SIGNATURE-----"

example : fromBase64 "mQ==AAAA".toList = [0x99] := by decide

theorem parseHelmProvenance_throws :
    parseHelmProvenance undefinedOutside fromBase64 cutBlock none "" = none ∧
      ¬∀ text archiveDigest layerDigest,
        ParsesSafely fromBase64 text archiveDigest layerDigest := by
  have hder : signatureBlock fromBase64 cutBlock = some [0x99] := by decide +kernel
  have hpackets : packets undefinedOutside [0x99] 0 = none := by
    unfold packets
    rfl
  have hthrows : parseHelmProvenance undefinedOutside fromBase64 cutBlock none "" = none := by
    unfold parseHelmProvenance pgpKeyId
    simp only [hder, hpackets, map_none]
  refine ⟨hthrows, fun hsafe => ?_⟩
  obtain ⟨p, hp, _⟩ := hsafe cutBlock none ""
  rw [hthrows] at hp
  cases hp

end Chicoree.Charts
