import BrainPiet.Png.Checksum
import BrainPiet.Png.CodeTree
import BrainPiet.Png.Inflate
import BrainPiet.Png.Repeat

/-!
# Packing

Data is written as blocks of bytes and copies. A block is written in the fixed codes, in codes that
are made for it and given in front, or as it is, whichever takes the fewest bytes.
-/

namespace BrainPiet.Png

/-- A number that is written with some bits, the lowest first. -/
structure Field where
  value : Nat
  width : Nat
  deriving DecidableEq, Repr, Inhabited

/-- The bits of several fields. -/
def totalWidth (fields : List Field) : Nat := fields.foldl (fun sum field ↦ sum + field.width) 0

/-- Bits as they are written: full bytes, and less than a byte of `count` bits. -/
structure BitWriter where
  bytes : ByteArray := .empty
  rest : Nat := 0
  count : Nat := 0

namespace BitWriter

/-- Moves full bytes out of the rest. -/
def drain (w : BitWriter) : BitWriter :=
  if 8 ≤ w.count then drain ⟨w.bytes.push (UInt8.ofNat w.rest), w.rest / 256, w.count - 8⟩ else w
termination_by w.count

/-- Writes a field. -/
def write (w : BitWriter) (field : Field) : BitWriter :=
  drain ⟨w.bytes, w.rest + field.value * Nat.pow 2 w.count, w.count + field.width⟩

/-- Fills up the last byte. -/
def align (w : BitWriter) : BitWriter :=
  if w.count = 0 then w else ⟨w.bytes.push (UInt8.ofNat w.rest), 0, 0⟩

/-- Writes full bytes behind the last full byte. -/
def append (w : BitWriter) (bytes : ByteArray) : BitWriter := ⟨w.align.bytes ++ bytes, 0, 0⟩

end BitWriter

namespace Deflate

/-- The kind of a length or a distance, with what adds to the least of its kind. -/
def kindOf (kinds : Array (Nat × Nat)) (n : Nat) : Nat × Field :=
  let kind := (kinds.findIdx? fun (least, _) ↦ n < least).getD kinds.size - 1
  let (least, width) := kinds[kind]?.getD (0, 0)
  (kind, ⟨n - least, width⟩)

/-- The symbol that ends a block. -/
def blockEnd : Nat := 256

/-- The symbol of the first kind of copy. -/
def firstCopy : Nat := 257

/-- The symbols of bytes, of the end and of lengths. -/
def literalCount : Nat := firstCopy + Inflate.lengthKinds.size

/-- The symbols of distances. -/
def distanceCount : Nat := Inflate.distanceKinds.size

/-- The lengths of the codes of a block, for literals and lengths and for distances. -/
structure Codes where
  literal : List Nat
  distance : List Nat

/-- The codes that are the same for all blocks. -/
def Codes.fixed : Codes := ⟨Inflate.fixedLengths, List.replicate distanceCount 5⟩

/-- The fields of pieces and of the end of a block. -/
def body (codes : Codes) (tokens : Array Token) : List Field :=
  let literals := Png.codes PrefixCode.maxLength codes.literal
  let distances := Png.codes PrefixCode.maxLength codes.distance
  let code (table : Array (Nat × Nat)) (symbol : Nat) : Field :=
    let (value, width) := table[symbol]?.getD (0, 0)
    ⟨value, width⟩
  (tokens.foldr (fun token rest ↦
    match token with
    | .literal byte => code literals byte.toNat :: rest
    | .copy length distance =>
      let (lengthKind, lengthMore) := kindOf Inflate.lengthKinds length
      let (distanceKind, distanceMore) := kindOf Inflate.distanceKinds distance
      code literals (firstCopy + lengthKind) :: lengthMore :: code distances distanceKind ::
        distanceMore :: rest) [code literals blockEnd])

/-- The lengths of codes, given how often each symbol is used, up to the last symbol with a code. -/
def codeLengths (longest : Nat) (counts : Array Nat) : List Nat :=
  let used := (counts.toList.zipIdx.filter fun (count, _) ↦ count ≠ 0).map fun (count, symbol) ↦
    (symbol, count)
  let pairs := CodeLength.ofWeights longest used
  let size := pairs.foldl (fun size (symbol, _) ↦ max size (symbol + 1)) 0
  (pairs.foldl (fun (lengths : Array Nat) (symbol, length) ↦ lengths.setIfInBounds symbol length)
    (Array.replicate size 0)).toList

/-- The codes that are made for a block. -/
def Codes.ofTokens (tokens : Array Token) : Codes :=
  let count (counts : Array Nat) (symbol : Nat) : Array Nat := counts.modify symbol (· + 1)
  let none : Array Nat × Array Nat :=
    (count (Array.replicate literalCount 0) blockEnd, Array.replicate distanceCount 0)
  let (literals, distances) := tokens.foldl (fun (literals, distances) token ↦
    match token with
    | .literal byte => (count literals byte.toNat, distances)
    | .copy length distance =>
      (count literals (firstCopy + (kindOf Inflate.lengthKinds length).1),
        count distances (kindOf Inflate.distanceKinds distance).1)) none
  ⟨codeLengths PrefixCode.maxLength literals, codeLengths PrefixCode.maxLength distances⟩

/-- A piece of a list of code lengths: a length or the symbol for a run, and how long the run is. -/
abbrev LengthPiece := Nat × Field

/-- A run of unused symbols, at most 138 at a time. -/
def zeroRun (n : Nat) : List LengthPiece :=
  let full := (n - 1) / 138
  let more := n - 138 * full
  List.replicate full (18, ⟨127, 7⟩) ++
    if 11 ≤ more then [(18, ⟨more - 11, 7⟩)]
    else if 3 ≤ more then [(17, ⟨more - 3, 3⟩)]
    else List.replicate more (0, ⟨0, 0⟩)

/-- A run of a length behind the same length, at most six at a time. -/
def repeatRun (length n : Nat) : List LengthPiece :=
  let full := (n - 1) / 6
  let more := n - 6 * full
  List.replicate full (16, ⟨3, 2⟩) ++
    if 3 ≤ more then [(16, ⟨more - 3, 2⟩)] else List.replicate more (length, ⟨0, 0⟩)

/-- A list of code lengths in pieces. -/
def lengthPieces (lengths : List Nat) : List LengthPiece :=
  (lengths.splitBy (· == ·)).flatMap fun run ↦
    match run with
    | [] => []
    | 0 :: _ => zeroRun run.length
    | length :: more => (length, ⟨0, 0⟩) :: repeatRun length more.length

/-- The codes in front of a block: how many there are, the codes for their lengths, and the lengths. -/
def codesInFront (codes : Codes) : List Field :=
  let pieces := lengthPieces codes.literal ++ lengthPieces codes.distance
  let counts := pieces.foldl (fun (counts : Array Nat) (symbol, _) ↦ counts.modify symbol (· + 1))
    (Array.replicate Inflate.lengthOrder.length 0)
  let lengths := codeLengths 7 counts
  let given := Inflate.lengthOrder.map fun symbol ↦ lengths[symbol]?.getD 0
  let given := given.take 4 ++ ((given.drop 4).reverse.dropWhile (· = 0)).reverse
  let table := Png.codes 7 lengths
  ⟨codes.literal.length - 257, 5⟩ :: ⟨codes.distance.length - 1, 5⟩ :: ⟨given.length - 4, 4⟩ ::
    given.map (⟨·, 3⟩) ++
    pieces.flatMap fun (symbol, more) ↦
      let (value, width) := table[symbol]?.getD (0, 0)
      [⟨value, width⟩, more]

/-- The bytes of fields behind the three bits that start a block. -/
def byteCount (fields : List Field) : Nat := (totalWidth fields + 3 + 7) / 8

/-- Writes the three bits that start a block of a kind; `last` marks the last block. -/
def start (w : BitWriter) (kind : Nat) (last : Bool) : BitWriter :=
  w.write ⟨2 * kind + (if last then 1 else 0), 3⟩

/-- Writes a block; `raw` is the data that it stands for. -/
def block (w : BitWriter) (tokens : Array Token) (raw : ByteArray) (last : Bool) : BitWriter :=
  let own := Codes.ofTokens tokens
  let dynamic := codesInFront own ++ body own tokens
  let fixed := body .fixed tokens
  if raw.size + 4 ≤ min (byteCount dynamic) (byteCount fixed) then
    let size := UInt16.ofNat raw.size
    let check := ~~~size
    (start w 0 last).append
      (⟨#[size.toUInt8, (size >>> 8).toUInt8, check.toUInt8, (check >>> 8).toUInt8]⟩ ++ raw)
  else if byteCount fixed ≤ byteCount dynamic then fixed.foldl BitWriter.write (start w 1 last)
  else dynamic.foldl BitWriter.write (start w 2 last)

/-- The most pieces of a block. -/
def blockLimit : Nat := 32767

/-- The pieces of each block. A block that is full up to a copy is never the last. -/
def split (tokens : Array Token) : List (Array Token) :=
  let full := match tokens.back? with
    | some (.literal _) => (tokens.size - 1) / blockLimit
    | _ => tokens.size / blockLimit
  (List.range (full + 1)).map fun k ↦ tokens.extract (k * blockLimit) ((k + 1) * blockLimit)

/-- Writes blocks up to the last; `pos` is where the data of the first one starts. -/
def blocks (data : ByteArray) : BitWriter → (pos : Nat) → List (Array Token) → BitWriter
  | w, _, [] => w
  | w, pos, tokens :: rest =>
    let next := tokens.foldl (fun pos token ↦ pos + token.size) pos
    blocks data (block w tokens (data.extract pos next) rest.isEmpty) next rest

end Deflate

/-- Packs data, with a header in front and a checksum behind. -/
def deflate (data : ByteArray) : ByteArray :=
  let w : BitWriter := { bytes := ⟨#[0x78, 0x9C]⟩ }
  (Deflate.blocks data w 0 (Deflate.split (tokens data))).align.bytes ++ word (adler data)

end BrainPiet.Png
