/-!
# Unpacking

Packed data is a sequence of blocks. A block is stored as it is, or written in codes of variable
length for single bytes and for copies of earlier output. The codes are fixed, or given in front of
the block. Bits are taken from the low end of each byte.
-/

namespace BrainPiet.Png

/-- Data with a position in it, counted in bits. -/
structure Bits where
  data : ByteArray
  pos : Nat := 0

namespace Bits

/-- The number of bits that are left. -/
def left (b : Bits) : Nat := 8 * b.data.size - b.pos

/-- One bit. -/
def bit? (b : Bits) : Option (Nat × Bits) :=
  b.data[b.pos / 8]?.map fun byte ↦
    (byte.toNat / Nat.pow 2 (b.pos % 8) % 2, { b with pos := b.pos + 1 })

/-- A number of `n` bits, the lowest first. -/
def number? : (n : Nat) → Bits → Option (Nat × Bits)
  | 0, b => some (0, b)
  | n + 1, b => do
    let (low, b) ← b.bit?
    let (high, b) ← number? n b
    return (low + 2 * high, b)

/-- The position moved to the start of a byte. -/
def align (b : Bits) : Bits := { b with pos := (b.pos + 7) / 8 * 8 }

end Bits

/-- A code of variable length: how many symbols have codes of one bit, two bits and so on, and the
symbols in the order of their codes. -/
structure PrefixCode where
  counts : List Nat
  symbols : Array Nat

namespace PrefixCode

/-- The most bits of a code. -/
def maxLength : Nat := 15

/-- The code that is given by the length of the code of each symbol; length zero means none. -/
def ofLengths (lengths : List Nat) : PrefixCode :=
  let sizes := (List.range maxLength).map (· + 1)
  let withLength (n : Nat) : List Nat :=
    (lengths.zipIdx.filter fun (length, _) ↦ length = n).map (·.2)
  ⟨sizes.map fun n ↦ (withLength n).length, (sizes.flatMap withLength).toArray⟩

/-- Reads bits until they make up a code. The codes of the present length start at `first`, and
`index` symbols have shorter ones. -/
def search (symbols : Array Nat) (code first index : Nat) : List Nat → Bits → Option (Nat × Bits)
  | [], _ => none
  | count :: longer, b => do
    let (bit, b) ← b.bit?
    let code := code + bit
    if code < first + count then
      let symbol ← symbols[index + (code - first)]?
      return (symbol, b)
    else search symbols (2 * code) (2 * (first + count)) (index + count) longer b

/-- Reads one symbol. -/
def symbol? (c : PrefixCode) (b : Bits) : Option (Nat × Bits) := search c.symbols 0 0 0 c.counts b

end PrefixCode

namespace Inflate

/-- The least length of each kind of copy, with the number of bits that add to it. -/
def lengthKinds : Array (Nat × Nat) :=
  #[(3, 0), (4, 0), (5, 0), (6, 0), (7, 0), (8, 0), (9, 0), (10, 0), (11, 1), (13, 1), (15, 1),
    (17, 1), (19, 2), (23, 2), (27, 2), (31, 2), (35, 3), (43, 3), (51, 3), (59, 3), (67, 4),
    (83, 4), (99, 4), (115, 4), (131, 5), (163, 5), (195, 5), (227, 5), (258, 0)]

/-- The least distance of each kind of copy, with the number of bits that add to it. -/
def distanceKinds : Array (Nat × Nat) :=
  #[(1, 0), (2, 0), (3, 0), (4, 0), (5, 1), (7, 1), (9, 2), (13, 2), (17, 3), (25, 3), (33, 4),
    (49, 4), (65, 5), (97, 5), (129, 6), (193, 6), (257, 7), (385, 7), (513, 8), (769, 8),
    (1025, 9), (1537, 9), (2049, 10), (3073, 10), (4097, 11), (6145, 11), (8193, 12), (12289, 12),
    (16385, 13), (24577, 13)]

/-- The order in which the lengths of the codes for code lengths are given. -/
def lengthOrder : List Nat := [16, 17, 18, 0, 8, 7, 9, 6, 10, 5, 11, 4, 12, 3, 13, 2, 14, 1, 15]

/-- A value of one of several kinds. -/
def ofKind (kinds : Array (Nat × Nat)) (kind : Nat) (b : Bits) : Option (Nat × Bits) := do
  let (least, more) ← kinds[kind]?
  let (extra, b) ← b.number? more
  return (least + extra, b)

/-- Copies bytes from some distance back, one at a time. -/
def copy (distance : Nat) : (length : Nat) → ByteArray → Option ByteArray
  | 0, out => some out
  | length + 1, out => do
    if distance > out.size then none
    copy distance length (out.push (← out[out.size - distance]?))

/-- Unpacks a block in codes. Each round reads at least one bit. -/
def coded (literal distance : PrefixCode) :
    (fuel : Nat) → ByteArray → Bits → Option (ByteArray × Bits)
  | 0, _, _ => none
  | fuel + 1, out, b => do
    let (symbol, b) ← literal.symbol? b
    if symbol < 256 then coded literal distance fuel (out.push (UInt8.ofNat symbol)) b
    else if symbol = 256 then return (out, b)
    else
      let (length, b) ← ofKind lengthKinds (symbol - 257) b
      let (kind, b) ← distance.symbol? b
      let (back, b) ← ofKind distanceKinds kind b
      coded literal distance fuel (← copy back length out) b

/-- Reads code lengths, the last first in `done`, until there are `n` of them. Each round reads at
least one bit. -/
def codeLengths (code : PrefixCode) (n : Nat) :
    (fuel : Nat) → List Nat → Bits → Option (List Nat × Bits)
  | 0, _, _ => none
  | fuel + 1, done, b => do
    if n ≤ done.length then return (done.reverse, b)
    let (symbol, b) ← code.symbol? b
    match symbol with
    | 16 =>
      let (more, b) ← b.number? 2
      let last ← done.head?
      codeLengths code n fuel (List.replicate (3 + more) last ++ done) b
    | 17 =>
      let (more, b) ← b.number? 3
      codeLengths code n fuel (List.replicate (3 + more) 0 ++ done) b
    | 18 =>
      let (more, b) ← b.number? 7
      codeLengths code n fuel (List.replicate (11 + more) 0 ++ done) b
    | length => codeLengths code n fuel (length :: done) b

/-- Some numbers of `n` bits each. -/
def numbers (n : Nat) : (count : Nat) → Bits → Option (List Nat × Bits)
  | 0, b => some ([], b)
  | count + 1, b => do
    let (x, b) ← b.number? n
    let (xs, b) ← numbers n count b
    return (x :: xs, b)

/-- The codes that are given in front of a block. -/
def givenCodes (b : Bits) : Option (PrefixCode × PrefixCode × Bits) := do
  let (literals, b) ← b.number? 5
  let (distances, b) ← b.number? 5
  let (count, b) ← b.number? 4
  let (given, b) ← numbers 3 (count + 4) b
  let lengths := (List.range 19).map fun symbol ↦
    ((lengthOrder.zip given).lookup symbol).getD 0
  let total := literals + 257 + (distances + 1)
  let (all, b) ← codeLengths (.ofLengths lengths) total (b.left + 1) [] b
  return (.ofLengths (all.take (literals + 257)), .ofLengths (all.drop (literals + 257)), b)

/-- The lengths of the fixed code for bytes and lengths. -/
def fixedLengths : List Nat :=
  List.replicate 144 8 ++ List.replicate 112 9 ++ List.replicate 24 7 ++ List.replicate 8 8

/-- The fixed code for bytes and lengths. -/
def fixedLiterals : PrefixCode := .ofLengths fixedLengths

/-- The fixed code for distances. -/
def fixedDistances : PrefixCode := .ofLengths (List.replicate 30 5)

/-- Unpacks a block that is stored as it is. -/
def stored (out : ByteArray) (b : Bits) : Option (ByteArray × Bits) := do
  let (length, b) ← b.align.number? 16
  let (_, b) ← b.number? 16
  if b.left < 8 * length then none
  let start := b.pos / 8
  return (out ++ b.data.extract start (start + length), { b with pos := b.pos + 8 * length })

/-- Unpacks blocks up to the last. Each round reads at least one bit. -/
def blocks : (fuel : Nat) → ByteArray → Bits → Option ByteArray
  | 0, _, _ => none
  | fuel + 1, out, b => do
    let (last, b) ← b.bit?
    let (kind, b) ← b.number? 2
    let (out, b) ← match kind with
      | 0 => stored out b
      | 1 => coded fixedLiterals fixedDistances (b.left + 1) out b
      | 2 => do
        let (literal, distance, b) ← givenCodes b
        coded literal distance (b.left + 1) out b
      | _ => none
    if last = 1 then return out else blocks fuel out b

end Inflate

/-- Unpacks data behind a header of two bytes. -/
def inflate? (data : ByteArray) : Option ByteArray :=
  let b : Bits := ⟨data, 16⟩
  Inflate.blocks (b.left + 1) .empty b

end BrainPiet.Png
