import BrainPiet.Png.Encode
import BrainPiet.Png.Inflate

/-!
# Reading picture files

Pictures with eight bits for each channel are read: grey or coloured, with or without opacity, or by
a palette. Opacity is dropped. Interlaced pictures are not read.
-/

namespace BrainPiet.Png

/-- A number of 32 bits at a position, the highest byte first. -/
def word? (data : ByteArray) (pos : Nat) : Option Nat := do
  let a ← data[pos]?
  let b ← data[pos + 1]?
  let c ← data[pos + 2]?
  let d ← data[pos + 3]?
  return ((a.toNat * 256 + b.toNat) * 256 + c.toNat) * 256 + d.toNat

/-- The chunks from a position on, by name and content. Each takes at least twelve bytes. -/
def chunks (data : ByteArray) : (fuel : Nat) → (pos : Nat) → List (List UInt8 × ByteArray)
  | 0, _ => []
  | fuel + 1, pos =>
    match word? data pos with
    | none => []
    | some size =>
      if data.size < pos + 12 + size then []
      else ((data.extract (pos + 4) (pos + 8)).toList, data.extract (pos + 8) (pos + 8 + size)) ::
        chunks data fuel (pos + 12 + size)

/-- The rows of filtered data. -/
def unfilterRows (data : ByteArray) (rowSize step : Nat) :
    (count : Nat) → (pos : Nat) → (above : Array UInt8) → Option (List (Array UInt8))
  | 0, _, _ => some []
  | count + 1, pos, above => do
    let filter ← data[pos]?
    if data.size < pos + 1 + rowSize then none
    let row := unfilter filter.toNat step above
      (data.extract (pos + 1) (pos + 1 + rowSize)).toList
    let rest ← unfilterRows data rowSize step count (pos + 1 + rowSize) row
    return row :: rest

/-- The number of channels of each colour kind. -/
def channels? : UInt8 → Option Nat
  | 0 => some 1
  | 2 => some 3
  | 3 => some 1
  | 4 => some 2
  | 6 => some 4
  | _ => none

/-- The colour of a pixel that starts at a position. -/
def pixel (kind : UInt8) (palette : ByteArray) (row : Array UInt8) (pos : Nat) : Rgb :=
  let channel (k : Nat) : UInt8 := row[pos + k]?.getD 0
  let entry (k : Nat) : UInt8 := palette[3 * (channel 0).toNat + k]?.getD 0
  match kind with
  | 2 | 6 => ⟨channel 0, channel 1, channel 2⟩
  | 3 => ⟨entry 0, entry 1, entry 2⟩
  | _ => .grey (channel 0)

/-- The picture in a file. -/
def decode? (data : ByteArray) : Option Bitmap := do
  if (data.extract 0 8).toList ≠ signature.toList then none
  let found := chunks data data.size 8
  let named (name : String) : List ByteArray :=
    (found.filter fun (n, _) ↦ n = name.toUTF8.toList).map (·.2)
  let head ← (named "IHDR").head?
  let width ← word? head 0
  let height ← word? head 4
  let kind ← head[9]?
  if head[8]? ≠ some 8 ∨ head[12]? ≠ some 0 ∨ width = 0 ∨ height = 0 then none
  let step ← channels? kind
  let packed := (named "IDAT").foldl (· ++ ·) .empty
  let raw ← inflate? packed
  let rows := (← unfilterRows raw (width * step) step height 0 #[]).toArray
  let palette := (named "PLTE").headD .empty
  return .ofPixels width height fun x y ↦ pixel kind palette (rows[y]?.getD #[]) (x * step)

end BrainPiet.Png
