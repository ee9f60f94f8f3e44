/-!
# Row filters

Before a picture is packed, each byte of a row is replaced by its difference to a prediction from the
bytes around it. A row is written with the filter whose differences are smallest.
-/

namespace BrainPiet.Png

/-- The neighbour that is nearest to the sum of the left and the upper one less the corner. -/
def nearest (left up corner : Nat) : Nat :=
  let distance (x : Nat) : Nat := ((left + up : Int) - corner - x).natAbs
  if distance left ≤ distance up ∧ distance left ≤ distance corner then left
  else if distance up ≤ distance corner then up
  else corner

/-- What a filter predicts for a byte. -/
def predict (filter left up corner : Nat) : Nat :=
  match filter with
  | 1 => left
  | 2 => up
  | 3 => (left + up) / 2
  | 4 => nearest left up corner
  | _ => 0

/-- The byte one pixel before a position; `step` is the size of a pixel. -/
def byteBefore (step : Nat) (bytes : Array UInt8) (i : Nat) : Nat :=
  if i < step then 0 else (bytes[i - step]?.getD 0).toNat

/-- What a filter predicts for the byte at a position, given the row so far and the row above it. -/
def predictAt (filter step : Nat) (above row : Array UInt8) (i : Nat) : UInt8 :=
  UInt8.ofNat (predict filter (byteBefore step row i) (above[i]?.getD 0).toNat
    (byteBefore step above i))

/-- Undoes the filter of a row, given the row above it. -/
def unfilter (filter step : Nat) (above : Array UInt8) (row : List UInt8) : Array UInt8 :=
  row.foldl (fun done byte ↦ done.push (byte + predictAt filter step above done done.size)) #[]

/-- A row as a filter changes it, given the row above it. -/
def applyFilter (filter step : Nat) (above row : Array UInt8) : Array UInt8 :=
  row.mapIdx fun i byte ↦ byte - predictAt filter step above row i

/-- The sum of the sizes of differences; the upper half of the bytes stands for negative ones. -/
def distance (row : Array UInt8) : Nat :=
  row.foldl (fun sum byte ↦ sum + (if byte < 128 then byte.toNat else 256 - byte.toNat)) 0

/-- The filters that are tried, in this order: none, the row above, the pixel before, the nearest
neighbour. -/
def filters : List Nat := [0, 2, 1, 4]

/-- A row with the number of its filter in front: the first of those with the smallest differences. -/
def bestFilter (step : Nat) (above row : Array UInt8) : Array UInt8 :=
  let tried := filters.map fun filter ↦ (filter, applyFilter filter step above row)
  let (filter, bytes, _) := tried.foldl (fun (best : Nat × Array UInt8 × Nat) (filter, bytes) ↦
    let sum := distance bytes
    if sum < best.2.2 then (filter, bytes, sum) else best) (0, row, distance row)
  #[UInt8.ofNat filter] ++ bytes

/-- All rows, each with its best filter. -/
def filterRows (step : Nat) : (above : Array UInt8) → List (Array UInt8) → ByteArray
  | _, [] => .empty
  | above, row :: rest => ⟨bestFilter step above row⟩ ++ filterRows step row rest

end BrainPiet.Png
