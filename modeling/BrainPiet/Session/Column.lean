import BrainPiet.Session.Fault
import BrainPiet.Shade

/-!
# Columns of a block

The block of an operation is laid along the lane in columns two codels high, with one column of a
single codel at the end when its size is odd.
-/

namespace BrainPiet

/-- A column of codels of one colour. -/
structure Column where
  height : Nat
  colour : Rgb
  deriving DecidableEq, Repr, Inhabited

namespace Column

/-- The columns of a block of the given size. -/
def block (size : Nat) (c : Rgb) : List Column :=
  List.replicate (size / 2) ⟨2, c⟩ ++ if size % 2 = 1 then [⟨1, c⟩] else []

/-- The most columns that a block is laid in, with eight bytes for each. -/
def limit : Nat := Nat.pow 2 31

/-- Why the columns of a block of some size cannot be held. -/
def sizeFault? (size : Nat) : Option DrawFault :=
  if Nat.pow 2 63 ≤ size / 2 then some .tooManyColumns
  else if limit ≤ size / 2 then some .noMemory
  else none

end Column

namespace Shade

/-- The colour of a shade, or the fault that it has none. -/
def colour (s : Shade) : Except DrawFault Rgb :=
  match s.colour? with
  | some c => .ok c
  | none => .error (if isIndexSized s.strayCoordinate then .outsidePalette else .indexSize)

/-- The columns that write an operation, and the shade that follows. -/
def emit (s : Shade) (op : Operation) (size : Int) : Except DrawFault (List Column × Shade) :=
  if size < 1 then .error (.blockSize size)
  else s.colour.map fun c ↦ (Column.block size.toNat c, s.step op)

/-- As `emit`, for an operation given by its name and a block whose columns can be held. -/
def emitNamed (s : Shade) (name : String) (size : Int) :
    Except DrawFault (List Column × Shade) :=
  match Operation.ofName? name with
  | none => .error (.unknownOperation name)
  | some op =>
    match s.colour, Column.sizeFault? size.toNat with
    | .ok _, some fault => .error fault
    | _, _ => s.emit op size

end Shade

end BrainPiet
