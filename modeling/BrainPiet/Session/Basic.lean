import BrainPiet.Grid
import BrainPiet.Session.Column
import BrainPiet.TapeStack

/-!
# Drawing sessions

A session draws a program along a lane from left to right. It holds the grid, the cursor, the shade
of the block that is being written and the loops that are open. A loop drops a column of
`loopRows depth` codels at each of its brackets, and white return rows connect their feet.

A step of a session that fails leaves behind what it had painted by then.
-/

namespace BrainPiet

/-- A loop that is open: where its columns stand and how deep it is nested. -/
structure OpenLoop where
  anchor : Int
  depth : Int
  branch : Option Int := none
  deriving DecidableEq, Repr, Inhabited

/-- The state of drawing; the head of `loops` is the innermost one. -/
structure Session where
  grid : Grid := {}
  shade : Shade := {}
  maxDepth : Int := 0
  x : Int := 0
  y : Int := 0
  loops : List OpenLoop := []
  deriving Inhabited

/-- A step of drawing. -/
abbrev Drawing := EStateM DrawFault Session

namespace Session

/-- The first row of the glyphs that stand above the lane. -/
def glyphTop : Int := 1

/-- The cells of a glyph, line by line, counted from its corner; blanks are left out. -/
def glyphCells (lines : List String) : List Pos :=
  lines.zipIdx.flatMap fun (line, dy) ↦
    (line.toList.zipIdx.filter fun (c, _) ↦ c ≠ ' ').map fun (_, dx) ↦ ((dx : Int), (dy : Int))

/-- The number of codels in the columns of a loop: deeper loops have shorter ones. -/
def loopRows (s : Session) (depth : Int) : Int := (s.maxDepth - depth) * 2 + 4

/-- The session with cursor and shade of an earlier one. -/
def resume (s earlier : Session) : Session :=
  { s with x := earlier.x, y := earlier.y, shade := earlier.shade.wrap }

end Session

namespace Drawing

/-- Takes a result, or fails with its fault. -/
def ofExcept {α : Type} : Except DrawFault α → Drawing α
  | .ok a => pure a
  | .error fault => throw fault

/-- The colour that is being painted with. -/
def ink : Drawing Rgb := do ofExcept (← get).shade.colour

/-- Paints a rectangle of a given colour. -/
def fill (x y : Int) (c : Rgb) (w h : Int) : Drawing Unit :=
  modify fun s ↦ { s with grid := s.grid.paint x y c w h }

/-- Paints a rectangle, by default at the cursor and in the current colour. -/
def rect (w h : Int) (x y : Option Int) (c : Option Rgb) : Drawing Unit := do
  let s ← get
  let c ← match c with
    | some c => pure c
    | none => ink
  fill (x.getD s.x) (y.getD s.y) c w h

/-- Puts the cursor somewhere. -/
def move (x y : Int) : Drawing Unit := modify fun s ↦ { s with x, y }

/-- Moves the cursor one column on. -/
def forward : Drawing Unit := modify fun s ↦ { s with x := s.x + 1 }

/-- Sets the shade, reduced to the palette. -/
def recolour (shade : Shade) : Drawing Unit := modify fun s ↦ { s with shade := shade.wrap }

/-- Paints a column of a given colour at the cursor and moves on. -/
def column (c : Rgb) (height : Int) : Drawing Unit := do
  let s ← get
  fill s.x s.y c 1 height
  forward

/-- Paints a column at the cursor and moves on. -/
def paint (height : Int) : Drawing Unit := do column (← ink) height

/-- Paints a white column at the cursor and moves on. -/
def white (height : Int) : Drawing Unit := column .white height

/-- Paints columns one after the other, once a shade has been set. -/
def columns (written : List Column × Shade) : Drawing Unit := do
  modify fun s ↦ { s with shade := written.2 }
  written.1.forM fun c ↦ column c.colour c.height

/-- Writes an operation. -/
def emit (op : Operation) (size : Int) : Drawing Unit := do
  columns (← ofExcept ((← get).shade.emit op size))

/-- Writes an operation given by its name. -/
def emitNamed (name : String) (size : Int) : Drawing Unit := do
  columns (← ofExcept ((← get).shade.emitNamed name size))

/-- Draws a white glyph above the lane from the cursor's column on. -/
def glyph (lines : List String) : Drawing Unit := do
  let x := (← get).x
  (Session.glyphCells lines).forM fun (dx, dy) ↦ fill (x + dx) (Session.glyphTop + dy) .white 1 1

/-- Draws something and then goes back to the cursor and the shade from before, also when the
drawing fails. -/
def aside {α : Type} (body : Drawing α) : Drawing α := fun s ↦
  match body s with
  | .ok a after => .ok a (after.resume s)
  | .error fault after => .error fault (after.resume s)

/-- Opens a loop: a white column with a coloured foot. The lane codel above it is painted by the
next operation. -/
def openLoop (depth : Int) : Drawing Unit := do
  let s ← get
  let rows := s.loopRows depth
  fill s.x s.y .white 1 (rows - 1)
  fill s.x (s.y + rows - 1) (← ink) 1 1
  modify fun s ↦ { s with loops := ⟨s.x, depth, none⟩ :: s.loops }

/-- Draws the column by which a loop is left. -/
def branch (depth : Int) : Drawing Unit := do
  let s ← get
  match s.loops with
  | ⟨anchor, loopDepth, none⟩ :: outer =>
    if loopDepth = depth then
      set { s with loops := ⟨anchor, loopDepth, some s.x⟩ :: outer }
      paint (s.loopRows depth)
      white 1
    else throw (.branchOutside depth)
  | _ => throw (.branchOutside depth)

/-- Whitens a row from `first` to `last`. It must be unpainted there and painted just before. -/
def returnSpan (row first last : Int) : Drawing Unit := do
  let g := (← get).grid
  if (g.get? (first - 1, row)).isNone then throw (.noColumn (first - 1) row)
  match (Grid.rectangle first row (last + 1 - first) 1).find? fun p ↦ (g.get? p).isSome with
  | some p => throw (.returnPainted row p.1)
  | none => fill first row .white (last - first + 1) 1

/-- Closes the innermost loop: draws its last column and the return rows. -/
def closeLoop (depth : Int) : Drawing Unit := do
  let s ← get
  match s.loops with
  | [] => throw (.closeOutside depth)
  | loop :: outer =>
    set { s with loops := outer }
    match loop.branch with
    | some turn =>
      if loop.depth ≠ depth then throw (.closeMismatch depth loop.anchor loop.depth)
      let rows := s.loopRows depth
      paint rows
      white 1
      let row := s.y + rows - 1
      returnSpan row (turn + 1) (s.x - 1)
      returnSpan row (loop.anchor + 1) (turn - 1)
    | none => throw (.closeMismatch depth loop.anchor loop.depth)

/-- The finished grid; every loop must be closed. -/
def finish : Drawing Grid := do
  let s ← get
  if s.loops.isEmpty then return s.grid else throw (.leftOpen s.loops.length)

end Drawing

end BrainPiet
