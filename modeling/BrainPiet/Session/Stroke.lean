import BrainPiet.Session.Basic

/-!
# Strokes

A drawing is described before it is drawn: a stroke is one step of a session, and a piece is a
stroke or a side track after which cursor and shade are those from before.
-/

namespace BrainPiet

/-- One step of a drawing. -/
inductive Stroke
  | glyph (lines : List String)
  | emit (op : Operation) (size : Int)
  | paint (height : Int)
  | white (height : Int)
  | recolour (shade : Shade)
  /-- Puts the cursor somewhere. -/
  | move (x y : Int)
  /-- Moves the cursor down by some rows. -/
  | down (rows : Int)
  /-- A rectangle in the current colour. -/
  | block (x y w h : Int)
  /-- A column at the cursor that starts some rows above it. -/
  | pillar (above height : Int) (colour : Rgb)
  | openLoop (depth : Int)
  | branch (depth : Int)
  | closeLoop (depth : Int)
  deriving DecidableEq, Repr, Inhabited

/-- A stroke on the lane, or strokes beside it. -/
inductive Piece
  | lane (stroke : Stroke)
  | aside (strokes : List Stroke)
  deriving DecidableEq, Repr, Inhabited

namespace Stroke

/-- Draws a stroke. -/
def draw : Stroke → Drawing Unit
  | glyph lines => Drawing.glyph lines
  | emit op size => Drawing.emit op size
  | paint height => Drawing.paint height
  | white height => Drawing.white height
  | recolour shade => Drawing.recolour shade
  | move x y => Drawing.move x y
  | down rows => modify fun s ↦ { s with y := s.y + rows }
  | block x y w h => do Drawing.fill x y (← Drawing.ink) w h
  | pillar above height colour => do
    let s ← get
    Drawing.fill s.x (s.y - above) colour 1 height
  | openLoop depth => Drawing.openLoop depth
  | branch depth => Drawing.branch depth
  | closeLoop depth => Drawing.closeLoop depth

/-- The strokes that write operations. -/
def code (emissions : List Emission) : List Stroke := emissions.map fun e ↦ emit e.op e.size

/-- The stroke that writes an operation with a block of one codel. -/
def op (operation : Operation) : Stroke := emit operation 1

end Stroke

namespace Piece

/-- Draws a piece. -/
def draw : Piece → Drawing Unit
  | lane stroke => stroke.draw
  | aside strokes => Drawing.aside (strokes.forM Stroke.draw)

/-- Draws pieces one after the other. -/
def drawAll (pieces : List Piece) : Drawing Unit := pieces.forM draw

end Piece

end BrainPiet
