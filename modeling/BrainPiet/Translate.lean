import BrainPiet.Template

/-!
# From a source program to a grid
-/

namespace BrainPiet

namespace Drawing

/-- Draws an instruction. -/
def instruction (symbol : Symbol) (depth : Int) : Drawing Unit :=
  Piece.drawAll (Template.pieces depth symbol)

/-- Draws an instruction that is given as a text. -/
def instructionText (text : String) (depth : Int) : Drawing Unit :=
  match Symbol.ofText? text with
  | some symbol => instruction symbol depth
  | none => throw (.unsupported text)

/-- Draws the prologue. -/
def prologue : Drawing Unit := Template.prologue.forM Stroke.draw

/-- Draws the epilogue. -/
def epilogue : Drawing Unit := Template.epilogue.forM Stroke.draw

/-- Draws a whole program. -/
def program (code : List Instruction) : Drawing Grid := do
  prologue
  if code.head?.any (·.symbol = .loopOpen) then Template.spacer.forM Stroke.draw
  code.forM fun i ↦ instruction i.symbol i.depth
  epilogue
  finish

end Drawing

/-- Why a source text has no picture. -/
inductive TranslateFault
  | malformed (reason : Malformed)
  | draw (fault : DrawFault)
  deriving DecidableEq, Repr, Inhabited

/-- The wording of each fault. -/
def TranslateFault.message : TranslateFault → String
  | malformed reason => reason.message
  | draw fault => fault.message

/-- The picture of a source text, as a grid. -/
def translate (text : String) : Except TranslateFault Grid :=
  match Source.parse text with
  | .error reason => .error (.malformed reason)
  | .ok code =>
    match Drawing.program code { maxDepth := Source.maxDepth code } with
    | .ok grid _ => .ok grid
    | .error fault _ => .error (.draw fault)

end BrainPiet
