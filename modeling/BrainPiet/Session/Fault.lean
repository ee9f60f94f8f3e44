import BrainPiet.Machine.Number

/-!
# Faults of drawing
-/

namespace BrainPiet

/-- Why something could not be drawn. -/
inductive DrawFault
  /-- The shade has no colour. -/
  | outsidePalette
  /-- A coordinate of the shade is too large for any palette. -/
  | indexSize
  | unknownOperation (name : String)
  | blockSize (size : Int)
  /-- The columns of a block are too many to be counted. -/
  | tooManyColumns
  /-- The columns of a block take more memory than can be had. -/
  | noMemory
  | unsupported (symbol : String)
  | branchOutside (depth : Int)
  | closeOutside (depth : Int)
  | closeMismatch (depth anchor loopDepth : Int)
  | noColumn (x row : Int)
  | returnPainted (row x : Int)
  | leftOpen (count : Nat)
  deriving DecidableEq, Repr, Inhabited

namespace DrawFault

/-- The wording of each fault, unless it has a number that is too long to be written. -/
def wording? : DrawFault → Option String
  | outsidePalette => some "list index out of range"
  | indexSize | tooManyColumns => some "cannot fit 'int' into an index-sized integer"
  | noMemory => some ""
  | unknownOperation name => some ("Unknown Piet operation: " ++ name)
  | blockSize size => do return "block size must be at least 1, got " ++ (← Text.decimal? size)
  | unsupported symbol => some ("Unsupported instruction: " ++ Text.quoted symbol)
  | branchOutside depth => do
    return "Loop branch at depth " ++ (← Text.decimal? depth) ++ " has no open loop"
  | closeOutside depth => do
    return "Loop close at depth " ++ (← Text.decimal? depth) ++ " has no open loop"
  | closeMismatch depth anchor loopDepth => do
    return "Loop close at depth " ++ (← Text.decimal? depth) ++
      " does not match loop opened at column " ++ (← Text.decimal? anchor) ++ " (depth " ++
      (← Text.decimal? loopDepth) ++ ")"
  | noColumn x row => do
    return "No loop column at (" ++ (← Text.decimal? x) ++ ", " ++ (← Text.decimal? row) ++ ")"
  | returnPainted row x => do
    return "Loop return row " ++ (← Text.decimal? row) ++ " is already painted at column " ++
      (← Text.decimal? x)
  | leftOpen count => do
    return (← Text.decimal? count) ++ " loop(s) left open at end of program"

/-- What is said of each fault. -/
def message (fault : DrawFault) : String := fault.wording?.getD NumberFault.unwritable.message

end DrawFault

end BrainPiet
