import BrainPiet.Session.Stroke
import BrainPiet.Source

/-!
# Templates

Each instruction of a tape program has a template: a glyph, and operations that do on the stack what
the instruction does on the tape. The prologue builds the stack `0 3 3` of a tape with one cell and
leads onto the lane; the epilogue ends in a block that cannot be left.
-/

namespace BrainPiet.Template

open TapeStack
open Stroke (op code)

/-- The row that the lane runs along. -/
def laneRow : Int := 5

/-- Builds the first stack and enters the lane. -/
def prologue : List Stroke :=
  [.recolour ⟨0, 0⟩, .block 0 0 2 2, .move 0 0, op .push, .block 0 1 1 1, .block 0 2 2 1,
    .move 1 2, op .push, .move 1 3, op .push, .move 1 4, op .push,
    .block 0 laneRow 3 1, .block 2 (laneRow + 1) 1 1, .move 2 laneRow, op .sub]

/-- Ends the lane in a block with nothing reachable around it. -/
def epilogue : List Stroke := [.paint 1, .white 1, .pillar 1 3 ⟨0xFF, 0xC0, 0xC0⟩]

/-- Keeps the first column of the lane one codel high when a loop comes first, so that the walk
leaves the prologue along the lane and not down the loop's column. -/
def spacer : List Stroke := code (push 1) ++ [op .pop]

/-- Adds one to the value under the head. -/
def increment : List Stroke :=
  [.glyph [" # ", "###", " # "]] ++ code (push 1) ++ [.paint 1, .paint 1, op .add]

/-- Takes one from the value under the head. -/
def decrement : List Stroke :=
  [.glyph ["", "###", ""]] ++ code (push 1) ++ [.paint 1, .paint 1, op .sub]

/-- Puts the value back and compares the head with the end of the tape; the lane forks. -/
def advanceTest : List Stroke :=
  [.glyph ["#", " #", "#"]] ++ code (deposit ++ pick 1 ++ pick 1) ++
    [op .greater, op .switch, .paint 2, .white 2, .recolour ⟨0, 0⟩]

/-- The upper track, at the end of the tape: appends a cell that holds zero. -/
def advanceGrow : List Stroke :=
  [op .pop] ++ code (push 1) ++ [op .add, op .dup] ++ code (push 0) ++ [.paint 1, .white 1]

/-- The lower track, inside the tape: takes up the next cell. Both tracks meet behind it. -/
def advanceStep : List Stroke :=
  [.recolour ⟨1, 0⟩, .down 1] ++ code (push 1) ++ [op .add] ++ code withdraw ++
    [.paint 1, .white 1, .down (-1), .paint 2, .white 1]

/-- Puts the value back and takes up the cell before. -/
def retreat : List Stroke :=
  [.glyph [" #", "#", " #"]] ++ code (deposit ++ push 1) ++ [op .sub] ++ code withdraw

/-- Tests the value and leaves by the branch column when it is zero. -/
def loopOpen (depth : Int) : List Stroke :=
  [.glyph ["##", "#", "##"], .openLoop depth, op .dup, op .dup, op .mul] ++ code (push 0) ++
    [op .greater, op .not, op .switch, .branch depth]

/-- Turns the walk around, back to the test. -/
def loopClose (depth : Int) : List Stroke :=
  [.glyph ["##", " #", "##"]] ++ code (push 2) ++ [op .pointer, .closeLoop depth]

/-- Drops the value and tries to read one over `1` and `-1`; the lane forks. -/
def readTest : List Stroke :=
  [.glyph ["", " #", "#"], op .pop] ++ code (push 1 ++ push (-1)) ++ [op .inChar, op .dup] ++
    code (push (-1)) ++ [op .greater, op .switch]

/-- The upper track, at the end of the input: nothing to do. -/
def readNothing : List Stroke := [.paint 1, .white 1, .white 1]

/-- The lower track, after a byte: one addition more. Both tracks meet in the last addition. -/
def readByte : List Stroke :=
  [.down 1, op .add, .paint 1, .white 1, .down (-1), .emit .add 2, .paint 1, .white 1]

/-- Writes the value and keeps it. -/
def write : List Stroke := [.glyph ["", "", "#"], op .dup, op .outChar]

/-- The pieces of an instruction inside a loop of the given depth. -/
def pieces (depth : Int) : Symbol → List Piece
  | .increment => increment.map .lane
  | .decrement => decrement.map .lane
  | .advance => advanceTest.map .lane ++ [.aside advanceGrow] ++ advanceStep.map .lane
  | .retreat => retreat.map .lane
  | .loopOpen => (loopOpen depth).map .lane
  | .loopClose => (loopClose depth).map .lane
  | .read => readTest.map .lane ++ [.aside readNothing] ++ readByte.map .lane
  | .write => write.map .lane

end BrainPiet.Template
