import BrainPiet.Source
import BrainPiet.Tape.Basic

/-!
# Tape programs

A tape program is a sequence of actions and loops. Its meaning is a change of tape, input and
output: a loop runs its body for as long as the value under the head is not zero.
-/

namespace BrainPiet

/-- A program as a tree: an action or a loop, and what follows. -/
inductive TapeProgram
  | done
  | act (symbol : Symbol) (next : TapeProgram)
  | loop (body next : TapeProgram)
  deriving DecidableEq, Repr, Inhabited

/-- What a tape program works on. -/
structure TapeWorld where
  tape : Tape := {}
  input : List UInt8 := []
  output : List UInt8 := []
  deriving DecidableEq, Repr, Inhabited

namespace TapeWorld

/-- Carries out one action; none when the head would leave the tape. Brackets are no actions. -/
def act? (w : TapeWorld) : Symbol → Option TapeWorld
  | .increment => some { w with tape := w.tape.write (w.tape.cell + 1) }
  | .decrement => some { w with tape := w.tape.write (w.tape.cell - 1) }
  | .advance => some { w with tape := w.tape.advance }
  | .retreat => w.tape.retreat?.map fun t ↦ { w with tape := t }
  | .read =>
    match w.input with
    | [] => some { w with tape := w.tape.write 0 }
    | b :: rest => some { w with tape := w.tape.write b.toNat, input := rest }
  | .write => some { w with output := w.output ++ [UInt8.ofNat (w.tape.cell % 256).toNat] }
  | .loopOpen | .loopClose => none

end TapeWorld

/-- How a bounded run ends. -/
inductive TapeEnd
  | halted (world : TapeWorld)
  /-- The head left the tape. -/
  | fell
  /-- The bound on the number of rounds was reached. -/
  | unfinished
  deriving DecidableEq, Repr, Inhabited

namespace TapeProgram

/-- Runs a program, with at most `fuel` rounds of loops inside each other and after each other. -/
def run : (fuel : Nat) → TapeProgram → TapeWorld → TapeEnd
  | _, done, w => .halted w
  | fuel, act symbol next, w =>
    match w.act? symbol with
    | none => .fell
    | some w => run fuel next w
  | 0, loop _ next, w => if w.tape.cell = 0 then run 0 next w else .unfinished
  | fuel + 1, loop body next, w =>
    if w.tape.cell = 0 then run (fuel + 1) next w
    else match run fuel body w with
      | .halted w => run fuel (loop body next) w
      | .fell => .fell
      | .unfinished => .unfinished
termination_by fuel p => (fuel, p)

/-- The instructions of a program inside `depth` loops. -/
def instructions (depth : Nat) : TapeProgram → List Instruction
  | done => []
  | act symbol next => ⟨symbol, 0⟩ :: instructions depth next
  | loop body next =>
    ⟨.loopOpen, depth + 1⟩ :: instructions (depth + 1) body ++
      ⟨.loopClose, depth + 1⟩ :: instructions depth next

/-- Every action of the program is something other than a bracket. -/
def Plain : TapeProgram → Prop
  | done => True
  | act symbol next => symbol ≠ .loopOpen ∧ symbol ≠ .loopClose ∧ next.Plain
  | loop body next => body.Plain ∧ next.Plain

end TapeProgram

end BrainPiet
