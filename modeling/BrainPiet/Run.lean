import BrainPiet.Picture.Walk
import BrainPiet.Raster

/-!
# Running a picture

A run walks from the corner until the walk halts or the limit of steps is reached. A traced run does
the same and writes one line for each step.
-/

namespace BrainPiet

/-- One step of a traced run: where it started, and the machine after it. -/
structure LogEntry where
  step : Nat
  pos : Pos
  op : Option Operation
  machine : Machine
  deriving DecidableEq, Repr, Inhabited

/-- The written form of a position. -/
def Pos.display (p : Pos) : String := "(" ++ toString p.1 ++ ", " ++ toString p.2 ++ ")"

/-- The written form of a stack, top first, unless a value is too long to be written. -/
def stackDisplay? (stack : List Int) : Option String :=
  (stack.mapM Text.decimal?).map fun shown ↦ "[" ++ ", ".intercalate shown ++ "]"

/-- The line of a step, unless a value on the stack is too long to be written. -/
def LogEntry.line? (e : LogEntry) : Option String :=
  (stackDisplay? e.machine.stack).map fun stack ↦
    "step=" ++ toString e.step ++ " at=" ++ e.pos.display ++
      " op=" ++ (e.op.map Operation.name).getD "-" ++
      " dp=" ++ e.machine.pointer.name ++ " cc=" ++ e.machine.chooser.side.name ++
      " stack=" ++ stack

/-- Why a run failed. -/
inductive RunFault
  | noStart
  | stepLimit (limit : Int)
  /-- The limit was reached, and it is too long to be written. -/
  | unwritableLimit
  /-- The limit was reached in a traced run, with the lines by then. -/
  | traceLimit (lines : List String)
  | walk (fault : WalkFault)
  deriving DecidableEq, Repr, Inhabited

/-- The number of lines that are shown of a trace. -/
def traceTail : Nat := 20

/-- The last lines of a trace. -/
def lastLines (n : Nat) (lines : List String) : List String := lines.drop (lines.length - n)

/-- The wording of each fault of a walk. -/
def WalkFault.message : WalkFault → String
  | noBlock p => p.display
  | missing => "list index out of range"
  | indexSize => "cannot fit 'int' into an index-sized integer"
  | number fault => fault.message

/-- The fault of a run that has not halted within its limit. The limit is part of the wording. -/
def RunFault.atLimit (limit : Int) : RunFault :=
  if (Text.decimal? limit).isSome then .stepLimit limit else .unwritableLimit

/-- The wording of each fault of a run. -/
def RunFault.message : RunFault → String
  | noStart => "Program must start with a colored codel at the top-left corner"
  | stepLimit limit =>
    match Text.decimal? limit with
    | some shown => "Program did not halt within " ++ shown ++ " steps"
    | none => NumberFault.unwritable.message
  | unwritableLimit => NumberFault.unwritable.message
  | traceLimit lines =>
    "Trace exceeded max_steps\n--- TRACE (last " ++ toString traceTail ++ " entries) ---\n" ++
      "\n".intercalate (lastLines traceTail lines)
  | walk fault => fault.message

namespace Picture

/-- Walks on for at most `fuel` steps; `none` when the walk has not halted by then. -/
def walk (p : Picture) : (fuel : Nat) → Machine → Pos → Except WalkFault (Option Machine)
  | 0, _, _ => .ok none
  | fuel + 1, m, pos =>
    match p.step pos m with
    | .error fault _ => .error fault
    | .ok arrival m =>
      match arrival.pos with
      | none => .ok (some m)
      | some next => p.walk fuel m next

/-- The output of a run with some input, if it halts within the limit. -/
def run (p : Picture) (input : List UInt8) (limit : Int) : Except RunFault (List UInt8) :=
  match p.start? with
  | none => .error .noStart
  | some pos =>
    match p.walk limit.toNat { input } pos with
    | .error fault => .error (.walk fault)
    | .ok none => .error (.atLimit limit)
    | .ok (some m) => .ok m.output.toList

/-- As `walk`, with a line for each step; `lines` holds those before, the last first. -/
def traceWalk (p : Picture) (count : Nat) (lines : List String) :
    (fuel : Nat) → Machine → Pos → Except RunFault (Machine × List String)
  | 0, _, _ => .error (.traceLimit lines.reverse)
  | fuel + 1, m, pos =>
    match p.step pos m with
    | .error fault _ => .error (.walk fault)
    | .ok arrival m =>
      match (LogEntry.mk count pos arrival.op m).line? with
      | none => .error (.walk (.number .unwritable))
      | some line =>
        match arrival.pos with
        | none => .ok (m, (line :: lines).reverse)
        | some next => p.traceWalk (count + 1) (line :: lines) fuel m next

/-- The output and the lines of a traced run. -/
def traceRun (p : Picture) (input : List UInt8) (limit : Int) :
    Except RunFault (List UInt8 × List String) :=
  match p.start? with
  | none => .error .noStart
  | some pos => (p.traceWalk 0 [] limit.toNat { input } pos).map fun (m, lines) ↦
      (m.output.toList, lines)

/-- The limit of steps of a run, if none is given. -/
def defaultLimit : Int := 1000000

/-- The limit of steps of a traced run, if none is given. -/
def defaultTraceLimit : Int := 100000

end Picture

end BrainPiet
