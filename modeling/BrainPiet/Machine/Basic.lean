import BrainPiet.Heading
import BrainPiet.Machine.Number
import BrainPiet.Operation

/-!
# The machine

A machine holds a stack of integers, a heading, the input that is left and the output so far.
`execute` runs one operation. An operation that lacks operands, or that would divide by zero, does
nothing; only reading and writing numbers can fault, and what was consumed by then stays consumed.
-/

namespace BrainPiet

/-- The state of a running program; the head of `stack` is its top. -/
structure Machine where
  stack : List Int := []
  pointer : Pointer := {}
  chooser : Chooser := {}
  input : List UInt8 := []
  output : Array UInt8 := #[]
  deriving DecidableEq, Repr, Inhabited

namespace Machine

/-- The result of an operation on two values, `b` below `a`. Quotients round down. -/
def binary? : Operation → (b a : Int) → Option Int
  | .add, b, a => some (b + a)
  | .sub, b, a => some (b - a)
  | .mul, b, a => some (b * a)
  | .div, b, a => if a = 0 then none else some (b.fdiv a)
  | .mod, b, a => if a = 0 then none else some (b.fmod a)
  | .greater, b, a => some (if b > a then 1 else 0)
  | _, _, _ => none

/-- Moves the `r` topmost of the `depth` topmost values below the others of these. -/
def rotate (depth r : Nat) (s : List Int) : List Int :=
  let window := s.take depth
  window.drop r ++ window.take r ++ s.drop depth

/-- Takes a number of rolls and a depth off the stack and rolls that many of the values below. A
depth that is negative or beyond the values below leaves the stack as it was. -/
def rolled : List Int → List Int
  | rolls :: depth :: s =>
    if depth < 0 ∨ depth > s.length then rolls :: depth :: s
    else rotate depth.toNat (rolls % depth).toNat s
  | s => s

/-- The machine with another stack. -/
def setStack (m : Machine) (s : List Int) : Machine := { m with stack := s }

/-- Reads a number off the input and pushes it, if there is one. -/
def readNumber : EStateM NumberFault Machine Unit := fun m ↦
  let found := NumberScan.ofInput m.input
  let m := { m with input := found.rest }
  match found.value with
  | .error fault => .error fault m
  | .ok none => .ok () m
  | .ok (some n) => .ok () (m.setStack (n :: m.stack))

/-- Runs one operation; `size` is the size of the block that the walk leaves. -/
def execute (op : Operation) (size : Int) : EStateM NumberFault Machine Unit := fun m ↦
  match op with
  | .push => .ok () (m.setStack (size :: m.stack))
  | .pop => .ok () (m.setStack m.stack.tail)
  | .add | .sub | .mul | .div | .mod | .greater =>
    match m.stack with
    | a :: b :: s =>
      match binary? op b a with
      | some v => .ok () (m.setStack (v :: s))
      | none => .ok () m
    | _ => .ok () m
  | .not =>
    match m.stack with
    | v :: s => .ok () (m.setStack ((if v = 0 then 1 else 0) :: s))
    | [] => .ok () m
  | .pointer =>
    match m.stack with
    | v :: s => .ok () { m with stack := s, pointer := m.pointer.turn v }
    | [] => .ok () m
  | .switch =>
    match m.stack with
    | v :: s =>
      .ok () { m with stack := s, chooser := if v % 2 = 1 then m.chooser.flip else m.chooser }
    | [] => .ok () m
  | .dup =>
    match m.stack with
    | v :: s => .ok () (m.setStack (v :: v :: s))
    | [] => .ok () m
  | .roll => .ok () (m.setStack (rolled m.stack))
  | .inNum => readNumber m
  | .inChar =>
    match m.input with
    | b :: rest => .ok () { m with stack := b.toNat :: m.stack, input := rest }
    | [] => .ok () m
  | .outNum =>
    match m.stack with
    | v :: s =>
      match Text.decimal? v with
      | some text => .ok () { m with stack := s, output := m.output ++ Byte.ofText text }
      | none => .error .unwritable (m.setStack s)
    | [] => .ok () m
  | .outChar =>
    match m.stack with
    | v :: s =>
      .ok () { m with stack := s, output := m.output.push (UInt8.ofNat (v % 256).toNat) }
    | [] => .ok () m

end Machine

end BrainPiet
