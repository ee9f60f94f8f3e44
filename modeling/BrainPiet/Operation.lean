/-!
# Operations

The seventeen operations of the picture language. Each is named by a step between two shades: how
far the hue moves and how far the lightness moves.
-/

namespace BrainPiet

/-- An operation of the picture language. -/
inductive Operation
  | push | pop | add | sub | mul | div | mod | not | greater | pointer | switch | dup | roll
  | inNum | inChar | outNum | outChar
  deriving DecidableEq, Repr, Inhabited

namespace Operation

/-- All operations, by hue step and then by lightness step. -/
def all : List Operation :=
  [push, pop, add, sub, mul, div, mod, not, greater, pointer, switch, dup, roll,
    inNum, inChar, outNum, outChar]

/-- The hue step and the lightness step that stand for an operation. -/
def delta : Operation → Int × Int
  | push => (0, 1)
  | pop => (0, 2)
  | add => (1, 0)
  | sub => (1, 1)
  | mul => (1, 2)
  | div => (2, 0)
  | mod => (2, 1)
  | not => (2, 2)
  | greater => (3, 0)
  | pointer => (3, 1)
  | switch => (3, 2)
  | dup => (4, 0)
  | roll => (4, 1)
  | inNum => (4, 2)
  | inChar => (5, 0)
  | outNum => (5, 1)
  | outChar => (5, 2)

/-- The operation that a step stands for; no step stands for none. -/
def ofDelta? (step : Int × Int) : Option Operation := all.find? (·.delta = step)

/-- The written name of an operation. -/
def name : Operation → String
  | push => "push"
  | pop => "pop"
  | add => "add"
  | sub => "sub"
  | mul => "mul"
  | div => "div"
  | mod => "mod"
  | not => "not"
  | greater => "greater"
  | pointer => "pointer"
  | switch => "switch"
  | dup => "dup"
  | roll => "roll"
  | inNum => "in_num"
  | inChar => "in_char"
  | outNum => "out_num"
  | outChar => "out_char"

/-- The operation of a written name. -/
def ofName? (text : String) : Option Operation := all.find? (·.name = text)

/-- The list of operations is complete. -/
theorem mem_all (op : Operation) : op ∈ all := by cases op <;> decide

/-- Decoding an operation's step gives the operation back. -/
theorem ofDelta?_delta (op : Operation) : ofDelta? op.delta = some op := by cases op <;> decide

/-- Reading an operation's name gives the operation back. -/
theorem ofName?_name (op : Operation) : ofName? op.name = some op := by cases op <;> decide

end Operation

end BrainPiet
