import BrainPiet.Machine.Basic

/-!
# A tape kept on the stack

From the top, the stack holds the value under the head, the head's index plus three, the last index
plus three, and then the other cells from left to right. With the head on `D` of `A B C D E F` that
is `D 6 8 A B C E F`.

Each routine here is a run of operations with the sizes of their blocks.
-/

namespace BrainPiet

/-- An operation to be written, with the size of the block that it leaves. -/
structure Emission where
  op : Operation
  size : Int := 1
  deriving DecidableEq, Repr, Inhabited

namespace TapeStack

/-- Pushes any integer. A block has at least one codel, so the others are written as differences. -/
def push (n : Int) : List Emission :=
  if 0 < n then [⟨.push, n⟩]
  else if n = 0 then [⟨.push, 1⟩, ⟨.push, 1⟩, ⟨.sub, 1⟩]
  else [⟨.push, 1⟩, ⟨.push, 1 - n⟩, ⟨.sub, 1⟩]

/-- Copies the value at depth `n` to the top; the top has depth zero. -/
def pick (n : Int) : List Emission :=
  if n = 0 then [⟨.dup, 1⟩]
  else push (n + 1) ++ push (-1) ++ [⟨.roll, 1⟩, ⟨.dup, 1⟩] ++ push (n + 2) ++ push 1 ++
    [⟨.roll, 1⟩]

/-- Buries the top value at the depth named by the second one. -/
def deposit : List Emission := pick 1 ++ push 1 ++ [⟨.roll, 1⟩]

/-- Pulls up the value at the depth named by the top one. -/
def withdraw : List Emission := [⟨.dup, 1⟩] ++ push (-1) ++ [⟨.roll, 1⟩]

end TapeStack

namespace Machine

/-- Runs emissions one after the other. -/
def executeAll (code : List Emission) : EStateM NumberFault Machine Unit :=
  code.forM fun e ↦ execute e.op e.size

end Machine

end BrainPiet
