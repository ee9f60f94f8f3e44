/-!
# Source programs

A source text is a tape program: eight symbols are instructions and every other character is a
comment. `parse` labels both brackets of a loop with the depth of that loop, counted from one, and
refuses a text whose brackets do not balance.
-/

namespace BrainPiet

/-- An instruction symbol of the tape language. -/
inductive Symbol
  | increment | decrement | advance | retreat | loopOpen | loopClose | read | write
  deriving DecidableEq, Repr, Inhabited

namespace Symbol

/-- All symbols, in the order in which they are listed for a reader. -/
def all : List Symbol :=
  [increment, decrement, advance, retreat, loopOpen, loopClose, read, write]

/-- The character of a symbol. -/
def char : Symbol → Char
  | increment => '+'
  | decrement => '-'
  | advance => '>'
  | retreat => '<'
  | loopOpen => '['
  | loopClose => ']'
  | read => ','
  | write => '.'

/-- The symbol of a character; any other character is a comment. -/
def ofChar? : Char → Option Symbol
  | '+' => some increment
  | '-' => some decrement
  | '>' => some advance
  | '<' => some retreat
  | '[' => some loopOpen
  | ']' => some loopClose
  | ',' => some read
  | '.' => some write
  | _ => none

/-- The symbol that is written by a text of exactly one character. -/
def ofText? (text : String) : Option Symbol :=
  match text.toList with
  | [c] => ofChar? c
  | _ => none

/-- What a symbol does, in a word. -/
def description : Symbol → String
  | increment => "increment"
  | decrement => "decrement"
  | advance => "advance-pointer"
  | retreat => "retreat-pointer"
  | loopOpen => "loop-open"
  | loopClose => "loop-close"
  | read => "read"
  | write => "write"

/-- Reading a symbol's character gives the symbol back. -/
theorem ofChar?_char (s : Symbol) : ofChar? s.char = some s := by cases s <;> rfl

end Symbol

/-- A symbol with the depth of its loop; symbols other than brackets have depth zero. -/
structure Instruction where
  symbol : Symbol
  depth : Nat := 0
  deriving DecidableEq, Repr, Inhabited

/-- Why a source text was refused, and where. -/
structure Malformed where
  reason : String
  offset : Option Int := none
  deriving DecidableEq, Repr, Inhabited

namespace Malformed

/-- A closing bracket with no loop to close. -/
def unmatchedClose (offset : Nat) : Malformed := ⟨"Unmatched `]`", some offset⟩

/-- The text ended inside a loop; the offset is that of the innermost one. -/
def unclosed (count offset : Nat) : Malformed := ⟨toString count ++ " unclosed `[`", some offset⟩

/-- The reason, followed by the offset if there is one. -/
def message (m : Malformed) : String :=
  match m.offset with
  | none => m.reason
  | some offset => m.reason ++ " (at offset " ++ toString offset ++ ")"

end Malformed

namespace Source

/-- The instructions of a text that starts at `offset`, inside loops that were opened at the
offsets `opened`, the innermost first. -/
def scan : (offset : Nat) → (opened : List Nat) → List Char → Except Malformed (List Instruction)
  | _, [], [] => .ok []
  | _, last :: outer, [] => .error (.unclosed (outer.length + 1) last)
  | offset, opened, c :: rest =>
    match Symbol.ofChar? c with
    | none => scan (offset + 1) opened rest
    | some .loopOpen =>
      (scan (offset + 1) (offset :: opened) rest).map (⟨.loopOpen, opened.length + 1⟩ :: ·)
    | some .loopClose =>
      match opened with
      | [] => .error (.unmatchedClose offset)
      | _ :: outer => (scan (offset + 1) outer rest).map (⟨.loopClose, outer.length + 1⟩ :: ·)
    | some symbol => (scan (offset + 1) opened rest).map (⟨symbol, 0⟩ :: ·)

/-- The instructions of a source text. -/
def parse (text : String) : Except Malformed (List Instruction) := scan 0 [] text.toList

/-- The depth of the deepest loop, zero if there is none. -/
def maxDepth (code : List Instruction) : Nat := (code.map (·.depth)).foldl max 0

end Source

end BrainPiet
