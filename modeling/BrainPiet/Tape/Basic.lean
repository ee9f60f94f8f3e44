import BrainPiet.TapeStack

/-!
# Tapes

A tape is a row of integer cells with a head on one of them. It starts as one cell that holds zero
and grows to the right by a cell of zero whenever the head moves past the last one.

`Tape.toStack` is the stack on which a machine keeps a tape: the value under the head, the head's
index plus three, the last index plus three, and the other cells from left to right.
-/

namespace BrainPiet

/-- A tape, seen from its head; the head of `left` is the cell next to it. -/
structure Tape where
  left : List Int := []
  cell : Int := 0
  right : List Int := []
  deriving DecidableEq, Repr, Inhabited

namespace Tape

/-- The index of the head. -/
def index (t : Tape) : Nat := t.left.length

/-- All cells from left to right. -/
def cells (t : Tape) : List Int := t.left.reverse ++ t.cell :: t.right

/-- The tape with another value under the head. -/
def write (t : Tape) (v : Int) : Tape := { t with cell := v }

/-- The head one cell to the right; past the last cell there is a new one that holds zero. -/
def advance (t : Tape) : Tape :=
  match t.right with
  | [] => ⟨t.cell :: t.left, 0, []⟩
  | v :: rest => ⟨t.cell :: t.left, v, rest⟩

/-- The head one cell to the left, unless it is on the first cell. -/
def retreat? (t : Tape) : Option Tape :=
  match t.left with
  | [] => none
  | v :: rest => some ⟨rest, v, t.cell :: t.right⟩

/-- The stack that holds a tape, top first. -/
def toStack (t : Tape) : List Int :=
  t.cell :: (t.left.length + 3) :: (t.left.length + t.right.length + 3) ::
    (t.left.reverse ++ t.right)

/-- The head is on one of the cells. -/
theorem index_lt_length_cells (t : Tape) : t.index < t.cells.length := by
  simp only [index, cells, List.length_append, List.length_reverse, List.length_cons]
  omega

/-- The cell under the head is the one at its index. -/
theorem getElem?_cells_index (t : Tape) : t.cells[t.index]? = some t.cell := by
  simp [index, cells]

/-- Moving on and back changes nothing but the number of cells. -/
theorem retreat?_advance (t : Tape) :
    t.advance.retreat? = some (if t.right = [] then { t with right := [0] } else t) := by
  obtain ⟨left, cell, right⟩ := t
  cases right <;> simp [advance, retreat?]

/-- Moving on keeps the cells, and adds a cell of zero at the end of the tape. -/
theorem cells_advance (t : Tape) :
    t.advance.cells = if t.right = [] then t.cells ++ [0] else t.cells := by
  obtain ⟨left, cell, right⟩ := t
  cases right <;> simp [advance, cells]

/-- Moving back keeps the cells. -/
theorem cells_of_retreat? {t u : Tape} (h : t.retreat? = some u) : u.cells = t.cells := by
  obtain ⟨left, cell, right⟩ := t
  cases left with
  | nil => simp [retreat?] at h
  | cons v rest =>
    simp only [retreat?, Option.some.injEq] at h
    subst h
    simp [cells]

end Tape

end BrainPiet
