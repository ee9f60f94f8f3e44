/-!
# Headings

A walk through a picture has a pointer and a chooser. The pointer counts quarter turns clockwise, and
the chooser picks a side relative to the direction of the pointer. Both may start at any count. A turn
brings the pointer back among the first four counts, where it always has a direction; a flip of the
chooser can be undone by another flip.
-/

namespace BrainPiet

/-- Where the walk is going. -/
inductive Direction
  | right | down | left | up
  deriving DecidableEq, Repr, Inhabited, Hashable

/-- A side, as seen along a direction. -/
inductive Side
  | left | right
  deriving DecidableEq, Repr, Inhabited, Hashable

/-- Quarter turns clockwise from the right. -/
structure Pointer where
  quarters : Int := 0
  deriving DecidableEq, Repr, Inhabited, Hashable

/-- Which end of a block's edge the walk leaves by: zero is the left one, all else is the right. -/
structure Chooser where
  count : Int := 0
  deriving DecidableEq, Repr, Inhabited, Hashable

namespace Direction

/-- The direction after some quarter turns clockwise from the right. -/
def ofQuarters (n : Int) : Direction :=
  match (n % 4).toNat with
  | 0 => right
  | 1 => down
  | 2 => left
  | _ => up

/-- One quarter turn clockwise. -/
def next : Direction → Direction
  | right => down
  | down => left
  | left => up
  | up => right

/-- The column step of a direction. -/
def dx : Direction → Int
  | right => 1
  | left => -1
  | _ => 0

/-- The row step of a direction; rows are counted downwards. -/
def dy : Direction → Int
  | down => 1
  | up => -1
  | _ => 0

/-- The written name of a direction. -/
def name : Direction → String
  | right => "right"
  | down => "down"
  | left => "left"
  | up => "up"

/-- The four directions, clockwise from the right. -/
def all : List Direction := [right, down, left, up]

/-- One quarter turn more is the next direction. -/
theorem ofQuarters_add_one (n : Int) : ofQuarters (n + 1) = (ofQuarters n).next := by
  have h : n % 4 = 0 ∨ n % 4 = 1 ∨ n % 4 = 2 ∨ n % 4 = 3 := by omega
  rcases h with h | h | h | h
  · simp [ofQuarters, h, show (n + 1) % 4 = 1 by omega, next]
  · simp [ofQuarters, h, show (n + 1) % 4 = 2 by omega, next]
  · simp [ofQuarters, h, show (n + 1) % 4 = 3 by omega, next]
  · simp [ofQuarters, h, show (n + 1) % 4 = 0 by omega, next]

end Direction

/-- The written name of a side. -/
def Side.name : Side → String
  | left => "left"
  | right => "right"

namespace Pointer

/-- The pointers that a turn can lead to, clockwise from the right. -/
def all : List Pointer := [⟨0⟩, ⟨1⟩, ⟨2⟩, ⟨3⟩]

/-- Some quarter turns clockwise; a negative number turns the other way. -/
def turn (p : Pointer) (n : Int) : Pointer := ⟨(p.quarters + n) % 4⟩

/-- Where a pointer points. Up to four counts below zero go back from the right, and all counts
further out point nowhere. -/
def direction? (p : Pointer) : Option Direction :=
  if -4 ≤ p.quarters ∧ p.quarters < 4 then some (.ofQuarters p.quarters) else none

/-- The written name of the direction. -/
def name (p : Pointer) : String := (p.direction?.map Direction.name).getD ""

/-- A turn leads to one of the four pointers. -/
theorem turn_mem_all (p : Pointer) (n : Int) : p.turn n ∈ all := by
  have h : (p.quarters + n) % 4 = 0 ∨ (p.quarters + n) % 4 = 1 ∨ (p.quarters + n) % 4 = 2 ∨
      (p.quarters + n) % 4 = 3 := by omega
  simpa [turn, all] using h

/-- Turning twice adds the quarter turns. -/
theorem turn_turn (p : Pointer) (m n : Int) : (p.turn m).turn n = p.turn (m + n) := by
  simp only [turn, mk.injEq]
  omega

/-- Each of the four pointers has a direction. -/
theorem direction?_of_mem_all {p : Pointer} (h : p ∈ all) :
    p.direction? = some (.ofQuarters p.quarters) := by
  simp only [all, List.mem_cons, List.not_mem_nil, or_false] at h
  rcases h with rfl | rfl | rfl | rfl <;> rfl

end Pointer

namespace Chooser

/-- The other side. A count other than zero and one has no other side, but a count to come back to. -/
def flip (c : Chooser) : Chooser := ⟨1 - c.count⟩

/-- The side that is chosen. -/
def side (c : Chooser) : Side := if c.count = 0 then .left else .right

/-- Flipping twice changes nothing. -/
theorem flip_flip (c : Chooser) : c.flip.flip = c := by
  obtain ⟨n⟩ := c
  simp only [flip, mk.injEq]
  omega

end Chooser

end BrainPiet
