/-!
# Colours

A colour is a triple of eight-bit channels. Black and white are the two colours that are not shades.
-/

namespace BrainPiet

/-- A colour by its red, green and blue channels. -/
structure Rgb where
  red : UInt8
  green : UInt8
  blue : UInt8
  deriving DecidableEq, Repr, Inhabited

namespace Rgb

/-- White: free space, crossed without executing anything. -/
def white : Rgb := ⟨0xFF, 0xFF, 0xFF⟩

/-- Black: an obstacle, and what lies outside every picture. -/
def black : Rgb := ⟨0, 0, 0⟩

/-- The grey of a given brightness. -/
def grey (level : UInt8) : Rgb := ⟨level, level, level⟩

end Rgb

end BrainPiet
