import BrainPiet.Colour
import BrainPiet.Operation

/-!
# Shades and the palette

A shade is a pair of a hue and a lightness. Coordinates are integers: a shade that was set by
`wrap` or `step` lies in the palette, and one that was given directly may not.

An operation is written as the step from one shade to the next: `between s (s.step op)` is `op`.
-/

namespace BrainPiet

/-- The entry at an index that counts from the front, or from the back when it is negative. -/
def signedGet? {α : Type} (xs : List α) (i : Int) : Option α :=
  if 0 ≤ i then xs[i.toNat]?
  else if 0 ≤ xs.length + i then xs[(xs.length + i).toNat]?
  else none

/-- An index has at most 64 bits with its sign. -/
def isIndexSized (i : Int) : Bool := -Int.pow 2 63 ≤ i ∧ i < Int.pow 2 63

/-- A shade by hue (red, yellow, green, cyan, blue, magenta) and lightness (light, normal, dark). -/
structure Shade where
  hue : Int := 0
  lightness : Int := 0
  deriving DecidableEq, Repr, Inhabited

namespace Shade

/-- Number of hues. -/
def hues : Nat := 6

/-- Number of lightness levels. -/
def levels : Nat := 3

/-- The colours of the palette: one row for each lightness, one column for each hue. -/
def palette : List (List Rgb) :=
  [[⟨0xFF, 0xC0, 0xC0⟩, ⟨0xFF, 0xFF, 0xC0⟩, ⟨0xC0, 0xFF, 0xC0⟩,
    ⟨0xC0, 0xFF, 0xFF⟩, ⟨0xC0, 0xC0, 0xFF⟩, ⟨0xFF, 0xC0, 0xFF⟩],
   [⟨0xFF, 0x00, 0x00⟩, ⟨0xFF, 0xFF, 0x00⟩, ⟨0x00, 0xFF, 0x00⟩,
    ⟨0x00, 0xFF, 0xFF⟩, ⟨0x00, 0x00, 0xFF⟩, ⟨0xFF, 0x00, 0xFF⟩],
   [⟨0xC0, 0x00, 0x00⟩, ⟨0xC0, 0xC0, 0x00⟩, ⟨0x00, 0xC0, 0x00⟩,
    ⟨0x00, 0xC0, 0xC0⟩, ⟨0x00, 0x00, 0xC0⟩, ⟨0xC0, 0x00, 0xC0⟩]]

/-- The eighteen shades of the palette, row by row. -/
def all : List Shade :=
  (List.range levels).flatMap fun (l : Nat) ↦ (List.range hues).map fun (h : Nat) ↦ ⟨h, l⟩

/-- The shade with both coordinates reduced to the palette. -/
def wrap (s : Shade) : Shade := ⟨s.hue % hues, s.lightness % levels⟩

/-- The colour of a shade. A negative coordinate counts from the far end of the palette. -/
def colour? (s : Shade) : Option Rgb :=
  (signedGet? palette s.lightness).bind fun row ↦ signedGet? row s.hue

/-- The coordinate to blame when a shade has no colour: the lightness, unless that is in order. -/
def strayCoordinate (s : Shade) : Int :=
  if (signedGet? palette s.lightness).isNone then s.lightness else s.hue

/-- The shade that a colour of the palette shows. -/
def ofColour? (c : Rgb) : Option Shade := all.find? (·.colour? = some c)

/-- The shade that follows when an operation is written. -/
def step (s : Shade) (op : Operation) : Shade :=
  wrap ⟨s.hue + op.delta.1, s.lightness + op.delta.2⟩

/-- The operation read off the step from one shade to another. -/
def between (src dst : Shade) : Option Operation :=
  Operation.ofDelta? ((dst.hue - src.hue) % hues, (dst.lightness - src.lightness) % levels)

/-- Both coordinates lie in the palette. -/
def InPalette (s : Shade) : Prop :=
  0 ≤ s.hue ∧ s.hue < hues ∧ 0 ≤ s.lightness ∧ s.lightness < levels

/-- Wrapping always lands in the palette. -/
theorem inPalette_wrap (s : Shade) : s.wrap.InPalette := by
  simp only [InPalette, wrap, hues, levels]
  omega

/-- Writing an operation always lands in the palette. -/
theorem inPalette_step (s : Shade) (op : Operation) : (s.step op).InPalette :=
  inPalette_wrap _

/-- A shade in the palette is left alone by wrapping. -/
theorem wrap_of_inPalette {s : Shade} (h : s.InPalette) : s.wrap = s := by
  obtain ⟨hue, lightness⟩ := s
  simp only [InPalette, wrap, hues, levels] at h ⊢
  congr 1 <;> omega

/-- The step written for an operation decodes to that operation. -/
theorem between_step (s : Shade) (op : Operation) : between s (s.step op) = some op := by
  rw [← Operation.ofDelta?_delta op]
  simp only [between, step, wrap, hues, levels]
  congr 1
  cases op <;> simp only [Operation.delta] <;> ext <;> simp only [] <;> omega

end Shade

end BrainPiet
