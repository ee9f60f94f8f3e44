import BrainPiet.Colour

/-!
# Bitmaps

A bitmap is a picture by its pixels, row by row.
-/

namespace BrainPiet

/-- A picture of some width and height. -/
structure Bitmap where
  width : Nat
  height : Nat
  pixels : Array Rgb
  size_pixels : pixels.size = width * height

namespace Bitmap

/-- The colour at a column and a row. -/
def pixel (b : Bitmap) (x y : Nat) : Rgb := b.pixels[y * b.width + x]?.getD .black

/-- The bitmap with given colours. -/
def ofPixels (width height : Nat) (colour : Nat → Nat → Rgb) : Bitmap where
  width := width
  height := height
  pixels := Array.ofFn fun (i : Fin (width * height)) ↦ colour (i % width) (i / width)
  size_pixels := Array.size_ofFn

/-- Where the middle of a pixel lies when a side is divided into other pixels. -/
def nearest (side other i : Nat) : Nat := (2 * i + 1) * side / (2 * other)

/-- The bitmap with other sides; each pixel is taken over from the nearest one. -/
def resize (b : Bitmap) (width height : Nat) : Bitmap :=
  .ofPixels width height fun x y ↦ b.pixel (nearest b.width width x) (nearest b.height height y)

end Bitmap

end BrainPiet
