import BrainPiet.Colour
import BrainPiet.Text.Letter

/-!
# Imaging libraries

Pictures are drawn, stored and opened by an imaging library. The programs here work with any library;
what they rely on is that a library is faithful.
-/

namespace BrainPiet

/-- A fault of a library, by its name and its wording. -/
structure ImagingFault where
  name : String
  text : String
  /-- The fault is an error of the system. -/
  isSystem : Bool := false
  deriving DecidableEq, Repr, Inhabited

/-- An imaging library. -/
structure Imaging where
  /-- Images with three channels of eight bits. -/
  Image : Type
  /-- A new image, with its pixels row by row. -/
  make : (width height : Nat) → List Rgb → Except ImagingFault Image
  /-- The image with other sides; each pixel is taken over from the nearest one. -/
  resize : Image → (width height : Nat) → Except ImagingFault Image
  width : Image → Nat
  height : Image → Nat
  /-- The colour at a column and a row. -/
  pixel : Image → Nat → Nat → Rgb
  /-- The file of an image. -/
  save : Image → Except ImagingFault (List UInt8)
  /-- The image in a file, whose name is part of what a fault says. -/
  read : Phrase → List UInt8 → Except ImagingFault Image

namespace Imaging

/-- The image has these sides and these colours. -/
structure Shows (lib : Imaging) (image : lib.Image) (w h : Nat) (colour : Nat → Nat → Rgb) :
    Prop where
  width : lib.width image = w
  height : lib.height image = h
  pixel : ∀ x y, x < w → y < h → lib.pixel image x y = colour x y

/-- What is relied on for an image with some sides that is enlarged by a factor: it can be made of
its pixels, enlarging repeats each pixel, and the enlarged image is read from its file as it was
stored. -/
structure Faithful (lib : Imaging) (w h n : Nat) : Prop where
  make : ∀ pixels : List Rgb, pixels.length = w * h → ∃ image, lib.make w h pixels = .ok image ∧
    lib.Shows image w h fun x y ↦ pixels[y * w + x]?.getD .black
  enlarge : ∀ image colour, lib.Shows image w h colour →
    ∃ larger, lib.resize image (w * n) (h * n) = .ok larger ∧
      lib.Shows larger (w * n) (h * n) fun x y ↦ colour (x / n) (y / n)
  store : ∀ image colour, lib.Shows image (w * n) (h * n) colour →
    ∃ data, lib.save image = .ok data ∧ ∀ path, ∃ opened, lib.read path data = .ok opened ∧
      lib.Shows opened (w * n) (h * n) colour

end Imaging

end BrainPiet
