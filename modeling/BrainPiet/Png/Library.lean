import BrainPiet.Imaging
import BrainPiet.Png.Decode
import BrainPiet.Text.Quoted

/-!
# A library for picture files

The imaging library whose images are bitmaps and whose files are those of `encode`.
-/

namespace BrainPiet.Png

/-- A bitmap of the given pixels, on black ground. -/
def make (width height : Nat) (pixels : List Rgb) : Bitmap :=
  let given := pixels.toArray
  .ofPixels width height fun x y ↦ given[y * width + x]?.getD .black

/-- A bitmap with other sides. -/
def resize (b : Bitmap) (width height : Nat) : Except ImagingFault Bitmap :=
  if width = 0 ∨ height = 0 then .error ⟨"ValueError", "height and width must be > 0", false⟩
  else .ok (b.resize width height)

/-- The file of a bitmap. -/
def save (b : Bitmap) : Except ImagingFault (List UInt8) :=
  if b.width = 0 ∨ b.height = 0 then .error ⟨"ValueError", "cannot write empty image", false⟩
  else .ok (encode .colour b).data.toList

/-- The bitmap in a file. -/
def read (path : Phrase) (data : List UInt8) : Except ImagingFault Bitmap :=
  match decode? ⟨data.toArray⟩ with
  | some b => .ok b
  | none =>
    .error ⟨"UnidentifiedImageError", "cannot identify image file " ++ Text.quotedPhrase path, true⟩

/-- The library. -/
def library : Imaging where
  Image := Bitmap
  make := fun width height pixels ↦ .ok (make width height pixels)
  resize := resize
  width := Bitmap.width
  height := Bitmap.height
  pixel := Bitmap.pixel
  save := save
  read := read

end BrainPiet.Png
