import BrainPiet.Png.Bitmap
import BrainPiet.Png.Deflate
import BrainPiet.Png.Filter

/-!
# Writing picture files

A picture is written with eight bits for each channel. Its rows are filtered and packed, and the
packed data is divided into chunks.
-/

namespace BrainPiet.Png

/-- The bytes that every picture file starts with. -/
def signature : ByteArray := ⟨#[0x89, 0x50, 0x4E, 0x47, 0x0D, 0x0A, 0x1A, 0x0A]⟩

/-- A chunk: length, name, content, checksum. -/
def chunk (name : String) (content : ByteArray) : ByteArray :=
  let body := name.toUTF8 ++ content
  word (UInt32.ofNat content.size) ++ body ++ word (crc body)

/-- The channels that a picture is stored with. -/
inductive Channels
  /-- One channel for all three colours. -/
  | grey
  | colour
  /-- Three colours, and the same opacity for all pixels. -/
  | opacity (value : UInt8)
  deriving DecidableEq, Repr, Inhabited

namespace Channels

/-- The number that stands for the channels in a header. -/
def kind : Channels → UInt8
  | grey => 0
  | colour => 2
  | opacity _ => 6

/-- The number of channels. -/
def count : Channels → Nat
  | grey => 1
  | colour => 3
  | opacity _ => 4

/-- The bytes of a pixel. -/
def bytes (channels : Channels) (c : Rgb) : List UInt8 :=
  match channels with
  | grey => [c.red]
  | colour => [c.red, c.green, c.blue]
  | opacity value => [c.red, c.green, c.blue, value]

end Channels

/-- The fields of the header: size, bits, colour kind, packing, filters, interlacing. -/
def header (channels : Channels) (b : Bitmap) : ByteArray :=
  word (UInt32.ofNat b.width) ++ word (UInt32.ofNat b.height) ++ ⟨#[8, channels.kind, 0, 0, 0]⟩

/-- The bytes of the pixels of a row. -/
def rowBytes (channels : Channels) (b : Bitmap) (y : Nat) : Array UInt8 :=
  (b.pixels.extract (y * b.width) ((y + 1) * b.width)).flatMap fun c ↦ (channels.bytes c).toArray

/-- The packed rows of a picture. -/
def packedRows (channels : Channels) (b : Bitmap) : ByteArray :=
  deflate (filterRows channels.count (Array.replicate (b.width * channels.count) 0)
    ((List.range b.height).map (rowBytes channels b)))

/-- The most packed bytes of a chunk: enough for a row of four channels. -/
def chunkLimit (b : Bitmap) : Nat := max 65536 (4 * b.width)

/-- The file of a picture. -/
def encode (channels : Channels) (b : Bitmap) : ByteArray :=
  let packed := packedRows channels b
  let limit := chunkLimit b
  let parts := (List.range ((packed.size - 1) / limit + 1)).map fun k ↦
    chunk "IDAT" (packed.extract (k * limit) ((k + 1) * limit))
  signature ++ chunk "IHDR" (header channels b) ++ parts.foldl (· ++ ·) .empty ++
    chunk "IEND" .empty

end BrainPiet.Png
