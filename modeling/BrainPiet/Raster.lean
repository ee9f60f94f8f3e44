import BrainPiet.Imaging
import BrainPiet.Setting
import BrainPiet.Translate

/-!
# From a grid to an image

A grid becomes dense rows of codels, and an imaging library makes an image of them, in which each
codel is a square of some size.
-/

namespace BrainPiet

/-- Why a picture could not be made or read. -/
inductive RasterFault
  | setting (fault : BadCodelSize)
  | library (fault : ImagingFault)
  /-- A picture has no squares of size zero. -/
  | zeroSize
  deriving DecidableEq, Repr, Inhabited

/-- The wording of each fault. -/
def RasterFault.message : RasterFault → String
  | setting fault => fault.message
  | library fault => fault.text
  | zeroSize => "integer division or modulo by zero"

namespace Grid

/-- The rows of the grid with one more row below; an unpainted cell is black. -/
def normalize (g : Grid) : List (List Rgb) :=
  (List.range (g.height + 1)).map fun (y : Nat) ↦
    (List.range g.width).map fun (x : Nat) ↦ (g.get? (x, y)).getD .black

theorem length_normalize (g : Grid) : g.normalize.length = g.height + 1 := by
  rw [normalize, List.length_map, List.length_range]

theorem length_of_mem_normalize {g : Grid} {row : List Rgb} (hrow : row ∈ g.normalize) :
    row.length = g.width := by
  obtain ⟨y, -, rfl⟩ := List.mem_map.mp hrow
  rw [List.length_map, List.length_range]

/-- The rows of a grid hold its cells on black ground, down to the row below the extent. -/
theorem getElem?_normalize_of_lt {g : Grid} {x y : Nat} (hx : x < g.width)
    (hy : y < g.height + 1) :
    g.normalize[y]?.bind (·[x]?) = some ((g.get? (x, y)).getD .black) := by
  rw [normalize, List.getElem?_map, List.getElem?_range hy, Option.map_some, Option.bind_some,
    List.getElem?_map, List.getElem?_range hx, Option.map_some]

variable (lib : Imaging)

/-- The image of a grid, each codel a square of the given size. -/
def image (g : Grid) (size : Setting) : Except RasterFault lib.Image :=
  match size.codelSize with
  | .error fault => .error (.setting fault)
  | .ok n =>
    let rows := g.normalize
    match lib.make g.width rows.length rows.flatten with
    | .error fault => .error (.library fault)
    | .ok codels =>
      if n = 1 then .ok codels
      else (lib.resize codels (g.width * n) (rows.length * n)).mapError .library

/-- The file of the image of a grid. -/
def file (g : Grid) (size : Setting) : Except RasterFault (List UInt8) := do
  (lib.save (← g.image lib size)).mapError .library

end Grid

/-- The codels of an image whose squares have the given size. No square has a negative size, squares
that are cut off are left out, and size zero is a fault. -/
def Imaging.codels (lib : Imaging) (size : Int) (image : lib.Image) :
    Except RasterFault (List (List Rgb)) :=
  if size = 0 then .error .zeroSize
  else .ok ((List.range (lib.height image / size).toNat).map fun (y : Nat) ↦
    (List.range (lib.width image / size).toNat).map fun (x : Nat) ↦
      lib.pixel image (x * size.toNat) (y * size.toNat))

end BrainPiet
