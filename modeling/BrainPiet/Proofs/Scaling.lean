import BrainPiet.Proofs.Picture.Blocks
import BrainPiet.Proofs.Png.Library
import BrainPiet.Raster
import BrainPiet.Run

/-!
# Codels as squares of pixels

A picture is drawn with each codel as a square of pixels. Whatever the size of the squares is, the
codels that are read off the pixels are those of the grid, so the size does not matter for a run.
The imaging library has to be faithful for the sides of the picture.
-/

namespace BrainPiet

/-- A positive integer is a codel size. -/
theorem Setting.codelSize_int {n : Nat} (hn : 1 ≤ n) : (Setting.int n).codelSize = .ok n := by
  cases n with
  | zero => cases hn
  | succ n => rfl

namespace Grid

variable {lib : Imaging} {g : Grid} {n : Nat} {image : lib.Image}

/-- The colour of the codel at a column and a row. -/
def colourAt (g : Grid) (x y : Nat) : Rgb := (g.normalize[y]?.bind (·[x]?)).getD .black

/-- Each codel of the grid is a square of pixels of the image, and there are no other pixels. -/
def ShownBy (g : Grid) (lib : Imaging) (image : lib.Image) (n : Nat) : Prop :=
  lib.Shows image (g.width * n) ((g.height + 1) * n) fun x y ↦ g.colourAt (x / n) (y / n)

private theorem length_flatten_normalize (g : Grid) :
    g.normalize.flatten.length = g.width * (g.height + 1) := by
  have hlengths : g.normalize.map List.length = List.replicate (g.height + 1) g.width := by
    rw [List.eq_replicate_iff, List.length_map, length_normalize]
    refine ⟨rfl, ?_⟩
    intro k hk
    obtain ⟨row, hrow, rfl⟩ := List.mem_map.mp hk
    exact length_of_mem_normalize hrow
  rw [List.length_flatten, hlengths, List.sum_replicate_nat, Nat.mul_comm]

private theorem exists_make (hlib : lib.Faithful g.width (g.height + 1) n) :
    ∃ image, lib.make g.width g.normalize.length g.normalize.flatten = .ok image ∧
      lib.Shows image g.width (g.height + 1) g.colourAt := by
  obtain ⟨image, hmake, hwidth, hheight, hpixel⟩ :=
    hlib.make g.normalize.flatten g.length_flatten_normalize
  refine ⟨image, by rwa [length_normalize], hwidth, hheight, ?_⟩
  intro x y hx hy
  have hget := Png.getElem?_flatMap_of_length
    (fun row (hrow : row ∈ g.normalize) ↦ length_of_mem_normalize hrow) y hx
  rw [List.flatMap_id'] at hget
  rw [hpixel x y hx hy, hget, colourAt]

/-- The image of a grid is made, and shows its codels. -/
theorem exists_image (hn : 1 ≤ n) (hlib : lib.Faithful g.width (g.height + 1) n) :
    ∃ image, g.image lib (.int n) = .ok image ∧ g.ShownBy lib image n := by
  obtain ⟨codels, hmake, hshows⟩ := exists_make hlib
  simp only [Grid.image, Setting.codelSize_int hn, hmake]
  by_cases hone : n = 1
  · subst hone
    refine ⟨codels, rfl, ?_⟩
    simpa only [ShownBy, Nat.mul_one, Nat.div_one] using hshows
  · obtain ⟨larger, hresize, hlarger⟩ := hlib.enlarge codels _ hshows
    rw [if_neg hone, length_normalize, hresize]
    exact ⟨larger, rfl, hlarger⟩

/-- So is its file, and what is read from that file shows the codels too. -/
theorem exists_file (hn : 1 ≤ n) (hlib : lib.Faithful g.width (g.height + 1) n) :
    ∃ data, g.file lib (.int n) = .ok data ∧
      ∀ path, ∃ opened, lib.read path data = .ok opened ∧ g.ShownBy lib opened n := by
  obtain ⟨image, himage, hshown⟩ := exists_image hn hlib
  obtain ⟨data, hsave, hread⟩ := hlib.store image _ hshown
  refine ⟨data, ?_, hread⟩
  rw [file, himage]
  change (lib.save image).mapError _ = _
  rw [hsave]
  rfl

/-- The codels are read off an image that shows them. -/
theorem ShownBy.codels_eq (h : g.ShownBy lib image n) (hn : 1 ≤ n) :
    lib.codels n image = .ok g.normalize := by
  have hne : (n : Int) ≠ 0 := by omega
  have hwidth : ((lib.width image : Int) / n).toNat = g.width := by
    rw [h.width, ← Int.natCast_ediv, Nat.mul_div_cancel _ hn, Int.toNat_natCast]
  have hheight : ((lib.height image : Int) / n).toNat = g.height + 1 := by
    rw [h.height, ← Int.natCast_ediv, Nat.mul_div_cancel _ hn, Int.toNat_natCast]
  rw [Imaging.codels, if_neg hne, hwidth, hheight, Int.toNat_natCast, normalize]
  congr 1
  apply List.map_congr_left
  intro y hy
  apply List.map_congr_left
  intro x hx
  have hx' := List.mem_range.mp hx
  have hy' := List.mem_range.mp hy
  rw [h.pixel _ _ (Nat.mul_lt_mul_of_pos_right hx' hn) (Nat.mul_lt_mul_of_pos_right hy' hn),
    Nat.mul_div_cancel _ hn, Nat.mul_div_cancel _ hn, colourAt, getElem?_normalize_of_lt hx' hy',
    Option.getD_some]

end Grid

/-- What is read off an image is loaded as given codels are, so all runs are the same. -/
def Imaging.LoadsAs (lib : Imaging) (image : lib.Image) (n : Nat) (codels : List (List Rgb)) :
    Prop :=
  ∃ rows, lib.codels n image = .ok rows ∧ ∀ init init', ∃ p q,
    Picture.load rows init = .ok () p ∧ Picture.load codels init' = .ok () q ∧
    p.canvas = q.canvas ∧ p.parts = q.parts ∧ ∀ input limit,
      p.run input limit = q.run input limit ∧ p.traceRun input limit = q.traceRun input limit

/-- An image that shows the codels of a grid is loaded as they are. -/
theorem Grid.ShownBy.loadsAs {lib : Imaging} {g : Grid} {n : Nat} {image : lib.Image}
    (h : g.ShownBy lib image n) (hn : 1 ≤ n) : lib.LoadsAs image n g.normalize := by
  refine ⟨g.normalize, h.codels_eq hn, ?_⟩
  intro init init'
  have hrows : Rows.Rectangular g.normalize := ⟨g.width, fun _ ↦ length_of_mem_normalize⟩
  obtain ⟨picture, hload, -⟩ := Picture.exists_renders hrows {}
  exact ⟨picture, picture, hload, hload, rfl, rfl, fun _ _ ↦ ⟨rfl, rfl⟩⟩

/-- The codels of a grid are drawn as squares of any size, so that each pixel shows the codel whose
square it is in. What is read off these pixels, or off those in the file of the picture, is loaded
as the codels are, so all runs are the same. -/
theorem codel_size_is_immaterial (lib : Imaging) (g : Grid) {n : Nat} (hn : 1 ≤ n)
    (hlib : lib.Faithful g.width (g.height + 1) n) :
    ∃ image data, g.image lib (.int n) = .ok image ∧ g.file lib (.int n) = .ok data ∧
      g.ShownBy lib image n ∧ lib.LoadsAs image n g.normalize ∧
      ∀ path, ∃ opened, lib.read path data = .ok opened ∧ g.ShownBy lib opened n ∧
        lib.LoadsAs opened n g.normalize := by
  obtain ⟨image, himage, hshown⟩ := g.exists_image hn hlib
  obtain ⟨data, hfile, hread⟩ := g.exists_file hn hlib
  refine ⟨image, data, himage, hfile, hshown, hshown.loadsAs hn, ?_⟩
  intro path
  obtain ⟨opened, hopened, hagain⟩ := hread path
  exact ⟨opened, hopened, hagain, hagain.loadsAs hn⟩

/-- A grid of two codels side by side, in squares of three by three pixels: the last pixel of the
first row shows the second codel, in the file as well. -/
theorem codel_size_is_immaterial_pair :
    let lib := Png.library
    let g := (Grid.paint {} 0 0 ⟨0xFF, 0x00, 0x00⟩ 1 1).paint 1 0 ⟨0xC0, 0x00, 0x00⟩ 1 1
    lib.Faithful g.width (g.height + 1) 3 ∧ ∃ data image, g.file lib (.int 3) = .ok data ∧
      lib.read [] data = .ok image ∧ lib.width image = 6 ∧ lib.height image = 6 ∧
      lib.pixel image 5 0 = ⟨0xC0, 0x00, 0x00⟩ ∧ lib.LoadsAs image 3 g.normalize := by
  intro lib g
  have hlib : lib.Faithful g.width (g.height + 1) 3 :=
    Png.faithful_library (by decide) (by decide) (by decide) (by decide) (by decide)
  obtain ⟨-, data, -, hfile, -, -, hread⟩ := codel_size_is_immaterial lib g (by decide) hlib
  obtain ⟨image, himage, hshown, hloads⟩ := hread []
  have hpixel : lib.pixel image 5 0 = g.colourAt 1 0 := hshown.pixel 5 0 (by decide) (by decide)
  have hcodel : g.colourAt 1 0 = ⟨0xC0, 0x00, 0x00⟩ := by
    have hget : g.get? ((1 : Nat), (0 : Nat)) = some ⟨0xC0, 0x00, 0x00⟩ := by
      rw [Grid.get?_paint]
      rfl
    rw [Grid.colourAt, Grid.getElem?_normalize_of_lt (by decide) (by decide), hget]
    rfl
  exact ⟨hlib, data, image, hfile, himage, hshown.width, hshown.height, hpixel.trans hcodel, hloads⟩

end BrainPiet
