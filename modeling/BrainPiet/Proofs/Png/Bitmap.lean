import BrainPiet.Png.Bitmap
import Mathlib.Data.Nat.Basic

/-!
# Bitmaps by their pixels

A bitmap is given by its sides and its pixels, and enlarging it repeats each pixel.
-/

namespace BrainPiet.Bitmap


variable {w h x y : Nat}

private theorem index_lt (hx : x < w) (hy : y < h) : y * w + x < w * h :=
  calc y * w + x < y * w + w := by omega
    _ = (y + 1) * w := (Nat.succ_mul y w).symm
    _ ≤ h * w := Nat.mul_le_mul_right w hy
    _ = w * h := Nat.mul_comm h w

/-- A bitmap has the colours it is made of. -/
theorem pixel_ofPixels (colour : Nat → Nat → Rgb) (hx : x < w) (hy : y < h) :
    (ofPixels w h colour).pixel x y = colour x y := by
  have hcolumn : (y * w + x) % w = x := by rw [Nat.mul_add_mod_self_right, Nat.mod_eq_of_lt hx]
  have hrow : (y * w + x) / w = y := by
    rw [Nat.mul_comm, Nat.mul_add_div (by omega), Nat.div_eq_of_lt hx, Nat.add_zero]
  simp only [pixel, ofPixels, Array.getElem?_ofFn, dif_pos (index_lt hx hy), hcolumn, hrow,
    Option.getD_some]

/-- Bitmaps with the same sides and the same colours are the same. -/
theorem eq_of_pixel {b b' : Bitmap} (hw : b.width = b'.width) (hh : b.height = b'.height)
    (h : ∀ x y, x < b.width → y < b.height → b.pixel x y = b'.pixel x y) : b = b' := by
  obtain ⟨w, height, pixels, hsize⟩ := b
  obtain ⟨w', height', pixels', hsize'⟩ := b'
  obtain rfl : w = w' := hw
  obtain rfl : height = height' := hh
  have hpixels : pixels = pixels' := by
    apply Array.ext
    · rw [hsize, hsize']
    · intro i hi hi'
      have hpos : 0 < w := by
        rcases Nat.eq_zero_or_pos w with rfl | hpos
        · rw [hsize, Nat.zero_mul] at hi
          cases hi
        · exact hpos
      have hy : i / w < height := Nat.div_lt_of_lt_mul (by rwa [hsize] at hi)
      have hindex : i / w * w + i % w = i := by rw [Nat.mul_comm, Nat.div_add_mod]
      have hpixel := h (i % w) (i / w) (Nat.mod_lt i hpos) hy
      simpa [pixel, hindex, hi, hi'] using hpixel
  subst hpixels
  rfl

/-- When a side is enlarged, each pixel is repeated. -/
theorem nearest_mul {side n : Nat} (hside : 0 < side) (i : Nat) :
    nearest side (side * n) i = i / n := by
  have hparts : 2 * (side * n) = 2 * n * side := by
    rw [Nat.mul_comm side n, Nat.mul_assoc]
  rw [nearest, hparts, Nat.mul_div_mul_right _ _ hside, ← Nat.div_div_eq_div_mul,
    Nat.mul_add_div (by omega)]
  rfl

end BrainPiet.Bitmap
