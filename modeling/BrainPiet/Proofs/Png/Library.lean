import BrainPiet.Png.Library
import BrainPiet.Proofs.Png.File

/-!
# A faithful library

The library of picture files makes images of their pixels, repeats them when an image is enlarged,
and reads from a file the image that was stored in it.
-/

namespace BrainPiet.Png


/-- The library is faithful for all sides that a file has room for. -/
theorem faithful_library {w h n : Nat} (hw : 0 < w) (hh : 0 < h) (hn : 0 < n)
    (hwide : w * n < 2 ^ 30) (hhigh : h * n < 2 ^ 32) : library.Faithful w h n where
  make pixels hlength := by
    refine ⟨make w h pixels, rfl, rfl, rfl, ?_⟩
    intro x y hx hy
    have hpixel : (make w h pixels).pixel x y = pixels.toArray[y * w + x]?.getD .black :=
      Bitmap.pixel_ofPixels _ hx hy
    rw [List.getElem?_toArray] at hpixel
    exact hpixel
  enlarge image colour hshows := by
    obtain ⟨hwidth, hheight, hpixel⟩ := hshows
    have hw' : w * n ≠ 0 := Nat.ne_of_gt (Nat.mul_pos hw hn)
    have hh' : h * n ≠ 0 := Nat.ne_of_gt (Nat.mul_pos hh hn)
    refine ⟨image.resize (w * n) (h * n), ?_, rfl, rfl, ?_⟩
    · exact if_neg (not_or.mpr ⟨hw', hh'⟩)
    · intro x y hx hy
      have hresize : (image.resize (w * n) (h * n)).pixel x y = _ :=
        Bitmap.pixel_ofPixels _ hx hy
      have hwidth' : image.width = w := hwidth
      have hheight' : image.height = h := hheight
      rw [hwidth', hheight', Bitmap.nearest_mul hw, Bitmap.nearest_mul hh] at hresize
      rw [← hpixel (x / n) (y / n) (Nat.div_lt_of_lt_mul (by rwa [Nat.mul_comm]))
        (Nat.div_lt_of_lt_mul (by rwa [Nat.mul_comm]))]
      exact hresize
  store image colour hshows := by
    obtain ⟨hwidth, hheight, hpixel⟩ := hshows
    have hwidth' : image.width = w * n := hwidth
    have hheight' : image.height = h * n := hheight
    have hw' : 0 < image.width := hwidth' ▸ Nat.mul_pos hw hn
    have hh' : 0 < image.height := hheight' ▸ Nat.mul_pos hh hn
    have hround := decode?_encode hw' hh' (hwidth' ▸ hwide) (hheight' ▸ hhigh)
    refine ⟨(encode .colour image).data.toList, if_neg (by omega), ?_⟩
    intro path
    refine ⟨image, ?_, hwidth, hheight, hpixel⟩
    change read path _ = _
    simp only [read, Array.toArray_toList, hround]
    rfl

end BrainPiet.Png
