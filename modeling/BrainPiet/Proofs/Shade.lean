import BrainPiet.Picture.Codel
import BrainPiet.Session.Column

/-!
# Shades of the palette

The shades of the palette have colours of their own, and each colour shows its shade. The step of an
operation never stays in place, and between any two shades there is the step of an operation.
-/

namespace BrainPiet

private theorem Operation.exists_delta {h l : Int} (hh : 0 ≤ h ∧ h < Shade.hues)
    (hl : 0 ≤ l ∧ l < Shade.levels) (hne : h ≠ 0 ∨ l ≠ 0) : ∃ op : Operation, op.delta = (h, l) := by
  have hall : ∀ h < Shade.hues, ∀ l < Shade.levels, h ≠ 0 ∨ l ≠ 0 →
      ∃ op ∈ all, op.delta = ((h : Int), (l : Int)) := by decide
  obtain ⟨op, -, hop⟩ := hall h.toNat (by omega) l.toNat (by omega) (by omega)
  refine ⟨op, ?_⟩
  rw [hop, Int.toNat_of_nonneg hh.1, Int.toNat_of_nonneg hl.1]

namespace Shade

/-- The colour of a shade of the palette. -/
def rgb (s : Shade) : Rgb := s.colour?.getD .black

instance : DecidablePred InPalette := fun _ ↦ inferInstanceAs (Decidable (_ ∧ _))

private theorem mem_all_of_inPalette {s : Shade} (h : s.InPalette) : s ∈ all := by
  obtain ⟨hue, lightness⟩ := s
  obtain ⟨h1, h2, h3, h4⟩ := h
  simp only [hues, levels] at h1 h2 h3 h4
  refine List.mem_flatMap.mpr ⟨lightness.toNat, List.mem_range.mpr (by simp only [levels]; omega),
    List.mem_map.mpr ⟨hue.toNat, List.mem_range.mpr (by simp only [hues]; omega), ?_⟩⟩
  simp only [mk.injEq]
  omega

/-- A shade of the palette has its colour. -/
theorem colour_of_inPalette {s : Shade} (h : s.InPalette) : s.colour = .ok s.rgb := by
  have hall : ∀ t ∈ all, t.colour? = some t.rgb := by decide
  rw [colour, hall s (mem_all_of_inPalette h)]

/-- The colour of a shade shows that shade. -/
theorem ofColour_rgb {s : Shade} (h : s.InPalette) : Codel.ofColour s.rgb = .shade s := by
  have hall : ∀ t ∈ all, Codel.ofColour t.rgb = .shade t := by decide
  exact hall s (mem_all_of_inPalette h)

/-- The colours of two shades are as different as the shades. -/
theorem rgb_ne {s t : Shade} (hs : s.InPalette) (ht : t.InPalette) (h : s ≠ t) : s.rgb ≠ t.rgb := by
  intro heq
  have hcodel := ofColour_rgb hs
  rw [heq, ofColour_rgb ht, Codel.shade.injEq] at hcodel
  exact h hcodel.symm

/-- No shade is white. -/
theorem rgb_ne_white {s : Shade} (hs : s.InPalette) : s.rgb ≠ .white := by
  intro heq
  have hcodel := ofColour_rgb hs
  rw [heq] at hcodel
  cases hcodel

/-- The step of an operation leads to another shade. -/
theorem step_ne (s : Shade) (op : Operation) : s.step op ≠ s := by
  intro h
  have hb := between_step s op
  rw [h] at hb
  simp only [between, Int.sub_self, Int.zero_emod] at hb
  cases hb

/-- A shade that a colour shows is in the palette. -/
theorem inPalette_of_ofColour? {k : Rgb} {s : Shade} (h : ofColour? k = some s) :
    s.InPalette := by
  have hall : ∀ t ∈ all, t.InPalette := by decide
  exact hall s (List.mem_of_find?_eq_some h)

/-- Two shades of the palette are a step of exactly one operation apart. -/
theorem exists_between {s t : Shade} (hs : s.InPalette) (ht : t.InPalette) (hne : t ≠ s) :
    ∃ op : Operation, op.delta = ((t.hue - s.hue) % hues, (t.lightness - s.lightness) % levels) ∧
      between s t = some op := by
  obtain ⟨hue, lightness⟩ := s
  obtain ⟨hue', lightness'⟩ := t
  simp only [InPalette, hues, levels] at hs ht
  have hcoord : ¬(hue' = hue ∧ lightness' = lightness) := by
    rintro ⟨rfl, rfl⟩
    exact hne rfl
  obtain ⟨op, hop⟩ := Operation.exists_delta (h := (hue' - hue) % hues)
    (l := (lightness' - lightness) % levels) (by simp only [hues]; omega)
    (by simp only [levels]; omega) (by simp only [hues, levels]; omega)
  refine ⟨op, hop, ?_⟩
  rw [between, ← hop]
  exact Operation.ofDelta?_delta op

end Shade

end BrainPiet
