import BrainPiet.Proofs.Drawing.Lasting
import BrainPiet.Proofs.Drawing.Program
import BrainPiet.Raster

/-!
# The extent of a grid

The extent of a grid is no larger than its cells need: whatever was drawn, some painted cell touches
the last column of the extent and some touches the last row. So it can be told from the painted cells
alone how wide and how high a grid is.
-/

namespace BrainPiet

namespace Grid

variable {g : Grid}

/-- The last column and the last row of the extent have painted cells. -/
structure Tight (g : Grid) : Prop where
  width : 0 < g.width → ∃ p k, g.get? p = some k ∧ p.1 + 1 = g.width
  height : 0 < g.height → ∃ p k, g.get? p = some k ∧ p.2 + 1 = g.height

theorem tight_empty : ({} : Grid).Tight :=
  ⟨fun hw ↦ absurd hw (Nat.lt_irrefl 0), fun hh ↦ absurd hh (Nat.lt_irrefl 0)⟩

private theorem exists_paint {P : Pos → Prop} (hp : ∃ p k, g.get? p = some k ∧ P p) (x y : Int) (c : Rgb)
    (w h : Int) : ∃ p k, (g.paint x y c w h).get? p = some k ∧ P p := by
  obtain ⟨p, k, hk, hP⟩ := hp
  by_cases hin : p ∈ rectangle x y w h
  · exact ⟨p, c, by rw [get?_paint, if_pos hin], hP⟩
  · exact ⟨p, k, by rw [get?_paint, if_neg hin, hk], hP⟩

/-- Painting moves the far corner no further than to the rectangle. -/
theorem Tight.paint (ht : g.Tight) (x y : Int) (c : Rgb) (w h : Int) :
    (g.paint x y c w h).Tight := by
  by_cases hpos : 0 < w ∧ 0 < h
  · have hwidth : (g.paint x y c w h).width = max g.width (x + w).toNat := by
      rw [Grid.paint, if_pos hpos]
    have hheight : (g.paint x y c w h).height = max g.height (y + h).toNat := by
      rw [Grid.paint, if_pos hpos]
    have hcorner : (g.paint x y c w h).get? (x + w - 1, y + h - 1) = some c := by
      rw [get?_paint, if_pos]
      rw [mem_rectangle]
      simp only
      omega
    constructor
    · intro hw
      by_cases hle : g.width ≤ (x + w).toNat
      · exact ⟨_, c, hcorner, by simp only; omega⟩
      · rw [hwidth, Nat.max_eq_left (by omega)]
        exact exists_paint (ht.width (by omega)) x y c w h
    · intro hh
      by_cases hle : g.height ≤ (y + h).toNat
      · exact ⟨_, c, hcorner, by simp only; omega⟩
      · rw [hheight, Nat.max_eq_left (by omega)]
        exact exists_paint (ht.height (by omega)) x y c w h
  · have hwidth : (g.paint x y c w h).width = g.width := by
      rw [Grid.paint, if_neg hpos]
    have hheight : (g.paint x y c w h).height = g.height := by
      rw [Grid.paint, if_neg hpos]
    constructor
    · intro hw
      rw [hwidth] at hw ⊢
      exact exists_paint (ht.width hw) x y c w h
    · intro hh
      rw [hheight] at hh ⊢
      exact exists_paint (ht.height hh) x y c w h

/-- A side of the extent is known from a bound on the painted cells that one of them reaches. -/
theorem side_eq {coordinate : Pos → Int} {side n : Nat}
    (hin : ∀ p k, g.get? p = some k → coordinate p < side)
    (htouch : 0 < side → ∃ p k, g.get? p = some k ∧ coordinate p + 1 = side)
    (hlt : ∀ p k, g.get? p = some k → coordinate p < n)
    (hlast : ∃ p k, g.get? p = some k ∧ coordinate p + 1 = n) : side = n := by
  obtain ⟨p, k, hk, hp⟩ := hlast
  have hle := hin p k hk
  by_cases hpos : 0 < side
  · obtain ⟨q, l, hl, hq⟩ := htouch hpos
    have := hlt q l hl
    omega
  · omega

/-- A painted cell of the extent is found in the rows of the grid. -/
theorem getElem?_normalize {p : Pos} {k : Rgb} (hk : g.get? p = some k) (hx : 0 ≤ p.1)
    (hx' : p.1 < g.width) (hy : 0 ≤ p.2) (hy' : p.2 < g.height) :
    g.normalize[p.2.toNat]?.bind (·[p.1.toNat]?) = some k := by
  have hpos : ((p.1.toNat : Int), (p.2.toNat : Int)) = p := by
    rw [Int.toNat_of_nonneg hx, Int.toNat_of_nonneg hy]
  rw [getElem?_normalize_of_lt (by omega) (by omega), hpos, hk]
  rfl

end Grid

/-- No drawing extends the extent beyond the painted cells. -/
theorem lasting_tight : Session.Lasting fun st st' ↦ st.grid.Tight → st'.grid.Tight where
  refl _ ht := ht
  trans h h' ht := h' (h ht)
  paint _ x y c w h ht := ht.paint x y c w h
  move _ _ _ ht := ht
  recolour _ _ ht := ht

/-- The grid of a program has the extent that its cells need. -/
theorem Drawing.tight_of_program {code : List Instruction} {deepest : Int} {g : Grid}
    {last : Session} (h : program code { maxDepth := deepest } = .ok g last) : g.Tight := by
  have htight := within_program lasting_tight (fun _ _ ht ↦ ht) code _ _ _ h Grid.tight_empty
  rw [program_eq] at h
  obtain ⟨_, _, -, h⟩ := exists_of_bind_ok h
  obtain ⟨_, _, -, h⟩ := exists_of_bind_ok h
  obtain ⟨_, st, -, h⟩ := exists_of_bind_ok h
  obtain ⟨-, rfl, rfl⟩ := eq_of_finish h
  exact htight

end BrainPiet
