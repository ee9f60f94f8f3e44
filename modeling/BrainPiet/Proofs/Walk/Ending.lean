import BrainPiet.Proofs.Walk.Tile

/-!
# The end of the lane

The lane ends in a column of three codels with black all around. A walk that comes to the end of the
lane halts there, and it halts with the stack that it came with.
-/

namespace BrainPiet

open Template (laneRow)

/-- What is seen of the epilogue. -/
structure EndShown (view : Pos → Codel) (c : Cursor) : Prop where
  last : Patch view c.shade (comb c.x laneRow [1])
  white : view (c.x + 1, laneRow) = .white
  pillar : Patch view ⟨0, 0⟩ (comb (c.x + 2) (laneRow - 1) [3])
  closed : ∀ d side, view (Pos.toward (c.x + 2, endRow (laneRow - 1) 3 d side) d) = .black

namespace Drawn

variable {D : Nat} {code : List Instruction} {g : Grid}

private theorem epilogueCell_eq (c : Cursor) (x y : Int) :
    epilogueCell c (x, y) =
      if x = c.x + 2 ∧ 4 ≤ y ∧ y < 7 then some (Shade.rgb ⟨0, 0⟩)
      else if x = c.x ∧ y = laneRow then some c.shade.rgb
      else if x = c.x + 1 ∧ y = laneRow then some .white
      else none := by
  simp only [epilogueCell, Column.cell, laneRow]
  grind

/-- From the end of the lane on the epilogue is seen. -/
theorem codel_end (h : Drawn D code g) {x y : Int}
    (hx : ((Cursor.start code).run D code).x ≤ x) :
    g.codel (x, y) =
      if x = ((Cursor.start code).run D code).x + 2 ∧ 4 ≤ y ∧ y < 7 then .shade ⟨0, 0⟩
      else if x = ((Cursor.start code).run D code).x ∧ y = laneRow then
        .shade ((Cursor.start code).run D code).shade
      else if x = ((Cursor.start code).run D code).x + 1 ∧ y = laneRow then .white
      else .black := by
  have hpal := Cursor.inPalette_run D (Cursor.inPalette_start code) code
  have hget := h.epilogue (x, y) hx
  rw [epilogueCell_eq] at hget
  generalize (Cursor.start code).run D code = c at *
  split_ifs with hpillar hlast hwhite
  · rw [if_pos hpillar] at hget
    exact Grid.codel_of_some hget
  · rw [if_neg hpillar, if_pos hlast] at hget
    exact (Grid.codel_of_some hget).trans (Shade.ofColour_rgb hpal)
  · rw [if_neg hpillar, if_neg hlast, if_pos hwhite] at hget
    exact Grid.codel_of_some hget
  · rw [if_neg hpillar, if_neg hlast, if_neg hwhite] at hget
    exact Grid.codel_of_none hget

/-- The last column of a finished grid has three codels. -/
theorem last_column (h : Drawn D code g) :
    (∀ q k, g.get? q = some k → q.1 ≤ ((Cursor.start code).run D code).x + 2) ∧
      ∀ y, (g.get? (((Cursor.start code).run D code).x + 2, y)).isSome = true ↔ 4 ≤ y ∧ y ≤ 6 := by
  have hget {x y : Int} := h.epilogue (x, y)
  generalize (Cursor.start code).run D code = c at *
  constructor
  · rintro ⟨x, y⟩ k hk
    simp only
    by_contra hx
    rw [hget (by simp only; omega), epilogueCell_eq, if_neg (by omega), if_neg (by omega),
      if_neg (by omega)] at hk
    cases hk
  · intro y
    rw [hget (by simp only; omega), epilogueCell_eq]
    by_cases hy : 4 ≤ y ∧ y ≤ 6
    · rw [if_pos ⟨rfl, by omega⟩]
      exact iff_of_true rfl hy
    · rw [if_neg (by omega), if_neg (by omega), if_neg (by omega)]
      exact iff_of_false Bool.false_ne_true hy

/-- A finished grid shows its epilogue. -/
theorem ending (h : Drawn D code g) : EndShown g.codel ((Cursor.start code).run D code) := by
  have hview {x y : Int} := h.codel_end (x := x) (y := y)
  have hbefore := h.before (List.append_nil code).symm
  generalize (Cursor.start code).run D code = c at *
  have hblack {x y : Int} (hx : c.x ≤ x) (h1 : ¬(x = c.x + 2 ∧ 4 ≤ y ∧ y < 7))
      (h2 : ¬((x = c.x ∨ x = c.x + 1) ∧ y = laneRow)) : g.codel (x, y) = .black := by
    rw [hview hx, if_neg h1, if_neg fun h ↦ h2 ⟨.inl h.1, h.2⟩,
      if_neg fun h ↦ h2 ⟨.inr h.1, h.2⟩]
  have hwhite : g.codel (c.x + 1, laneRow) = .white := by
    rw [hview (by omega), if_neg (by omega), if_neg (by omega), if_pos ⟨rfl, rfl⟩]
  have hlast : g.codel (c.x, laneRow) = .shade c.shade := by
    rw [hview (by omega), if_neg (by omega), if_pos ⟨rfl, rfl⟩]
  have hpillar {y : Int} (hy : 4 ≤ y ∧ y < 7) : g.codel (c.x + 2, y) = .shade ⟨0, 0⟩ := by
    rw [hview (by omega), if_pos ⟨rfl, hy⟩]
  constructor
  case last =>
    apply patch_codel hlast
    · exact Codel.ne_shade_of_black (hblack (by omega) (by omega) (by omega))
    · exact Codel.ne_shade_of_black (hblack (by omega) (by omega) (by omega))
    · exact hbefore _
    · exact Codel.ne_shade_of_white hwhite
  case white => exact hwhite
  case pillar =>
    apply patch_column (by decide)
    · intro j hj
      exact hpillar (by simp only [laneRow]; omega)
    · exact Codel.ne_shade_of_black (hblack (by omega) (by simp only [laneRow]; omega) (by omega))
    · exact Codel.ne_shade_of_black (hblack (by omega) (by simp only [laneRow]; omega) (by omega))
    · intro j hj
      rw [show c.x + 2 - 1 = c.x + 1 by omega]
      by_cases hrow : laneRow - 1 + (j : Int) = laneRow
      · rw [hrow]
        exact Codel.ne_shade_of_white hwhite
      · exact Codel.ne_shade_of_black (hblack (by omega) (by omega) (by omega))
    · intro j hj
      exact Codel.ne_shade_of_black (hblack (by omega) (by omega) (by omega))
  case closed =>
    intro d side
    cases d <;> cases side <;> apply hblack <;>
      simp only [Direction.dx, Direction.dy, endRow, laneRow] <;> omega

end Drawn

namespace Picture

variable {p : Picture} {view : Pos → Codel} {c : Cursor} {m : Machine}

/-- A walk at the end of the lane comes to the last column. -/
theorem Renders.treads_last (hr : p.Renders view) (h : EndShown view c) (hm : 2 ≤ m.stack.length) :
    p.Treads 2 ⟨m.facing .right .left, (c.x, laneRow)⟩ none
      ⟨m.facing .right .left, (c.x + 2, laneRow)⟩ := by
  apply hr.treads_right h.last Nat.one_pos (by decide) (mem_comb_top _ _ Nat.one_pos) hm rfl
    (by omega)
  · intro z hz hz'
    rw [show z = c.x + 1 by omega]
    exact h.white
  · exact h.pillar.shade _ (mem_comb_row (c.x + 2) (laneRow - 1) (show 1 < 3 by decide))

/-- A walk in the last column halts, and slides over nothing. -/
theorem Renders.step_last (hr : p.Renders view) (h : EndShown view c) (m : Machine) (d : Direction)
    (side : Side) : p.step (c.x + 2, laneRow) (m.facing d side) = .ok ⟨none, none⟩ (m.facing d side) ∧
      ∀ q, ¬p.Crosses (c.x + 2, laneRow) (m.facing d side) q := by
  have hmem := mem_comb_row (c.x + 2) (laneRow - 1) (show 1 < 3 by decide)
  have hedge (d : Direction) (side : Side) :=
    edge_column (x := c.x + 2) (y := laneRow - 1) (show 0 < 3 by decide) d side
  exact ⟨hr.step_halt h.pillar hmem hedge h.closed m d side,
    hr.not_crosses_halt h.pillar hmem hedge h.closed m d side⟩

end Picture

end BrainPiet
