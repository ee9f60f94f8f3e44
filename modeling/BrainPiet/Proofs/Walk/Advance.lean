import BrainPiet.Proofs.Walk.Block

/-!
# The two tracks of `advance`

Behind its test the tile of `advance` forks. The upper track appends a cell, the lower one takes up
the next cell, and both end in one column. The tracks touch, and no two codels that touch have the
same shade.
-/

namespace BrainPiet

open Template (laneRow)

/-- The blocks of the upper track. -/
def growLane : List Stretch := growCode.map Stretch.ofEmission

/-- The blocks of the lower track. -/
def stepLane : List Stretch := stepCode.map Stretch.ofEmission

/-- The bars of a track: its blocks and one more codel. -/
def trackBars (s : Shade) (lane : List Stretch) : List Bar :=
  Stretch.bars s lane ++ [⟨1, Stretch.shadeAfter s lane⟩]

private theorem lane_of_track {view : Pos → Codel} {x y : Int} {s : Shade} {lane : List Stretch}
    (hsound : ∀ b ∈ lane, b.Sound) (hlast : (lane.flatMap (·.heights)).getLast? = some 1)
    (hshow : Shows view x y (trackBars s lane))
    (habove : ∀ (i : Nat) (b : Bar), (trackBars s lane)[i]? = some b →
      view (x + i, y - 1) ≠ .shade b.shade)
    (hbelow : ∀ (i : Nat) (b : Bar), (trackBars s lane)[i]? = some b →
      view (x + i, y + b.height) ≠ .shade b.shade)
    (hlow : ∀ (i : Nat) (b : Bar), (trackBars s lane)[i]? = some b → ∀ b' ∈ trackBars s lane,
      ∀ j : Nat, b.height ≤ j → j < b'.height → ∀ t, view (x + i, y + j) ≠ .shade t)
    (hbefore : ∀ (j : Nat) t, view (x - 1, y + j) ≠ .shade t)
    (hafter : ∀ t, view (x + Stretch.width lane + 1, y) ≠ .shade t) :
    Lane view y x s lane ∧
      Patch view (Stretch.shadeAfter s lane) (comb (x + Stretch.width lane) y [1]) := by
  have hlen := Stretch.length_bars s lane
  have hleft {i : Nat} {b : Bar} (hi : (Stretch.bars s lane)[i]? = some b) :
      (trackBars s lane)[i]? = some b := by
    rw [trackBars, List.getElem?_append_left (List.getElem?_eq_some_iff.mp hi).1, hi]
  have hend : (trackBars s lane)[Stretch.width lane]? = some ⟨1, Stretch.shadeAfter s lane⟩ := by
    rw [trackBars, List.getElem?_append_right (by omega), hlen, Nat.sub_self]
    rfl
  have hview : view (x + Stretch.width lane, y) = .shade (Stretch.shadeAfter s lane) := by
    have hcodel := hshow _ _ hend 0 Nat.one_pos
    rw [Int.natCast_zero, Int.add_zero] at hcodel
    exact hcodel
  -- the last bar has one codel and another shade than the codel behind it
  obtain ⟨b, hb, hone⟩ : ∃ b, (Stretch.bars s lane).getLast? = some b ∧ b.height = 1 := by
    rw [← Stretch.map_height_bars s, List.getLast?_map] at hlast
    exact Option.map_eq_some_iff.mp hlast
  obtain ⟨op, hop⟩ := Stretch.exists_step_of_getLast? hsound hb
  have hbars : (Stretch.bars s lane)[Stretch.width lane - 1]? = some b := by
    rw [← hlen, ← List.getLast?_eq_getElem?]
    exact hb
  have hpos : 0 < Stretch.width lane := by
    have := (List.getElem?_eq_some_iff.mp hbars).1
    omega
  constructor
  · have hshow' : Shows view x y (Stretch.bars s lane) := fun i b hi ↦ hshow i b (hleft hi)
    apply lane_of_framed hsound hshow' _ hview
    apply Framed.of_low hshow'
    · exact fun i b hi ↦ habove i b (hleft hi)
    · exact fun i b hi ↦ hbelow i b (hleft hi)
    · exact fun i b hi b' hb' ↦ hlow i b (hleft hi) b' (List.mem_append_left _ hb')
    · exact fun b _ j _ ↦ hbefore j b.shade
    · intro b' hb' j hj
      rw [hlen, hbars, Option.some.injEq] at hb'
      subst hb'
      obtain rfl : j = 0 := by omega
      rw [hop] at hview
      rw [hlen, Int.natCast_zero, Int.add_zero]
      exact Codel.ne_shade_of_ne hview (Shade.step_ne b.shade op)
  · apply patch_codel hview (habove _ _ hend) (hbelow _ _ hend) _ (hafter _)
    have hcodel := hshow _ _ (hleft hbars) 0 (by omega)
    have hx : x + (Stretch.width lane : Int) - 1 = x + (Stretch.width lane - 1 : Nat) := by omega
    rw [Int.natCast_zero, Int.add_zero] at hcodel
    rw [hx, hop]
    exact Codel.ne_shade_of_ne hcodel (Shade.step_ne b.shade op).symm

/-- The columns of the upper track and of the column where both tracks end. -/
def growColumns : List Column := (trackBars ⟨0, 0⟩ growLane).map Bar.column ++
  [⟨1, .white⟩, ⟨2, Shade.rgb ⟨5, 2⟩⟩, ⟨1, .white⟩]

/-- The columns of the lower track. -/
def stepColumns : List Column := (trackBars ⟨1, 0⟩ stepLane).map Bar.column ++ [⟨1, .white⟩]

private theorem tracks_differ : ∀ i < 8, ∃ b ∈ (trackBars ⟨0, 0⟩ growLane)[i]?,
    ∃ b' ∈ (trackBars ⟨1, 0⟩ stepLane)[i]?,
      b.height = 1 ∧ 0 < b'.height ∧ b'.height ≤ 2 ∧ b.shade ≠ b'.shade := by
  decide

/-- What is seen of a tile of `advance` behind its test. -/
structure AdvanceShown (view : Pos → Codel) (x : Int) (t : Shade) : Prop where
  fork : Patch view t (comb (x + 34) laneRow [2])
  gap : ∀ y, y = laneRow ∨ y = laneRow + 1 → view (x + 35, y) = .white
  grow : Lane view laneRow (x + 36) ⟨0, 0⟩ growLane
  growEnd : Patch view ⟨0, 0⟩ (comb (x + 36 + 7) laneRow [1])
  step : Lane view (laneRow + 1) (x + 36) ⟨1, 0⟩ stepLane
  stepEnd : Patch view ⟨5, 2⟩ (comb (x + 36 + 7) (laneRow + 1) [1])
  below : view (x + 36 + 5, laneRow + 2) = .black
  ends : ∀ y, y = laneRow ∨ y = laneRow + 1 → view (x + 44, y) = .white
  join : Patch view ⟨5, 2⟩ (comb (x + 45) laneRow [2])
  behind : view (x + 46, laneRow) = .white

namespace Cursor.Shown

variable {D n : Nat} {view : Pos → Codel} {c : Cursor}

private theorem behind_advance (rows : Nat) (t : Shade) :
    Symbol.advance.behind rows t = [⟨2, t.rgb⟩, ⟨2, .white⟩] ++ growColumns := by
  have hcolumns : Stroke.row ⟨0, 0⟩ Template.advanceGrow ++
      Stroke.row (Stroke.rowShade ⟨1, 0⟩ Template.advanceLow) Template.advanceJoin =
        growColumns := by decide
  rw [Symbol.behind, List.append_assoc, hcolumns]

private theorem below_advance (rows : Nat) (s : Shade) :
    (Symbol.advance.tile rows s).below = [⟨36, 1, stepColumns⟩] := by
  have hlow : Stroke.row ⟨1, 0⟩ Template.advanceLow = stepColumns := by decide
  have hshade : Stroke.rowShade s (Template.advanceTest ++ [.recolour ⟨1, 0⟩]) = ⟨1, 0⟩ := by
    rw [Stroke.rowShade_append]
    rfl
  have hlen : (Stroke.row s Template.advanceTest).length = 36 := by
    rw [Stroke.length_row]
    decide
  rw [Symbol.tile, Tile.fork, hshade, hlow, hlen]

private theorem width_advance : Stretch.width Symbol.advance.blocks = 34 := by decide

private theorem upper_advance {s : Shade} :
    (Instruction.tile D s ⟨.advance, n⟩).upper[34]? =
        some ⟨2, (Stretch.shadeAfter s Symbol.advance.blocks).rgb⟩ ∧
      (Instruction.tile D s ⟨.advance, n⟩).upper[35]? = some ⟨2, .white⟩ ∧
        ∀ (j : Nat) (col : Column), growColumns[j]? = some col →
          (Instruction.tile D s ⟨.advance, n⟩).upper[36 + j]? = some col := by
  have hget {j : Nat} {col : Column}
      (hj : ([⟨2, (Stretch.shadeAfter s Symbol.advance.blocks).rgb⟩, ⟨2, .white⟩] ++
        growColumns)[j]? = some col) :
      (Instruction.tile D s ⟨.advance, n⟩).upper[34 + j]? = some col := by
    rw [← behind_advance (loopRows D n)] at hj
    rw [← width_advance]
    exact Instruction.getElem?_upper ⟨.advance, n⟩ hj
  refine ⟨hget (j := 0) rfl, hget (j := 1) rfl, ?_⟩
  intro j col hj
  have hcol := hget (j := j + 2) hj
  rw [Nat.add_comm j 2, ← Nat.add_assoc] at hcol
  exact hcol

private theorem shelf_advance {s : Shade} {x : Int} {j : Nat} (hj : j < 36 ∨ 45 ≤ j) (z : Int) :
    Shelf.cell x (Instruction.tile D s ⟨.advance, n⟩).below (x + j, z) = none := by
  have hlen : stepColumns.length = 9 := rfl
  have hout : Column.cell (x + (36 : Nat)) (laneRow + (1 : Nat)) stepColumns (x + j, z) = none := by
    apply Column.cell_outside
    rw [hlen]
    simp only
    omega
  rw [Instruction.tile, below_advance, Shelf.cell, hout]
  rfl

private theorem paints_grow (h : c.Shown D view ⟨.advance, n⟩) :
    Paints view (c.x + 36) laneRow growColumns := by
  intro j col hj k hk
  rw [← h.upper _ _ (upper_advance.2.2 j col hj) k hk]
  exact congrArg view (Prod.ext (by simp only; omega) rfl)

private theorem paints_step (h : c.Shown D view ⟨.advance, n⟩) :
    Paints view (c.x + 36) (laneRow + 1) stepColumns ∧
      ∀ (j : Nat) (col : Column), stepColumns[j]? = some col →
        ∀ z, laneRow + 1 + col.height ≤ z → view (c.x + 36 + j, z) = .black ∨
          (view (c.x + 36 + j, z) = .white ∧ laneRow + 2 < z) := by
  have hb := below_advance (loopRows D n) c.shade
  -- the columns of the upper track have one codel each
  have hone : ∀ k < 9, ∃ col ∈ growColumns[k]?, col.height ≤ 1 := by decide
  have hcover (k : Nat) (col : Column) (hk : k < stepColumns.length)
      (hcol : (Instruction.tile D c.shade ⟨.advance, n⟩).upper[36 + k]? = some col) :
      col.height ≤ 1 := by
    obtain ⟨col', hmem, hle⟩ := hone k hk
    rw [upper_advance.2.2 k col' hmem, Option.some.injEq] at hcol
    rw [← hcol]
    exact hle
  constructor
  · exact h.shelf hb hcover
  · intro j col hj z hz
    exact h.under_shelf hb hcover hj hz

private theorem under_advance (h : c.Shown D view ⟨.advance, n⟩) {j : Nat} (hj : j < 36 ∨ 45 ≤ j)
    {col : Column} (hcol : (Instruction.tile D c.shade ⟨.advance, n⟩).upper[j]? = some col) {z : Int}
    (hz : laneRow + col.height ≤ z) (s : Shade) : view (c.x + j, z) ≠ .shade s :=
  h.under_ne hcol hz (shelf_advance hj z) s

private theorem gap_advance (h : c.Shown D view ⟨.advance, n⟩) :
    (∀ y, y = laneRow ∨ y = laneRow + 1 → view (c.x + 35, y) = .white) ∧
      ∀ z, laneRow ≤ z → ∀ s, view (c.x + 35, z) ≠ .shade s := by
  have hcol := (upper_advance (D := D) (n := n) (s := c.shade)).2.1
  have hwhite (y : Int) (hy : y = laneRow ∨ y = laneRow + 1) : view (c.x + 35, y) = .white := by
    rcases hy with rfl | rfl
    · exact h.upper 35 _ hcol 0 (by decide)
    · exact h.upper 35 _ hcol 1 (by decide)
  refine ⟨hwhite, ?_⟩
  intro z hz s
  by_cases hrow : z = laneRow ∨ z = laneRow + 1
  · exact Codel.ne_shade_of_white (hwhite z hrow)
  · exact under_advance h (.inl (by decide)) hcol (by simp only; omega) s

private theorem shows_tracks (h : c.Shown D view ⟨.advance, n⟩) :
    Shows view (c.x + 36) laneRow (trackBars ⟨0, 0⟩ growLane) ∧
      Shows view (c.x + 36) (laneRow + 1) (trackBars ⟨1, 0⟩ stepLane) := by
  have hgrow := h.paints_grow
  have hstep := h.paints_step.1
  rw [growColumns] at hgrow
  rw [stepColumns] at hstep
  exact ⟨hgrow.left.shows (by decide), hstep.left.shows (by decide)⟩

private theorem ends_advance (h : c.Shown D view ⟨.advance, n⟩) (y : Int)
    (hy : y = laneRow ∨ y = laneRow + 1) : view (c.x + 44, y) = .white := by
  have hx : c.x + 44 = c.x + 36 + (8 : Nat) := by omega
  have hy0 (z : Int) : z = z + (0 : Nat) := (Int.add_zero z).symm
  rcases hy with rfl | rfl
  · rw [hx, hy0 laneRow]
    exact h.paints_grow 8 ⟨1, .white⟩ rfl 0 Nat.one_pos
  · rw [hx, hy0 (laneRow + 1)]
    exact h.paints_step.1 8 ⟨1, .white⟩ rfl 0 Nat.one_pos

private theorem lane_grow (h : c.Shown D view ⟨.advance, n⟩) :
    Lane view laneRow (c.x + 36) ⟨0, 0⟩ growLane ∧
      Patch view ⟨0, 0⟩ (comb (c.x + 36 + 7) laneRow [1]) := by
  obtain ⟨hgrow, hstep⟩ := h.shows_tracks
  have hget {i : Nat} {b : Bar} (hb : (trackBars ⟨0, 0⟩ growLane)[i]? = some b) :
      i < 8 ∧ b.height = 1 ∧ view (c.x + 36 + i, laneRow + 1) ≠ .shade b.shade := by
    have hlt : i < 8 := (List.getElem?_eq_some_iff.mp hb).1
    obtain ⟨b₁, hb₁, b₂, hb₂, hone, hpos, -, hne⟩ := tracks_differ i hlt
    obtain rfl : b₁ = b := Option.some.inj (hb₁.symm.trans hb)
    have hview := hstep i b₂ hb₂ 0 hpos
    rw [Int.natCast_zero, Int.add_zero] at hview
    exact ⟨hlt, hone, Codel.ne_shade_of_ne hview hne.symm⟩
  apply lane_of_track (by decide) (by decide) hgrow
  · intro i b hb
    have hx : c.x + 36 + (i : Int) = c.x + (36 + i : Nat) := by omega
    have hwidth : 45 ≤ (Instruction.tile D c.shade ⟨.advance, n⟩).width :=
      Nat.le_of_lt (List.getElem?_eq_some_iff.mp (upper_advance.2.2 9 _ rfl)).1
    rw [hx]
    exact Codel.ne_shade_of_black (h.above (by have := (hget hb).1; omega))
  · intro i b hb
    obtain ⟨-, hone, hne⟩ := hget hb
    rw [hone]
    exact hne
  · intro i b hb b' hb' j hj hj'
    obtain ⟨i', hi'⟩ := List.mem_iff_getElem?.mp hb'
    have hone := (hget hb).2.1
    have hone' := (hget hi').2.1
    omega
  · intro j t
    have hx : c.x + 36 - 1 = c.x + 35 := by omega
    rw [hx]
    exact h.gap_advance.2 _ (by omega) t
  · intro t
    have hx : c.x + 36 + (Stretch.width growLane : Int) + 1 = c.x + 44 := by
      have hwidth : Stretch.width growLane = 7 := by decide
      omega
    rw [hx]
    exact Codel.ne_shade_of_white (h.ends_advance _ (.inl rfl))

private theorem lane_step (h : c.Shown D view ⟨.advance, n⟩) :
    Lane view (laneRow + 1) (c.x + 36) ⟨1, 0⟩ stepLane ∧
      Patch view ⟨5, 2⟩ (comb (c.x + 36 + 7) (laneRow + 1) [1]) := by
  obtain ⟨hgrow, hstep⟩ := h.shows_tracks
  have hget {i : Nat} {b : Bar} (hb : (trackBars ⟨1, 0⟩ stepLane)[i]? = some b) :
      view (c.x + 36 + i, laneRow) ≠ .shade b.shade := by
    have hlt : i < 8 := (List.getElem?_eq_some_iff.mp hb).1
    obtain ⟨b₁, hb₁, b₂, hb₂, hone, -, -, hne⟩ := tracks_differ i hlt
    obtain rfl : b₂ = b := Option.some.inj (hb₂.symm.trans hb)
    have hview := hgrow i b₁ hb₁ 0 (by omega)
    rw [Int.natCast_zero, Int.add_zero] at hview
    exact Codel.ne_shade_of_ne hview hne
  -- below a bar nothing has a shade
  have hunder {i : Nat} {b : Bar} (hb : (trackBars ⟨1, 0⟩ stepLane)[i]? = some b) (j : Nat)
      (hj : b.height ≤ j) (t : Shade) : view (c.x + 36 + i, laneRow + 1 + j) ≠ .shade t := by
    have hcol : stepColumns[i]? = some b.column := by
      have hlt := (List.getElem?_eq_some_iff.mp hb).1
      rw [stepColumns, List.getElem?_append_left (by rw [List.length_map]; exact hlt),
        List.getElem?_map, hb]
      rfl
    have hrow : laneRow + 1 + (b.column.height : Int) ≤ laneRow + 1 + j := by
      simp only [Bar.column]
      omega
    rcases h.paints_step.2 i _ hcol _ hrow with hblack | ⟨hwhite, -⟩
    · exact Codel.ne_shade_of_black hblack
    · exact Codel.ne_shade_of_white hwhite
  apply lane_of_track (by decide) (by decide) hstep
  · intro i b hb
    rw [Int.add_sub_cancel]
    exact hget hb
  · exact fun i b hb ↦ hunder hb b.height (Nat.le_refl _) _
  · exact fun i b hb b' _ j hj _ t ↦ hunder hb j hj t
  · intro j t
    have hx : c.x + 36 - 1 = c.x + 35 := by omega
    rw [hx]
    exact h.gap_advance.2 _ (by omega) t
  · intro t
    have hx : c.x + 36 + (Stretch.width stepLane : Int) + 1 = c.x + 44 := by
      have hwidth : Stretch.width stepLane = 7 := by decide
      omega
    rw [hx]
    exact Codel.ne_shade_of_white (h.ends_advance _ (.inr rfl))

private theorem fork_advance (h : c.Shown D view ⟨.advance, n⟩) :
    Patch view (Stretch.shadeAfter c.shade Symbol.advance.blocks) (comb (c.x + 34) laneRow [2]) := by
  have hcol := (upper_advance (D := D) (n := n) (s := c.shade)).1
  have hpal := Stretch.inPalette_shadeAfter h.palette Symbol.advance.blocks
  apply patch_column Nat.two_pos
  · intro j hj
    rw [← Shade.ofColour_rgb hpal]
    exact h.upper 34 _ hcol j hj
  · exact h.above_ne hcol _
  · exact h.under_advance (.inl (by decide)) hcol (Int.le_refl _) _
  · intro j _
    have hbefore := h.before_behind (show Symbol.advance.turn = [⟨[1], .switch⟩] from rfl)
      (show laneRow ≤ laneRow + (j : Int) by omega)
    rw [show (⟨.advance, n⟩ : Instruction).symbol = .advance from rfl, width_advance] at hbefore
    exact hbefore
  · intro j _
    have hx : c.x + 34 + 1 = c.x + 35 := by omega
    rw [hx]
    exact h.gap_advance.2 _ (by omega) _

private theorem join_advance (h : c.Shown D view ⟨.advance, n⟩) :
    Patch view ⟨5, 2⟩ (comb (c.x + 45) laneRow [2]) ∧ view (c.x + 46, laneRow) = .white := by
  have hcol := (upper_advance (D := D) (n := n) (s := c.shade)).2.2 9 _ rfl
  have hend := (upper_advance (D := D) (n := n) (s := c.shade)).2.2 10 _ rfl
  have hwhite : view (c.x + 46, laneRow) = .white := by
    have hview := h.upper 46 _ hend 0 Nat.one_pos
    rw [Int.natCast_zero, Int.add_zero] at hview
    exact hview
  refine ⟨?_, hwhite⟩
  apply patch_column Nat.two_pos
  · intro j hj
    rw [← Shade.ofColour_rgb (s := ⟨5, 2⟩) (by decide)]
    exact h.upper 45 _ hcol j hj
  · exact h.above_ne hcol _
  · exact h.under_advance (.inr (by decide)) hcol (Int.le_refl _) _
  · intro j hj
    have hx : c.x + 45 - 1 = c.x + 44 := by omega
    rw [hx]
    exact Codel.ne_shade_of_white (h.ends_advance _ (by omega))
  · intro j hj
    have hx : c.x + 45 + 1 = c.x + 46 := by omega
    rw [hx]
    cases j with
    | zero =>
      rw [Int.natCast_zero, Int.add_zero]
      exact Codel.ne_shade_of_white hwhite
    | succ j => exact h.under_advance (.inr (by decide)) hend (by simp only; omega) _

/-- A tile of `advance` is seen with both tracks. -/
theorem advance (h : c.Shown D view ⟨.advance, n⟩) :
    AdvanceShown view c.x (Stretch.shadeAfter c.shade Symbol.advance.blocks) where
  fork := h.fork_advance
  gap := h.gap_advance.1
  grow := h.lane_grow.1
  growEnd := h.lane_grow.2
  step := h.lane_step.1
  stepEnd := h.lane_step.2
  below := by
    rcases h.paints_step.2 5 ⟨1, Shade.rgb ⟨0, 0⟩⟩ rfl (laneRow + 2) (by decide) with
      hblack | ⟨-, hrow⟩
    · exact hblack
    · omega
  ends := h.ends_advance
  join := h.join_advance.1
  behind := h.join_advance.2

end Cursor.Shown

namespace Picture

variable {p : Picture} {view : Pos → Codel} {x : Int} {t : Shade} {m : Machine}

/-- The upper track executes its operations. -/
theorem Renders.path_grow (hr : p.Renders view) (h : AdvanceShown view x t)
    (hm : 3 ≤ m.stack.length) :
    p.Path 2 ([none] ++ growLane.map (some ·.op) ++ [none])
      ⟨m.facing .right .left, (x + 34, laneRow)⟩
      ⟨(m.afterAll growCode).facing .right .left, (x + 45, laneRow)⟩ := by
  have hcode : growLane.map Stretch.emission = growCode := by decide
  obtain ⟨hholds, hheight⟩ := (Machine.holds_tracks hm).1
  have henter : p.Treads 2 ⟨m.facing .right .left, (x + 34, laneRow)⟩ none
      ⟨m.facing .right .left, (x + 36, laneRow)⟩ := by
    apply hr.treads_right h.fork Nat.two_pos (by decide) (mem_comb_top _ _ Nat.two_pos) (by omega) rfl
      (by omega)
    · intro z hz hz'
      rw [show z = x + 35 by omega]
      exact h.gap _ (.inl rfl)
    · exact h.grow.1.shade _ (mem_comb_top _ _ Nat.one_pos)
  have htrack : p.Path 2 (growLane.map (some ·.op)) ⟨m.facing .right .left, (x + 36, laneRow)⟩
      ⟨(m.afterAll growCode).facing .right .left, (x + 36 + 7, laneRow)⟩ := by
    rw [← hcode] at hholds ⊢
    exact hr.path_lane (by decide) (by decide) h.grow hholds
  have hleave : p.Treads 2 ⟨(m.afterAll growCode).facing .right .left, (x + 36 + 7, laneRow)⟩ none
      ⟨(m.afterAll growCode).facing .right .left, (x + 45, laneRow)⟩ := by
    apply hr.treads_right h.growEnd Nat.one_pos (by decide) (mem_comb_top _ _ Nat.one_pos) (by omega) rfl
      (by omega)
    · intro z hz hz'
      rw [show z = x + 44 by omega]
      exact h.ends _ (.inl rfl)
    · exact h.join.shade _ (mem_comb_top _ _ Nat.two_pos)
  exact (henter.path.trans htrack).trans hleave.path

private def stepFirst : List Stretch := [⟨[1], .push⟩, ⟨[1], .add⟩, ⟨[1], .dup⟩, ⟨[1], .push⟩]

private def stepRest : List Stretch := [⟨[1], .sub⟩, ⟨[1], .roll⟩]

/-- The lower track executes its operations. At its block of two codels the walk comes from the
right to the left side of its lane. -/
theorem Renders.path_step (hr : p.Renders view) (h : AdvanceShown view x t)
    (hm : 3 ≤ m.stack.length) :
    p.Path 2 ([none] ++ stepLane.map (some ·.op) ++ [none])
      ⟨m.facing .right .right, (x + 34, laneRow)⟩
      ⟨(m.afterAll stepCode).facing .right .left, (x + 45, laneRow + 1)⟩ := by
  have hcode : stepCode = stepFirst.map Stretch.emission ++ ⟨.push, 2⟩ ::
      stepRest.map Stretch.emission := by decide
  have hlane : stepLane = stepFirst ++ ⟨[2], .push⟩ :: stepRest := by decide
  obtain ⟨hholds, hheight⟩ := (Machine.holds_tracks hm).2
  have hfirst := h.step
  rw [hcode, Machine.holds_append] at hholds
  obtain ⟨hholds, htwo, hholds'⟩ := hholds
  rw [hlane, lane_append] at hfirst
  obtain ⟨hfirst, hcolumn, hnext, hrest⟩ := hfirst
  have henter : p.Treads 2 ⟨m.facing .right .right, (x + 34, laneRow)⟩ none
      ⟨m.facing .right .right, (x + 36, laneRow + 1)⟩ := by
    apply hr.treads_right h.fork Nat.two_pos (by decide) (mem_comb_top _ _ Nat.two_pos) (by omega)
      (by decide) (by omega)
    · intro z hz hz'
      rw [show z = x + 35 by omega]
      exact h.gap _ (.inr rfl)
    · exact h.step.1.shade _ (mem_comb_top _ _ Nat.one_pos)
  have htrack := hr.path_lane (by decide) (show ∀ b ∈ stepFirst, b.Sound ∧ b.op.Steady ∧
    b.Leads .right by decide) hfirst hholds
  have hbelow : view (x + 36 + Stretch.width stepFirst + 1, laneRow + 1 + (2 : Nat) - 1) =
      .black := by
    rw [← h.below]
    exact congrArg view (Prod.ext (by simp only [show Stretch.width stepFirst = 4 by decide]; omega)
      rfl)
  have hside := hr.treads_column_op hcolumn Nat.two_pos (mem_comb_top _ _ Nat.two_pos)
    (clear_of_row (show (4 : Int) ≤ laneRow + 1 by decide)) htwo hbelow hnext
    (Machine.execute_facing (show Operation.push.Steady by decide) _ _ _ _)
  have htrack' := hr.path_lane (by decide)
    (show ∀ b ∈ stepRest, b.Sound ∧ b.op.Steady ∧ b.Leads .left by decide) hrest hholds'
  have hleave : p.Treads 2 ⟨(m.afterAll stepCode).facing .right .left, (x + 36 + 7, laneRow + 1)⟩
      none ⟨(m.afterAll stepCode).facing .right .left, (x + 45, laneRow + 1)⟩ := by
    apply hr.treads_right h.stepEnd Nat.one_pos (by decide) (mem_comb_top _ _ Nat.one_pos) (by omega) rfl
      (by omega)
    · intro z hz hz'
      rw [show z = x + 44 by omega]
      exact h.ends _ (.inr rfl)
    · exact h.join.shade _ (mem_comb_row (x + 45) laneRow Nat.one_lt_two)
  have hafter : m.afterAll stepCode = (((m.afterAll (stepFirst.map Stretch.emission)).after
      .push 2).afterAll (stepRest.map Stretch.emission)) := by
    rw [hcode, Machine.afterAll_append, Machine.afterAll_cons]
  have hend : x + 36 + 7 = x + 36 + Stretch.width stepFirst + ([2] : List Nat).length +
      Stretch.width stepRest := by
    rw [show Stretch.width stepFirst = 4 by decide, show Stretch.width stepRest = 2 by decide]
    simp only [List.length_singleton]
    omega
  rw [hlane, List.map_append, List.map_cons]
  rw [hafter, hend] at hleave
  rw [hafter]
  exact (henter.path.trans (htrack.trans (hside.path.trans htrack'))).trans hleave.path

/-- A walk passes through a tile of `advance`, on the track that the test tells. -/
theorem Renders.path_advance {D n : Nat} {c : Cursor} (hr : p.Renders view)
    (h : c.Shown D view ⟨.advance, n⟩) (hm : 3 ≤ m.stack.length) :
    ∃ ops, ops ≠ [] ∧ p.Path 2 ops ⟨m.facing .right .left, (c.x, laneRow)⟩
      ⟨(m.act .advance).facing .right .left, ((c.next D ⟨.advance, n⟩).x, laneRow)⟩ := by
  obtain ⟨v, s, hs, hv, hthree⟩ := Machine.exists_advance hm
  have hact : m.act .advance = ((m.afterAll Symbol.advance.code).setStack s).afterAll
      (if v = 0 then growCode else stepCode) := by
    unfold Machine.act
    simp only [Machine.fork, hs]
  have htest := hr.path_blocks h rfl hm (Machine.execute_switch hs hv 1 .right)
  have hm' : 3 ≤ ((m.afterAll Symbol.advance.code).setStack s).stack.length := hthree
  have hseen := h.advance
  have hwidth : Stretch.width (Instruction.symbol ⟨.advance, n⟩).blocks = 34 :=
    Cursor.Shown.width_advance
  have hx : (c.next D ⟨.advance, n⟩).x = c.x + 47 := by
    have hlen (rows : Nat) (t : Shade) : (Symbol.advance.behind rows t).length = 13 := rfl
    rw [Cursor.x_next, hlen, hwidth]
    omega
  have hnext := h.after
  rw [hact]
  rw [hx] at hnext ⊢
  generalize (m.afterAll Symbol.advance.code).setStack s = m' at *
  rw [hwidth] at htest
  -- both tracks end in one column, which is left along the lane
  have hleave {m'' : Machine} (hm'' : 2 ≤ m''.stack.length) {q : Pos}
      (hq : q ∈ comb (c.x + 45) laneRow [2]) : p.Treads 2 ⟨m''.facing .right .left, q⟩ none
        ⟨m''.facing .right .left, (c.x + 47, laneRow)⟩ := by
    apply hr.treads_right hseen.join Nat.two_pos (by decide) hq hm'' rfl (by omega) _ hnext
    intro z hz hz'
    rw [show z = c.x + 46 by omega]
    exact hseen.behind
  obtain ⟨⟨-, hgrow⟩, -, hstep⟩ := Machine.holds_tracks hm'
  by_cases hzero : v = 0
  · rw [if_pos hzero] at htest ⊢
    refine ⟨_, ?_, (htest.trans (hr.path_grow hseen hm')).trans
      (hleave (by omega) (mem_comb_top _ _ Nat.two_pos)).path⟩
    exact List.append_ne_nil_of_right_ne_nil _ (List.cons_ne_nil _ _)
  · rw [if_neg hzero] at htest ⊢
    refine ⟨_, ?_, (htest.trans (hr.path_step hseen hm')).trans
      (hleave (by omega) (mem_comb_row (c.x + 45) laneRow Nat.one_lt_two)).path⟩
    exact List.append_ne_nil_of_right_ne_nil _ (List.cons_ne_nil _ _)

end Picture

end BrainPiet
