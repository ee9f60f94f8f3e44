import BrainPiet.Proofs.Drawing.View
import BrainPiet.Proofs.Walk.Column

/-!
# Tiles as a walk sees them

The columns of a tile are seen where they were painted, and around them nothing that has a shade. So
the columns from the cursor on are a lane as soon as they are the bars of blocks one after another.
-/

namespace BrainPiet

open Template (laneRow)

/-- The column that is painted for a bar. -/
def Bar.column (b : Bar) : Column := ⟨b.height, b.shade.rgb⟩

namespace Stretch

/-- The bars of blocks keep to the palette. -/
theorem inPalette_of_mem_bars {s : Shade} (hs : s.InPalette) {lane : List Stretch} {b : Bar}
    (hb : b ∈ bars s lane) : b.shade.InPalette := by
  induction lane generalizing s with
  | nil => cases hb
  | cons st lane ih =>
    rw [bars, List.mem_append] at hb
    rcases hb with hb | hb
    · obtain ⟨h, -, rfl⟩ := List.mem_map.mp hb
      exact hs
    · exact ih (Shade.inPalette_step s st.op) hb

/-- Blocks keep to the palette. -/
theorem inPalette_shadeAfter {s : Shade} (hs : s.InPalette) (lane : List Stretch) :
    (shadeAfter s lane).InPalette := by
  induction lane generalizing s with
  | nil => exact hs
  | cons st lane ih => exact ih (Shade.inPalette_step s st.op)

/-- The heights of bars do not depend on the shade. -/
theorem map_height_bars (s : Shade) (lane : List Stretch) :
    (bars s lane).map (·.height) = lane.flatMap (·.heights) := by
  induction lane generalizing s with
  | nil => rfl
  | cons st lane ih =>
    rw [bars, List.map_append, ih, List.flatMap_cons, List.map_map]
    exact congrArg (· ++ _) (List.map_id _)

/-- Blocks have as many bars as they are wide. -/
theorem length_bars (s : Shade) (lane : List Stretch) : (bars s lane).length = width lane := by
  rw [← List.length_map (·.height), map_height_bars, List.length_flatMap, width]

/-- The shade behind blocks is one step from the shade of the last bar. -/
theorem exists_step_of_getLast? {s : Shade} {lane : List Stretch} (hsound : ∀ b ∈ lane, b.Sound)
    {b : Bar} (hb : (bars s lane).getLast? = some b) : ∃ op, shadeAfter s lane = b.shade.step op := by
  induction lane generalizing s with
  | nil => cases hb
  | cons st lane ih =>
    have hrest : ∀ c ∈ lane, c.Sound := fun c hc ↦ hsound c (List.mem_cons_of_mem _ hc)
    rw [bars, List.getLast?_append] at hb
    cases hlast : (bars (s.step st.op) lane).getLast? with
    | some b' =>
      rw [hlast, Option.some_or, Option.some.injEq] at hb
      subst hb
      exact ih hrest hlast
    | none =>
      rw [hlast, Option.none_or] at hb
      obtain ⟨h, -, rfl⟩ := List.mem_map.mp (List.mem_of_getLast? hb)
      have hnil : lane = [] := by
        cases lane with
        | nil => rfl
        | cons c lane =>
          obtain ⟨h, hs, heq⟩ := List.exists_cons_of_ne_nil (hrest c List.mem_cons_self).1
          rw [List.getLast?_eq_none_iff, bars, heq] at hlast
          cases hlast
      rw [hnil]
      exact ⟨st.op, rfl⟩

theorem width_append (lane more : List Stretch) : width (lane ++ more) = width lane + width more := by
  simp [width]

end Stretch

/-- A lane of blocks one after another is two lanes. -/
theorem lane_append {view : Pos → Codel} {x y : Int} {s : Shade} {lane more : List Stretch} :
    Lane view y x s (lane ++ more) ↔ Lane view y x s lane ∧
      Lane view y (x + Stretch.width lane) (Stretch.shadeAfter s lane) more := by
  induction lane generalizing x s with
  | nil =>
    rw [Stretch.width_nil, Int.natCast_zero, Int.add_zero]
    exact (and_iff_right trivial).symm
  | cons b lane ih =>
    rw [List.cons_append, Lane, Lane, ih, Stretch.width_cons, Stretch.shadeAfter_cons,
      Int.natCast_add, ← Int.add_assoc, and_assoc, and_assoc]

/-- The columns of emissions are the bars of their blocks. -/
theorem row_code (s : Shade) (es : List Emission) :
    Stroke.row s (Stroke.code es) =
      (Stretch.bars s (es.map Stretch.ofEmission)).map Bar.column := by
  have hblock (n : Nat) (c d : Rgb) : Column.block n c =
      (Column.block n d).map fun col ↦ ⟨col.height, c⟩ := by
    simp only [Column.block, List.map_append, List.map_replicate]
    split <;> rfl
  induction es generalizing s with
  | nil => rfl
  | cons e es ih =>
    rw [Stroke.code, List.map_cons, Stroke.row, ← Stroke.code, Stroke.shadeAfter, ih, List.map_cons,
      Stretch.bars, List.map_append, Stroke.columns, hblock _ _ .black]
    simp only [Stretch.ofEmission, List.map_map]
    rfl

/-- The shade behind emissions is the one behind their blocks. -/
theorem rowShade_code (s : Shade) (es : List Emission) :
    Stroke.rowShade s (Stroke.code es) = Stretch.shadeAfter s (es.map Stretch.ofEmission) := by
  rw [Stroke.rowShade, Stroke.code, List.foldl_map, Stretch.shadeAfter, List.foldl_map]
  rfl

/-- Columns are seen from a corner on. -/
def Paints (view : Pos → Codel) (x y : Int) (cs : List Column) : Prop :=
  ∀ (i : Nat) (c : Column), cs[i]? = some c →
    ∀ j : Nat, j < c.height → view (x + i, y + j) = .ofColour c.colour

namespace Paints

variable {view : Pos → Codel} {x y : Int} {cs ds : List Column}

theorem left (h : Paints view x y (cs ++ ds)) : Paints view x y cs := by
  intro i c hi
  apply h i c
  rw [List.getElem?_append_left (List.getElem?_eq_some_iff.mp hi).1, hi]

theorem right (h : Paints view x y (cs ++ ds)) : Paints view (x + cs.length) y ds := by
  intro i c hi j hj
  have hget : (cs ++ ds)[cs.length + i]? = some c := by
    rw [List.getElem?_append_right (by omega), Nat.add_sub_cancel_left, hi]
  rw [← h _ c hget j hj]
  exact congrArg view (Prod.ext (by simp only; omega) rfl)

/-- Columns of bars show these bars. -/
theorem shows {bars : List Bar} (h : Paints view x y (bars.map Bar.column))
    (hpal : ∀ b ∈ bars, b.shade.InPalette) : Shows view x y bars := by
  intro i b hi j hj
  have hget : (bars.map Bar.column)[i]? = some b.column := by
    rw [List.getElem?_map, hi]
    rfl
  rw [← Shade.ofColour_rgb (hpal b (List.mem_of_getElem? hi))]
  exact h i _ hget j hj

end Paints

namespace Cursor.Shown

variable {D : Nat} {view : Pos → Codel} {c : Cursor} {i : Instruction}

/-- The columns along the lane are seen. -/
theorem upper (h : c.Shown D view i) :
    Paints view c.x laneRow (i.tile D c.shade).upper := by
  intro j col hj n hn
  apply h.tile
  rw [Tile.cell, Column.cell_of_getElem? hj hn]
  rfl

/-- Nothing is seen between the glyphs and the lane. -/
theorem above (h : c.Shown D view i) {j : Nat} (hj : j < (i.tile D c.shade).width) :
    view (c.x + j, laneRow - 1) = .black := by
  have hnext : (c.next D i).x = c.x + (i.tile D c.shade).width := rfl
  have hshelf (bs : List Shelf) : Shelf.cell c.x bs (c.x + j, laneRow - 1) = none := by
    induction bs with
    | nil => rfl
    | cons b bs ih =>
      rw [Shelf.cell, ih, Column.cell_outside _ (.inr (.inr (by simp only; omega)))]
      rfl
  have hdot : Grid.dotCell c.x Session.glyphTop (i.tile D c.shade).glyph (c.x + j, laneRow - 1) =
      none := (i.sound D h.palette).dotCell (Int.le_refl _)
  have hcell : (i.tile D c.shade).cell c.x (c.x + j, laneRow - 1) = none := by
    rw [Tile.cell, hshelf, hdot, Column.cell_outside _ (.inr (.inr (by simp only; omega)))]
    rfl
  rcases h.blank _ (by simp only; omega) (by simp only; omega) hcell with hblack | ⟨-, hrow⟩
  · exact hblack
  · simp only [laneRow] at hrow
    omega

/-- Above a column nothing has a shade. -/
theorem above_ne (h : c.Shown D view i) {j : Nat} {col : Column}
    (hj : (i.tile D c.shade).upper[j]? = some col) (s : Shade) :
    view (c.x + j, laneRow - 1) ≠ .shade s :=
  Codel.ne_shade_of_black (h.above (List.getElem?_eq_some_iff.mp hj).1)

/-- Nothing is seen below a column, unless there is a shelf or white far below. -/
theorem under (h : c.Shown D view i) {j : Nat} {col : Column} {z : Int}
    (hj : (i.tile D c.shade).upper[j]? = some col) (hz : laneRow + col.height ≤ z)
    (hshelf : Shelf.cell c.x (i.tile D c.shade).below (c.x + j, z) = none) :
    view (c.x + j, z) = .black ∨ (view (c.x + j, z) = .white ∧ laneRow + 2 < z) := by
  have hlt : j < (i.tile D c.shade).width := (List.getElem?_eq_some_iff.mp hj).1
  have hnext : (c.next D i).x = c.x + (i.tile D c.shade).width := rfl
  have hdot : Grid.dotCell c.x Session.glyphTop (i.tile D c.shade).glyph (c.x + j, z) = none :=
    (i.sound D h.palette).dotCell (by simp only; omega)
  apply h.blank (c.x + j, z) (by simp only; omega) (by simp only; omega)
  rw [Tile.cell, hshelf, hdot, Column.cell_below hj (.inr hz)]
  rfl

/-- Below a column nothing has a shade. -/
theorem under_ne (h : c.Shown D view i) {j : Nat} {col : Column} {z : Int}
    (hj : (i.tile D c.shade).upper[j]? = some col) (hz : laneRow + col.height ≤ z)
    (hshelf : Shelf.cell c.x (i.tile D c.shade).below (c.x + j, z) = none) (s : Shade) :
    view (c.x + j, z) ≠ .shade s := by
  rcases h.under hj hz hshelf with hblack | ⟨hwhite, -⟩
  · exact Codel.ne_shade_of_black hblack
  · exact Codel.ne_shade_of_white hwhite

private theorem cell_uncovered {cols : List Column} {x z : Int} {right down n : Nat}
    (hcover : ∀ col, cols[right + n]? = some col → col.height ≤ down) (hz : laneRow + down ≤ z) :
    Column.cell x laneRow cols (x + right + n, z) = none := by
  rw [Option.eq_none_iff_forall_ne_some]
  intro k hk
  obtain ⟨n', col, hn', hx, -, hy, -⟩ := Column.cell_eq_some.mp hk
  simp only at hx hy
  obtain rfl : n' = right + n := by omega
  have hle := hcover col hn'
  omega

/-- A shelf is seen, unless columns along the lane cover it. -/
theorem shelf (h : c.Shown D view i) {b : Shelf} (hb : (i.tile D c.shade).below = [b])
    (hcover : ∀ (n : Nat) (col : Column), n < b.columns.length →
      (i.tile D c.shade).upper[b.right + n]? = some col → col.height ≤ b.down) :
    Paints view (c.x + b.right) (laneRow + b.down) b.columns := by
  intro n col hn j hj
  have hlt : n < b.columns.length := (List.getElem?_eq_some_iff.mp hn).1
  have hupper : Column.cell c.x laneRow (i.tile D c.shade).upper
      (c.x + b.right + n, laneRow + b.down + j) = none :=
    cell_uncovered (fun col ↦ hcover n col hlt) (by omega)
  apply h.tile
  rw [Tile.cell, hupper, hb, Shelf.cell, Column.cell_of_getElem? hn hj]
  rfl

/-- Below a shelf there is nothing, unless there is white far below. -/
theorem under_shelf (h : c.Shown D view i) {b : Shelf} (hb : (i.tile D c.shade).below = [b])
    (hcover : ∀ (n : Nat) (col : Column), n < b.columns.length →
      (i.tile D c.shade).upper[b.right + n]? = some col → col.height ≤ b.down) {n : Nat}
    {col : Column} (hn : b.columns[n]? = some col) {z : Int}
    (hz : laneRow + b.down + col.height ≤ z) :
    view (c.x + b.right + n, z) = .black ∨
      (view (c.x + b.right + n, z) = .white ∧ laneRow + 2 < z) := by
  have hlt : n < b.columns.length := (List.getElem?_eq_some_iff.mp hn).1
  have hwidth := ((i.sound D h.palette).below b (by rw [hb]; exact List.mem_singleton_self b)).1
  have hnext : (c.next D i).x = c.x + (i.tile D c.shade).width := rfl
  have hupper : Column.cell c.x laneRow (i.tile D c.shade).upper (c.x + b.right + n, z) = none :=
    cell_uncovered (fun col ↦ hcover n col hlt) (by omega)
  have hdot : Grid.dotCell c.x Session.glyphTop (i.tile D c.shade).glyph
      (c.x + b.right + n, z) = none := (i.sound D h.palette).dotCell (by simp only; omega)
  apply h.blank (c.x + b.right + n, z) (by simp only; omega) (by simp only; omega)
  rw [Tile.cell, hupper, hb, Shelf.cell, Column.cell_below hn (.inr hz), hdot]
  rfl

/-- A tile that begins with the bars of blocks begins with a lane. The last bar has one codel, so
that nothing but the next shade lies behind it. -/
theorem lane (h : c.Shown D view i) {lane : List Stretch} {rest : List Column}
    (hupper : (i.tile D c.shade).upper = (Stretch.bars c.shade lane).map Bar.column ++ rest)
    (hsound : ∀ b ∈ lane, b.Sound) (hheight : ∀ n ∈ lane.flatMap (·.heights), n ≤ 2)
    (hlast : (lane.flatMap (·.heights)).getLast? = some 1)
    (hshelf : ∀ (j : Nat) (z : Int), j < Stretch.width lane → laneRow < z → z ≤ laneRow + 2 →
      ∀ k, Shelf.cell c.x (i.tile D c.shade).below (c.x + j, z) = some k → k = .white)
    (hend : view (c.x + Stretch.width lane, laneRow) =
      .shade (Stretch.shadeAfter c.shade lane)) : Lane view laneRow c.x c.shade lane := by
  have hlen := Stretch.length_bars c.shade lane
  have hshow : Shows view c.x laneRow (Stretch.bars c.shade lane) := by
    have hpaint := h.upper
    rw [hupper] at hpaint
    exact hpaint.left.shows fun b hb ↦ Stretch.inPalette_of_mem_bars h.palette hb
  have hget {j : Nat} {b : Bar} (hj : (Stretch.bars c.shade lane)[j]? = some b) :
      j < Stretch.width lane ∧ (i.tile D c.shade).upper[j]? = some b.column := by
    have hlt := (List.getElem?_eq_some_iff.mp hj).1
    refine ⟨by omega, ?_⟩
    rw [hupper, List.getElem?_append_left (by rw [List.length_map]; exact hlt), List.getElem?_map, hj]
    rfl
  have hbar {b : Bar} (hb : b ∈ Stretch.bars c.shade lane) : 0 < b.height ∧ b.height ≤ 2 := by
    have hmem : b.height ∈ lane.flatMap (·.heights) := by
      rw [← Stretch.map_height_bars c.shade]
      exact List.mem_map_of_mem hb
    obtain ⟨st, hst, hin⟩ := List.mem_flatMap.mp hmem
    exact ⟨(hsound st hst).2 _ hin, hheight _ hmem⟩
  -- below a bar there is white or nothing
  have hplain (j : Nat) (b : Bar) (hj : (Stretch.bars c.shade lane)[j]? = some b) (n : Nat)
      (hn : b.height ≤ n) (hn' : n ≤ 2) (s : Shade) :
      view (c.x + j, laneRow + n) ≠ .shade s := by
    obtain ⟨hlt, hcol⟩ := hget hj
    have hpos := (hbar (List.mem_of_getElem? hj)).1
    have hlow : laneRow + (b.column.height : Int) ≤ laneRow + n := by
      simp only [Bar.column]
      omega
    cases hcell : Shelf.cell c.x (i.tile D c.shade).below (c.x + j, laneRow + n) with
    | some k =>
      obtain rfl := hshelf j _ hlt (by omega) (by omega) k hcell
      have hwhite : view (c.x + j, laneRow + n) = .ofColour .white := by
        apply h.tile
        rw [Tile.cell, Column.cell_below hcol (.inr hlow), hcell]
        rfl
      exact Codel.ne_shade_of_white hwhite
    | none => exact h.under_ne hcol hlow hcell s
  apply lane_of_framed hsound hshow _ hend
  apply Framed.of_low hshow
  · intro j b hj
    obtain ⟨-, hcol⟩ := hget hj
    exact h.above_ne hcol _
  · intro j b hj
    exact hplain j b hj b.height (Nat.le_refl _) (hbar (List.mem_of_getElem? hj)).2 _
  · intro j b hj b' hb' n hn hn' s
    have htwo := (hbar hb').2
    exact hplain j b hj n hn (by omega) s
  · intro b hb n _
    rw [head_bars hsound hb]
    exact h.before _
  · intro b hb n hn
    rw [← List.getLast?_eq_getElem?] at hb
    have hone : b.height = 1 := by
      rw [← Stretch.map_height_bars c.shade, List.getLast?_map, hb] at hlast
      exact Option.some.inj hlast
    obtain ⟨op, hop⟩ := Stretch.exists_step_of_getLast? hsound hb
    obtain rfl : n = 0 := by omega
    rw [hlen, Int.natCast_zero, Int.add_zero, hend, hop]
    intro heq
    exact Shade.step_ne b.shade op (Codel.shade.inj heq)

end Cursor.Shown

end BrainPiet
