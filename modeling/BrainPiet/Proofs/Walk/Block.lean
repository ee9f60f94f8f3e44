import BrainPiet.Proofs.Machine.Act
import BrainPiet.Proofs.Walk.Tile

/-!
# The blocks of a tile

Every tile begins with blocks along the lane. A walk that enters the tile executes their operations,
and where the tile forks or turns it comes to a last block that changes its heading.
-/

namespace BrainPiet

open Template (laneRow)

namespace Symbol

/-- The blocks of the operations of a symbol. -/
def lane : Symbol → List Stretch
  | increment => [⟨[1], .push⟩, ⟨[1, 1, 1], .add⟩]
  | decrement => [⟨[1], .push⟩, ⟨[1, 1, 1], .sub⟩]
  | a => a.code.map Stretch.ofEmission

/-- The block that changes the heading. -/
def turn : Symbol → List Stretch
  | advance | read | loopOpen => [⟨[1], .switch⟩]
  | loopClose => [⟨[1], .pointer⟩]
  | _ => []

/-- All blocks from the cursor on. -/
def blocks (a : Symbol) : List Stretch := a.lane ++ a.turn

/-- The columns behind the blocks, which start with the given shade. -/
def behind (rows : Nat) (t : Shade) : Symbol → List Column
  | advance => [⟨2, t.rgb⟩, ⟨2, .white⟩] ++ Stroke.row ⟨0, 0⟩ Template.advanceGrow ++
      Stroke.row (Stroke.rowShade ⟨1, 0⟩ Template.advanceLow) Template.advanceJoin
  | read => Stroke.row t Template.readNothing ++
      Stroke.row (Stroke.rowShade t Template.readLow) Template.readJoin
  | loopOpen | loopClose => [⟨rows, t.rgb⟩, ⟨1, .white⟩]
  | _ => []

private theorem map_emission_lane (a : Symbol) : a.lane.map Stretch.emission = a.code := by
  cases a <;> decide

private theorem sound_lane (a : Symbol) : ∀ b ∈ a.lane, b.Sound ∧ b.op.Steady ∧ b.Leads .left := by
  cases a <;> decide

private theorem sound_blocks (a : Symbol) : (∀ b ∈ a.blocks, b.Sound) ∧
    (∀ n ∈ a.blocks.flatMap (·.heights), n ≤ 2) ∧
      (a.blocks.flatMap (·.heights)).getLast? = some 1 := by
  cases a <;> decide

private theorem row_glyph (s : Shade) (lines : List String) (ks : List Stroke) :
    Stroke.row s (.glyph lines :: ks) = Stroke.row s ks := rfl

private theorem rowShade_glyph (s : Shade) (lines : List String) (ks : List Stroke) :
    Stroke.rowShade s (.glyph lines :: ks) = Stroke.rowShade s ks := rfl

private theorem upper_tile (a : Symbol) (rows : Nat) (s : Shade) :
    (a.tile rows s).upper = (Stretch.bars s a.blocks).map Bar.column ++
      a.behind rows (Stretch.shadeAfter s a.blocks) := by
  cases a with
  | increment => rfl
  | decrement => rfl
  | advance =>
    have htest : Template.advanceTest = .glyph ["#", " #", "#"] ::
        Stroke.code (advance.code ++ [⟨.switch, 1⟩]) ++
          [.paint 2, .white 2, .recolour ⟨0, 0⟩] := rfl
    have hrow : Stroke.row s Template.advanceTest =
        (Stretch.bars s advance.blocks).map Bar.column ++
          [⟨2, (Stretch.shadeAfter s advance.blocks).rgb⟩, ⟨2, .white⟩] := by
      have hblocks : advance.blocks =
        List.map Stretch.ofEmission (advance.code ++ [⟨.switch, 1⟩]) := rfl
      have hend (t : Shade) : Stroke.row t [.paint 2, .white 2, .recolour ⟨0, 0⟩] =
        [⟨2, t.rgb⟩, ⟨2, .white⟩] := rfl
      rw [htest, Stroke.row_append, row_glyph, rowShade_glyph, hblocks, ← row_code, hend,
        ← rowShade_code]
    have hgrow : Stroke.rowShade s Template.advanceTest = ⟨0, 0⟩ := by
      rw [htest, Stroke.rowShade_append]
      rfl
    have hjoin : Stroke.rowShade s (Template.advanceTest ++ [.recolour ⟨1, 0⟩] ++
        Template.advanceLow) = Stroke.rowShade ⟨1, 0⟩ Template.advanceLow := by
      rw [Stroke.rowShade_append, Stroke.rowShade_append]
      rfl
    rw [tile, Tile.fork, hrow, hgrow, hjoin, behind]
    simp only [List.append_assoc]
  | retreat =>
    have hcode : Template.retreat = .glyph [" #", "#", " #"] :: Stroke.code retreat.code := rfl
    rw [tile, Tile.straight, hcode, row_glyph, row_code]
    exact (List.append_nil _).symm
  | loopOpen => rfl
  | loopClose => rfl
  | read => rfl
  | write => rfl

private theorem behind_tile (a : Symbol) {rows : Nat} (hrows : 0 < rows) (s : Shade) :
    (a.behind rows (Stretch.shadeAfter s a.blocks) = [] ∧
        (a.tile rows s).finish = Stretch.shadeAfter s a.blocks) ∨
      ∃ h, 0 < h ∧ (a.behind rows (Stretch.shadeAfter s a.blocks))[0]? =
        some ⟨h, (Stretch.shadeAfter s a.blocks).rgb⟩ := by
  cases a with
  | advance => exact .inr ⟨2, by decide, rfl⟩
  | read => exact .inr ⟨1, by decide, rfl⟩
  | loopOpen => exact .inr ⟨rows, hrows, rfl⟩
  | loopClose => exact .inr ⟨rows, hrows, rfl⟩
  | retreat =>
    have hcode : Template.retreat = .glyph [" #", "#", " #"] :: Stroke.code retreat.code := rfl
    refine .inl ⟨rfl, ?_⟩
    rw [tile, Tile.straight, hcode, rowShade_glyph, rowShade_code]
    rfl
  | _ => exact .inl ⟨rfl, rfl⟩

private theorem shelf_behind {x : Int} {b : Shelf} {j : Nat} (hj : j < b.right) (z : Int) :
    Shelf.cell x [b] (x + j, z) = none := by
  rw [Shelf.cell, Column.cell_outside _ (.inl (by simp only; omega))]
  rfl

private theorem shelf_of_ne {a : Symbol} (ha : a ≠ loopOpen) (rows : Nat) (s : Shade) (x : Int) {j : Nat}
    (hj : j < Stretch.width a.blocks) (z : Int) :
    Shelf.cell x (a.tile rows s).below (x + j, z) = none := by
  cases a with
  | advance =>
    have hlen : j < (Stroke.row s Template.advanceTest).length := by
      rw [Stroke.length_row]
      exact Nat.lt_trans hj (by decide)
    rw [tile, Tile.fork, shelf_behind hlen]
  | read =>
    have hlen : j < (Stroke.row s Template.readTest).length := by
      rw [Stroke.length_row]
      exact hj
    rw [tile, Tile.fork, shelf_behind hlen]
  | loopOpen => exact absurd rfl ha
  | _ => rfl

private theorem shelf_blocks (a : Symbol) {rows : Nat} (hrows : 4 ≤ rows) (s : Shade) (x : Int) {j : Nat}
    {z : Int} (hj : j < Stretch.width a.blocks) (hz : z ≤ laneRow + 2) {k : Rgb}
    (hk : Shelf.cell x (a.tile rows s).below (x + j, z) = some k) : k = .white := by
  by_cases ha : a = loopOpen
  · subst ha
    rw [tile, Shelf.cell, Shelf.cell, Column.cell_outside _ (.inr (.inr (by simp only; omega))),
      Option.none_or, Shelf.cell, Option.or_none] at hk
    obtain ⟨i, col, hi, -, -, -, rfl⟩ := Column.cell_eq_some.mp hk
    rw [List.mem_singleton.mp (List.mem_of_getElem? hi)]
  · rw [shelf_of_ne ha rows s x hj] at hk
    cases hk

private theorem shelf_turn (a : Symbol) (rows : Nat) (s : Shade) (x : Int) (z : Int) :
    Shelf.cell x (a.tile rows s).below (x + (Stretch.width a.blocks - 1 : Nat), z) = none := by
  by_cases ha : a = loopOpen
  · subst ha
    have hcell (y : Int) (col : Column) : Column.cell (x + (0 : Nat)) y [col]
        (x + (Stretch.width loopOpen.blocks - 1 : Nat), z) = none := by
      have hwidth : Stretch.width loopOpen.blocks - 1 = 8 := rfl
      apply Column.cell_outside
      rw [hwidth]
      simp only [List.length_singleton]
      omega
    rw [tile, Shelf.cell, Shelf.cell, hcell, hcell]
    rfl
  · exact shelf_of_ne ha rows s x (by cases a <;> decide) z

end Symbol

/-- A column behind the blocks is a column of the tile. -/
theorem Instruction.getElem?_upper (i : Instruction) {D : Nat} {s : Shade} {j : Nat} {col : Column}
    (hj : (i.symbol.behind (loopRows D i.depth) (Stretch.shadeAfter s i.symbol.blocks))[j]? =
      some col) : (i.tile D s).upper[Stretch.width i.symbol.blocks + j]? = some col := by
  have hlen : ((Stretch.bars s i.symbol.blocks).map Bar.column).length =
      Stretch.width i.symbol.blocks := by
    rw [List.length_map, Stretch.length_bars]
  rw [tile, Symbol.upper_tile, List.getElem?_append_right (by omega), hlen,
    Nat.add_sub_cancel_left, hj]

private theorem Instruction.exists_upper (i : Instruction) (D : Nat) (s : Shade) {j k : Nat}
    (hj : (i.symbol.blocks.flatMap (·.heights))[j]? = some k) :
    j < Stretch.width i.symbol.blocks ∧
      ∃ col, (i.tile D s).upper[j]? = some col ∧ col.height = k := by
  have hlen := Stretch.length_bars s i.symbol.blocks
  rw [← Stretch.map_height_bars s, List.getElem?_map] at hj
  obtain ⟨b, hb, hk⟩ := Option.map_eq_some_iff.mp hj
  have hlt := (List.getElem?_eq_some_iff.mp hb).1
  refine ⟨by omega, b.column, ?_, hk⟩
  rw [tile, Symbol.upper_tile, List.getElem?_append_left (by rw [List.length_map]; exact hlt),
    List.getElem?_map, hb]
  rfl

/-- The next tile lies behind the columns behind the blocks. -/
theorem Cursor.x_next (c : Cursor) (D : Nat) (i : Instruction) :
    (c.next D i).x = c.x + Stretch.width i.symbol.blocks +
      (i.symbol.behind (loopRows D i.depth)
        (Stretch.shadeAfter c.shade i.symbol.blocks)).length := by
  rw [Cursor.next]
  simp only
  rw [Tile.width, Instruction.tile, Symbol.upper_tile, List.length_append, List.length_map,
    Stretch.length_bars, Int.natCast_add, Int.add_assoc]

/-- The columns behind the blocks are seen. -/
theorem Cursor.Shown.behind {D : Nat} {view : Pos → Codel} {c : Cursor} {i : Instruction}
    (h : c.Shown D view i) : Paints view (c.x + Stretch.width i.symbol.blocks) laneRow
      (i.symbol.behind (loopRows D i.depth) (Stretch.shadeAfter c.shade i.symbol.blocks)) := by
  have hpaint := h.upper
  rw [Instruction.tile, Symbol.upper_tile] at hpaint
  have hright := hpaint.right
  rw [List.length_map, Stretch.length_bars] at hright
  exact hright

/-- The blocks of every tile are a lane. -/
theorem Cursor.Shown.blocks {D : Nat} {view : Pos → Codel} {c : Cursor} {i : Instruction}
    (h : c.Shown D view i) : Lane view laneRow c.x c.shade i.symbol.blocks := by
  have hrows : 4 ≤ loopRows D i.depth := Nat.le_add_left 4 _
  have hupper : (i.tile D c.shade).upper = (Stretch.bars c.shade i.symbol.blocks).map Bar.column ++
      i.symbol.behind (loopRows D i.depth) (Stretch.shadeAfter c.shade i.symbol.blocks) :=
    i.symbol.upper_tile _ _
  obtain ⟨hsound, hheight, hlast⟩ := i.symbol.sound_blocks
  apply h.lane hupper hsound hheight hlast
  · intro j z hj _ hz k hk
    exact i.symbol.shelf_blocks hrows c.shade c.x hj hz hk
  · rcases i.symbol.behind_tile (show 0 < loopRows D i.depth by omega) c.shade with
      ⟨hnil, hfinish⟩ | ⟨n, hn, hfirst⟩
    · -- the tile ends with its blocks, so the next tile lies behind them
      have hx : (c.next D i).x = c.x + Stretch.width i.symbol.blocks := by
        rw [Cursor.x_next, hnil, List.length_nil, Int.natCast_zero, Int.add_zero]
      have hafter := h.after
      rw [hx] at hafter
      rw [hafter]
      exact congrArg Codel.shade hfinish
    · have hpal := Stretch.inPalette_shadeAfter h.palette i.symbol.blocks
      have hview := h.behind 0 _ hfirst 0 hn
      rw [Int.natCast_zero, Int.add_zero, Int.add_zero] at hview
      rw [hview, Shade.ofColour_rgb hpal]

/-- The block that changes the heading does not extend what lies behind it. -/
theorem Cursor.Shown.before_behind {D : Nat} {view : Pos → Codel} {c : Cursor} {i : Instruction}
    (h : c.Shown D view i) {op : Operation} (hturn : i.symbol.turn = [⟨[1], op⟩]) {z : Int}
    (hz : laneRow ≤ z) :
    view (c.x + Stretch.width i.symbol.blocks - 1, z) ≠
      .shade (Stretch.shadeAfter c.shade i.symbol.blocks) := by
  have hwidth : Stretch.width i.symbol.blocks = Stretch.width i.symbol.lane + 1 := by
    rw [Symbol.blocks, hturn, Stretch.width_append]
    rfl
  have hx : c.x + (Stretch.width i.symbol.blocks : Int) - 1 =
      c.x + (Stretch.width i.symbol.blocks - 1 : Nat) := by omega
  by_cases hlane : z = laneRow
  · have hblocks := h.blocks
    rw [Symbol.blocks, hturn, lane_append] at hblocks
    obtain ⟨-, hpatch, -⟩ := hblocks
    have hview := hpatch.shade (c.x + Stretch.width i.symbol.lane, laneRow)
      (mem_comb_top _ _ Nat.one_pos)
    have hafter : Stretch.shadeAfter c.shade i.symbol.blocks =
        (Stretch.shadeAfter c.shade i.symbol.lane).step op := by
      rw [Symbol.blocks, hturn, Stretch.shadeAfter, List.foldl_append]
      rfl
    rw [hlane, hx, hwidth, Nat.add_sub_cancel, hview, hafter]
    intro heq
    exact Shade.step_ne _ op (Codel.shade.inj heq).symm
  · obtain ⟨-, col, hcol, hone⟩ := i.exists_upper D c.shade (k := 1)
      (j := Stretch.width i.symbol.blocks - 1) (by
        rw [← i.symbol.sound_blocks.2.2, List.getLast?_eq_getElem?, List.length_flatMap]
        rfl)
    have hlow : laneRow + (col.height : Int) ≤ z := by
      rw [hone]
      omega
    rw [hx]
    exact h.under_ne hcol hlow (i.symbol.shelf_turn _ _ _ _) _

/-- Right below the blocks of anything but a loop there is black. -/
theorem Cursor.Shown.below {D : Nat} {view : Pos → Codel} {c : Cursor} {i : Instruction}
    (h : c.Shown D view i) (hi : i.symbol ≠ .loopOpen) {j k : Nat}
    (hj : (i.symbol.blocks.flatMap (·.heights))[j]? = some k) :
    view (c.x + j, laneRow + k) = .black := by
  have hk := i.symbol.sound_blocks.2.1 k (List.mem_of_getElem? hj)
  obtain ⟨hlt, col, hcol, rfl⟩ := i.exists_upper D c.shade hj
  rcases h.under hcol (Int.le_refl _) (Symbol.shelf_of_ne hi _ _ _ hlt _) with hblack | ⟨-, hrow⟩
  · exact hblack
  · omega

namespace Picture

variable {p : Picture} {D : Nat} {view : Pos → Codel} {c : Cursor} {i : Instruction} {m m' : Machine}

/-- A walk that enters a tile executes its operations. -/
theorem Renders.path_code (hr : p.Renders view) (h : c.Shown D view i) (hm : 3 ≤ m.stack.length) :
    p.Path 2 (i.symbol.lane.map (some ·.op)) ⟨m.facing .right .left, (c.x, laneRow)⟩
      ⟨(m.afterAll i.symbol.code).facing .right .left,
        (c.x + Stretch.width i.symbol.lane, laneRow)⟩ := by
  have hholds := (Machine.holds_code hm i.symbol).1
  rw [← Symbol.map_emission_lane] at hholds ⊢
  exact hr.path_lane (by decide) i.symbol.sound_lane (lane_append.mp h.blocks).1 hholds

/-- A walk passes through a tile that neither forks nor turns. -/
theorem Renders.path_straight (hr : p.Renders view) (h : c.Shown D view i)
    (hturn : i.symbol.turn = []) (hm : 3 ≤ m.stack.length) :
    p.Path 2 (i.symbol.lane.map (some ·.op)) ⟨m.facing .right .left, (c.x, laneRow)⟩
      ⟨(m.afterAll i.symbol.code).facing .right .left, ((c.next D i).x, laneRow)⟩ := by
  have hx : (c.next D i).x = c.x + Stretch.width i.symbol.lane := by
    have hbehind : i.symbol.behind (loopRows D i.depth)
        (Stretch.shadeAfter c.shade i.symbol.blocks) = [] := by
      revert hturn
      cases i.symbol <;> first | exact fun _ ↦ rfl | exact fun h ↦ nomatch h
    rw [Cursor.x_next, hbehind, List.length_nil, Int.natCast_zero, Int.add_zero, Symbol.blocks,
      hturn, List.append_nil]
  rw [hx]
  exact hr.path_code h hm

/-- Where a tile forks or turns, a walk comes behind its blocks with another heading. -/
theorem Renders.path_blocks (hr : p.Renders view) (h : c.Shown D view i) {op : Operation}
    (hturn : i.symbol.turn = [⟨[1], op⟩]) (hm : 3 ≤ m.stack.length)
    (hex : Machine.execute op 1 ((m.afterAll i.symbol.code).facing .right .left) = .ok () m') :
    p.Path 2 (i.symbol.blocks.map (some ·.op)) ⟨m.facing .right .left, (c.x, laneRow)⟩
      ⟨m', (c.x + Stretch.width i.symbol.blocks, laneRow)⟩ := by
  have hblocks := h.blocks
  rw [Symbol.blocks, hturn, lane_append] at hblocks
  obtain ⟨-, hpatch, hnext, -⟩ := hblocks
  have hheight := (Machine.holds_code hm i.symbol).2
  have hcorner : (c.x + (Stretch.width i.symbol.lane : Int), laneRow) ∈
      comb (c.x + Stretch.width i.symbol.lane) laneRow [1] :=
    mem_comb_top _ _ Nat.one_pos
  have hstep := hr.treads_comb (List.cons_ne_nil 1 []) (show ∀ n ∈ [1], 0 < n by decide) hpatch
    hcorner (clear_of_row (show (4 : Int) ≤ laneRow by decide))
    (show 2 ≤ (m.afterAll i.symbol.code).stack.length by omega) (.inl rfl) hnext hex
  have hx : c.x + (Stretch.width i.symbol.blocks : Int) =
      c.x + Stretch.width i.symbol.lane + ([1].length : Nat) := by
    rw [Symbol.blocks, hturn, Stretch.width_append]
    simp only [Stretch.width_cons, Stretch.width_nil]
    omega
  have hpath := (hr.path_code h hm).trans hstep.path
  rw [hx, Symbol.blocks, hturn, List.map_append]
  exact hpath

end Picture

end BrainPiet
