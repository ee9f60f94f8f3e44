import BrainPiet.Proofs.Drawing.Loop
import BrainPiet.Proofs.Walk.Block

/-!
# Routing of loops

Both columns of a loop reach from the lane down to the return row. A walk that comes down the branch
column crosses the return row, climbs the closing column and goes on behind the loop. A walk that is
turned around at the closing column crosses the return row to the foot of the anchor, climbs to the
lane and enters the loop again. On the way it executes nothing.
-/

namespace BrainPiet

open Template (laneRow)

private theorem shelf_bracket {a : Symbol} (ha : ¬a.IsAction) (rows : Nat) (s : Shade) (x : Int)
    {j : Nat} (hj : 0 < j) (z : Int) : Shelf.cell x (a.tile rows s).below (x + j, z) = none := by
  cases a with
  | loopOpen =>
    have hcell (y : Int) (col : Column) : Column.cell (x + (0 : Nat)) y [col] (x + j, z) = none := by
      apply Column.cell_outside
      simp only [List.length_singleton]
      omega
    rw [Symbol.tile, Shelf.cell, Shelf.cell, hcell, hcell]
    rfl
  | loopClose => rfl
  | _ => exact absurd (by decide) ha

namespace Cursor.Shown

variable {D : Nat} {view : Pos → Codel} {c : Cursor} {i : Instruction}

/-- The column of a bracket is a patch, and a white codel lies behind it on the lane. -/
theorem column (h : c.Shown D view i) (hi : ¬i.symbol.IsAction) :
    Patch view (Stretch.shadeAfter c.shade i.symbol.blocks)
        (comb (c.x + Stretch.width i.symbol.blocks) laneRow [loopRows D i.depth]) ∧
      view (c.x + Stretch.width i.symbol.blocks + 1, laneRow) = .white := by
  have hbehind : i.symbol.behind (loopRows D i.depth)
      (Stretch.shadeAfter c.shade i.symbol.blocks) =
        [⟨loopRows D i.depth, (Stretch.shadeAfter c.shade i.symbol.blocks).rgb⟩, ⟨1, .white⟩] := by
    cases hsym : i.symbol <;> first | rfl | exact absurd (by rw [hsym]; decide) hi
  obtain ⟨op, hturn⟩ : ∃ op, i.symbol.turn = [⟨[1], op⟩] := by
    cases hsym : i.symbol <;> first | exact ⟨_, rfl⟩ | exact absurd (by rw [hsym]; decide) hi
  have hwidth : 0 < Stretch.width i.symbol.blocks := by
    rw [Symbol.blocks, hturn, Stretch.width_append]
    exact Nat.succ_pos _
  have hpal := Stretch.inPalette_shadeAfter h.palette i.symbol.blocks
  have hpaint := h.upper
  -- the last two columns of the tile
  have hcol : (i.tile D c.shade).upper[Stretch.width i.symbol.blocks]? =
      some ⟨loopRows D i.depth, (Stretch.shadeAfter c.shade i.symbol.blocks).rgb⟩ :=
    i.getElem?_upper (j := 0) (by rw [hbehind]; rfl)
  have hwhite : (i.tile D c.shade).upper[Stretch.width i.symbol.blocks + 1]? =
      some ⟨1, .white⟩ := i.getElem?_upper (by rw [hbehind]; rfl)
  have hx : c.x + (Stretch.width i.symbol.blocks : Int) + 1 =
      c.x + (Stretch.width i.symbol.blocks + 1 : Nat) := by omega
  have hlane : view (c.x + Stretch.width i.symbol.blocks + 1, laneRow) = .white := by
    have hview := hpaint _ _ hwhite 0 Nat.one_pos
    rw [Int.natCast_zero, Int.add_zero] at hview
    rw [hx]
    exact hview
  refine ⟨?_, hlane⟩
  apply patch_column
  · rw [loopRows]
    omega
  · intro j hj
    rw [← Shade.ofColour_rgb hpal]
    exact hpaint _ _ hcol j hj
  · exact h.above_ne hcol _
  · exact h.under_ne hcol (Int.le_refl _) (shelf_bracket hi _ _ _ hwidth _) _
  · intro j _
    exact h.before_behind hturn (by omega)
  · intro j _
    cases j with
    | zero =>
      rw [Int.natCast_zero, Int.add_zero]
      exact Codel.ne_shade_of_white hlane
    | succ j =>
      rw [hx]
      exact h.under_ne hwhite (by simp only; omega) (shelf_bracket hi _ _ _ (Nat.succ_pos _) _) _

end Cursor.Shown

namespace LoopShown

variable {D : Nat} {view : Pos → Codel} {a z : Cursor} {d : Nat}

private theorem row_eq (h : LoopShown D view a z d) :
    laneRow + (loopRows D d : Int) - 1 = returnRow D d := (returnRow_eq h.depth).symm

/-- Between the lane and the foot of the anchor there is a white shaft. -/
theorem shaft (h : LoopShown D view a z d) {y : Int} (hy : laneRow < y) (hy' : y < returnRow D d) :
    view (a.x, y) = .white := by
  have hrow := h.row_eq
  have hfirst : (Instruction.tile D a.shade ⟨.loopOpen, d⟩).upper[0]? = some ⟨1, a.shade.rgb⟩ := rfl
  have hupper := Column.cell_below (x := a.x) (y := laneRow) (z := y) hfirst
    (.inr (by simp only; omega))
  rw [Int.natCast_zero, Int.add_zero] at hupper
  have hwhite : Column.cell (a.x + (0 : Nat)) (laneRow + (0 : Nat)) [⟨loopRows D d - 1, .white⟩]
      (a.x, y) = some .white := by
    rw [Column.cell, if_pos]
    simp only
    omega
  have hfoot : Column.cell (a.x + (0 : Nat)) (laneRow + (loopRows D d - 1 : Nat))
      [⟨1, a.shade.rgb⟩] (a.x, y) = none :=
    Column.cell_outside _ (.inr (.inr (by simp only; omega)))
  rw [show Codel.white = Codel.ofColour .white from rfl]
  apply h.opening.tile
  rw [Tile.cell, hupper, Instruction.tile, Symbol.tile]
  simp only [Shelf.cell, hfoot, hwhite]
  rfl

/-- The foot of the anchor is a patch of its own. -/
theorem foot (h : LoopShown D view a z d) :
    Patch view a.shade (comb a.x (returnRow D d) [1]) := by
  have hrow := h.row_eq
  have hfour : 4 ≤ loopRows D d := Nat.le_add_left 4 _
  have hsound := Instruction.sound D h.opening.palette ⟨.loopOpen, d⟩
  have hview : view (a.x, returnRow D d) = .shade a.shade := by
    rw [← Shade.ofColour_rgb h.opening.palette]
    apply h.opening.tile
    exact (Symbol.cell_loopOpen hfour a.shade a.x hrow.symm).1
  have hbelow : (Instruction.tile D a.shade ⟨.loopOpen, d⟩).cell a.x
      (a.x, returnRow D d + 1) = none := by
    rw [Option.eq_none_iff_forall_ne_some]
    intro k hk
    have hlt := (hsound.bounds (Instruction.bottom_pos D _) hk).2.2.2
    have hbottom : Instruction.bottom D ⟨.loopOpen, d⟩ = loopRows D d := rfl
    simp only [hbottom] at hlt
    omega
  apply patch_codel hview
  · exact Codel.ne_shade_of_white (h.shaft (by omega) (by omega))
  · have hnext : a.x < (a.next D ⟨.loopOpen, d⟩).x := by
      have hx : (a.next D ⟨.loopOpen, d⟩).x = a.x + 11 := rfl
      omega
    rcases h.opening.blank _ (Int.le_refl _) hnext hbelow with hblack | ⟨hwhite, -⟩
    · exact Codel.ne_shade_of_black hblack
    · exact Codel.ne_shade_of_white hwhite
  · exact Codel.ne_shade_of_black h.left
  · have hin := h.order
    exact Codel.ne_shade_of_white (h.span (a.x + 1) (by omega) (by omega) (by omega))

/-- The lane codel of the anchor is a patch, and the step to its right doubles the value. -/
theorem anchor (h : LoopShown D view a z d) :
    Patch view a.shade (comb a.x laneRow [1]) ∧
      view (a.x + 1, laneRow) = .shade (a.shade.step .dup) :=
  ⟨h.opening.blocks.1, h.opening.blocks.2.1⟩

/-- The branch column is a patch. -/
theorem branch (h : LoopShown D view a z d) :
    Patch view (Stretch.shadeAfter a.shade Symbol.loopOpen.blocks)
      (comb (a.x + 9) laneRow [loopRows D d]) :=
  (h.opening.column fun ha ↦ ha.1 rfl).1

/-- The closing column is a patch, and a white codel lies behind it on the lane. -/
theorem close (h : LoopShown D view a z d) :
    Patch view (Stretch.shadeAfter z.shade Symbol.loopClose.blocks)
        (comb (z.x + 2) laneRow [loopRows D d]) ∧
      view (z.x + 3, laneRow) = .white := by
  obtain ⟨hpatch, hwhite⟩ := h.closing.column fun ha ↦ ha.2 rfl
  have hx : z.x + (Stretch.width Symbol.loopClose.blocks : Int) + 1 = z.x + 3 := by
    have hwidth : Stretch.width Symbol.loopClose.blocks = 2 := rfl
    omega
  rw [hx] at hwhite
  exact ⟨hpatch, hwhite⟩

end LoopShown

namespace Picture

variable {p : Picture} {D : Nat} {view : Pos → Codel} {a z : Cursor} {d least : Nat} {m : Machine}
  {q : Pos}

private theorem clear_column {x : Int} {h : Nat} (hq : q ∈ comb x laneRow [h]) : Clear q := by
  have hrow := (mem_comb_singleton.mp hq).2.1
  apply clear_of_row
  rw [laneRow] at hrow
  omega

private theorem mem_column (h : LoopShown D view a z d) (x : Int) :
    (x, returnRow D d) ∈ comb x laneRow [loopRows D d] := by
  have hrow := h.row_eq
  have hpos : 4 ≤ loopRows D d := Nat.le_add_left 4 _
  exact mem_comb_singleton.mpr ⟨rfl, by simp only; omega, by simp only; omega⟩

/-- A walk that goes down the branch column comes to the closing column. -/
theorem Renders.treads_skip (hr : p.Renders view) (h : LoopShown D view a z d)
    (hq : q ∈ comb (a.x + 9) laneRow [loopRows D d]) (hm : least ≤ m.stack.length) :
    p.Treads least ⟨m.facing .right .right, q⟩ none
      ⟨m.facing .right .right, (z.x + 2, returnRow D d)⟩ := by
  have horder := h.order
  have hpos : 4 ≤ loopRows D d := Nat.le_add_left 4 _
  have hrow : endRow laneRow (loopRows D d) .right .right = returnRow D d := h.row_eq
  apply hr.treads_right h.branch (by omega) (by decide) hq hm hrow (by omega)
  · exact fun w hw hw' ↦ h.span w (by omega) hw' (by omega)
  · exact h.close.1.shade _ (mem_column h _)

/-- From the closing column the walk climbs to the lane behind the loop. -/
theorem Renders.treads_climb (hr : p.Renders view) (h : LoopShown D view a z d)
    (hq : q ∈ comb (z.x + 2) laneRow [loopRows D d]) (hm : least ≤ m.stack.length) :
    p.Treads least ⟨m.facing .right .right, q⟩ none
      ⟨m.facing .right .left, (z.x + 4, laneRow)⟩ := by
  have hpos : 4 ≤ loopRows D d := Nat.le_add_left 4 _
  have hblack : view (Pos.toward (z.x + 2, endRow laneRow (loopRows D d) .right .right) .right) =
      .black := by
    rw [← h.right, ← h.row_eq]
    exact congrArg view (Prod.ext (by simp only [Pos.toward, Direction.dx]; omega)
      (Int.add_zero _))
  obtain ⟨n, hend, hpass⟩ := exists_passage_right (z.x + 2) (show z.x + 2 + 1 < z.x + 4 by omega)
    (fun w hw hw' ↦ by rw [show w = z.x + 3 by omega]; exact h.close.2)
    h.closing.after (by decide)
  have hstep := hr.treads_column_flip h.close.1 (by omega) hq (clear_column hq) hm hblack hpass
  rw [← hend]
  exact hstep

/-- A walk that is turned around at the closing column comes to the branch column. -/
theorem Renders.treads_back (hr : p.Renders view) (h : LoopShown D view a z d)
    (hq : q ∈ comb (z.x + 2) laneRow [loopRows D d]) (hm : least ≤ m.stack.length) :
    p.Treads least ⟨m.facing .left .left, q⟩ none
      ⟨m.facing .left .left, (a.x + 9, returnRow D d)⟩ := by
  have horder := h.order
  have hpos : 4 ≤ loopRows D d := Nat.le_add_left 4 _
  have hrow : endRow laneRow (loopRows D d) .left .left = returnRow D d := h.row_eq
  obtain ⟨n, hend, hpass⟩ := exists_passage_left (z.x + 2) (show a.x + 9 + 1 < z.x + 2 by omega)
    (fun w hw hw' ↦ h.span w (by omega) hw' (by omega))
    (h.branch.shade _ (mem_column h _)) (by rw [← h.row_eq, laneRow]; omega)
  rw [← hrow] at hpass hend ⊢
  have hstep := hr.treads_column h.close.1 (by omega) hq (clear_column hq) hm hpass
  rw [hend] at hstep
  exact hstep

/-- From the branch column it comes to the foot of the anchor. -/
theorem Renders.treads_foot (hr : p.Renders view) (h : LoopShown D view a z d)
    (hq : q ∈ comb (a.x + 9) laneRow [loopRows D d]) (hm : least ≤ m.stack.length) :
    p.Treads least ⟨m.facing .left .left, q⟩ none
      ⟨m.facing .left .left, (a.x, returnRow D d)⟩ := by
  have horder := h.order
  have hpos : 4 ≤ loopRows D d := Nat.le_add_left 4 _
  have hrow : endRow laneRow (loopRows D d) .left .left = returnRow D d := h.row_eq
  have hfoot : (a.x, returnRow D d) ∈ comb a.x (returnRow D d) [1] :=
    mem_comb_top _ _ Nat.one_pos
  obtain ⟨n, hend, hpass⟩ := exists_passage_left (a.x + 9) (show a.x + 1 < a.x + 9 by omega)
    (fun w hw hw' ↦ h.span w hw (by omega) (by omega))
    (h.foot.shade _ hfoot) (by rw [← h.row_eq, laneRow]; omega)
  rw [← hrow] at hpass hend ⊢
  have hstep := hr.treads_column h.branch (by omega) hq (clear_column hq) hm hpass
  rw [hend] at hstep
  exact hstep

/-- From the foot of the anchor it rises to the lane. -/
theorem Renders.treads_rise (hr : p.Renders view) (h : LoopShown D view a z d)
    (hm : least ≤ m.stack.length) :
    p.Treads least ⟨m.facing .left .left, (a.x, returnRow D d)⟩ none
      ⟨m.facing .up .right, (a.x, laneRow)⟩ := by
  have hpos : 4 ≤ loopRows D d := Nat.le_add_left 4 _
  have hrow := h.row_eq
  have hfoot : (a.x, returnRow D d) ∈ comb a.x (returnRow D d) [1] :=
    mem_comb_top _ _ Nat.one_pos
  have hblack (side : Side) : view (Pos.toward (a.x, endRow (returnRow D d) 1 .left side) .left) =
      .black := by
    rw [← h.left]
    apply congrArg view
    cases side <;> simp only [Pos.toward, endRow, Direction.dx, Direction.dy, Prod.mk.injEq] <;> omega
  have hanchor : view (a.x, laneRow) = .shade a.shade := by
    apply h.opening.blocks.1.shade
    exact mem_comb_cons.mpr (.inl ⟨rfl, Int.le_refl _, by simp only; omega⟩)
  obtain ⟨n, hend, hpass⟩ := exists_passage_up (returnRow D d)
    (show laneRow + 1 < returnRow D d by omega) (fun w hw hw' ↦ h.shaft hw hw') hanchor (by decide)
  have hclear : Clear (a.x, returnRow D d) := by
    apply clear_of_row
    simp only [← hrow, laneRow]
    omega
  rw [← hend]
  exact hr.treads_column_turn h.foot Nat.one_pos hfoot hclear hm (hblack .left) (hblack .right) hpass

/-- A walk that has risen to the lane enters the loop as one that comes along the lane. -/
theorem Renders.alike_anchor (hr : p.Renders view) (h : LoopShown D view a z d) (m : Machine) :
    p.Alike ⟨m.facing .up .right, (a.x, laneRow)⟩ ⟨m.facing .right .left, (a.x, laneRow)⟩ := by
  obtain ⟨hpatch, hnext⟩ := h.anchor
  have hanchor : (a.x, laneRow) ∈ comb a.x laneRow [1] :=
    mem_comb_top _ _ Nat.one_pos
  have hedge (d : Direction) (side : Side) : Edge (comb a.x laneRow [1]) d side (a.x, laneRow) := by
    have hcolumn := edge_column (x := a.x) (y := laneRow) Nat.one_pos d side
    have hrow : endRow laneRow 1 d side = laneRow := by cases d <;> cases side <;> rfl
    rw [hrow] at hcolumn
    exact hcolumn
  have hup : view (Pos.toward (a.x, laneRow) .up) = .black := by
    have hblack := h.opening.above (Instruction.sound D h.opening.palette _).width_pos
    rw [← hblack]
    exact congrArg view (Prod.ext rfl rfl)
  have hright : Pos.toward (a.x, laneRow) .right = (a.x + 1, laneRow) :=
    Prod.ext rfl (Int.add_zero _)
  have hdup : view (Pos.toward (a.x, laneRow) .right) = .shade (a.shade.step .dup) := by
    rw [hright, hnext]
  have hopen : view (Pos.toward (a.x, laneRow) .right) ≠ .black := by
    rw [hdup]
    exact Codel.noConfusion
  have hrisen : p.opening? (comb a.x laneRow [1]) Adjustment.attempts (m.facing .up .right) =
      some (Pos.toward (a.x, laneRow) .right, m.facing .right .left) :=
    hr.opening?_turn (hedge .up .right) hup (hedge .up _) hup (hedge Direction.up.next _) hopen m
  have hcome : p.opening? (comb a.x laneRow [1]) Adjustment.attempts (m.facing .right .left) =
      some (Pos.toward (a.x, laneRow) .right, m.facing .right .left) :=
    hr.opening?_open (hedge .right .left) hopen .flip Adjustment.attempts.tail m
  have hex := Machine.execute_facing (show Operation.dup.Steady by decide) m
    (comb a.x laneRow [1]).length .right .left
  exact hr.alike hpatch hanchor hanchor (clear_of_row (show (4 : Int) ≤ laneRow by decide)) rfl
    hrisen hcome hdup (Shade.between_step _ .dup) hex

/-- A walk that enters the loop doubles the value. -/
theorem Renders.treads_dup (hr : p.Renders view) (h : LoopShown D view a z d)
    (hm : least ≤ m.stack.length) :
    p.Treads least ⟨m.facing .right .left, (a.x, laneRow)⟩ (some .dup)
      ⟨(m.after .dup 1).facing .right .left, (a.x + 1, laneRow)⟩ := by
  obtain ⟨hpatch, hnext⟩ := h.anchor
  have hanchor : (a.x, laneRow) ∈ comb a.x laneRow [1] :=
    mem_comb_top _ _ Nat.one_pos
  have hex := Machine.execute_facing (show Operation.dup.Steady by decide) m
    (List.sum [1] : Nat) .right .left
  exact hr.treads_comb (List.cons_ne_nil 1 []) (show ∀ n ∈ [1], 0 < n by decide) hpatch hanchor
    (clear_of_row (show (4 : Int) ≤ laneRow by decide)) hm (.inl rfl) hnext hex

/-- From the branch column with the chooser to the right a walk comes behind the loop. -/
theorem Renders.path_skip (hr : p.Renders view) (h : LoopShown D view a z d)
    (hq : q ∈ comb (a.x + 9) laneRow [loopRows D d]) (hm : least ≤ m.stack.length) :
    p.Path least [none, none] ⟨m.facing .right .right, q⟩
      ⟨m.facing .right .left, (z.x + 4, laneRow)⟩ :=
  .cons (hr.treads_skip h hq hm) (hr.treads_climb h (mem_column h _) hm).path

/-- From the closing column, turned around, a walk comes to the anchor. -/
theorem Renders.path_return (hr : p.Renders view) (h : LoopShown D view a z d)
    (hq : q ∈ comb (z.x + 2) laneRow [loopRows D d]) (hm : least ≤ m.stack.length) :
    p.Path least [none, none, none] ⟨m.facing .left .left, q⟩
      ⟨m.facing .up .right, (a.x, laneRow)⟩ :=
  .cons (hr.treads_back h hq hm) (.cons (hr.treads_foot h (mem_column h _) hm)
    (hr.treads_rise h hm).path)

end Picture

end BrainPiet
