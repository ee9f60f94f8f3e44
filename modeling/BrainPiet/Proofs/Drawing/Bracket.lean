import BrainPiet.Proofs.Drawing.Tile

/-!
# The brackets of a loop

Both brackets draw their tile. The closing one whitens two spans of the return row besides; this
succeeds where the spans are still free and something is painted to the left of each.
-/

namespace BrainPiet

open Template (laneRow loopTest loopTurn)

/-- The cells of a return row between two columns. -/
def spanCell (row left right : Int) (p : Pos) : Option Rgb :=
  if p.2 = row ∧ left < p.1 ∧ p.1 < right then some .white else none

namespace Drawing

private theorem draw_column (st : Session) (hs : st.shade.InPalette) {depth : Int} {rows : Nat}
    (hrows : (rows : Int) = (st.maxDepth - depth) * 2 + 4) :
    (do paint (st.loopRows depth); white 1) st =
      .ok () (st.lay [⟨rows, st.shade.rgb⟩, ⟨1, .white⟩] st.shade) := by
  have hstraight : ∀ k ∈ [Stroke.paint rows, Stroke.white 1], k.Straight := by
    intro k hk
    simp only [List.mem_cons, List.not_mem_nil, or_false] at hk
    rcases hk with rfl | rfl
    · exact Int.natCast_nonneg rows
    · decide
  have hrow := draw_row hstraight st hs
  rw [Session.loopRows, ← hrows]
  exact hrow

private theorem draw_openLoop (st : Session) (hs : st.shade.InPalette) {depth : Int} {rows : Nat}
    (hrows : (rows : Int) = (st.maxDepth - depth) * 2 + 4) (hpos : 1 ≤ rows) :
    (Stroke.openLoop depth).draw st = .ok () { st with
      grid := (st.grid.lay st.x st.y [⟨rows - 1, .white⟩]).lay st.x (st.y + (rows - 1 : Nat))
        [⟨1, st.shade.rgb⟩]
      loops := ⟨st.x, depth, none⟩ :: st.loops } := by
  have hrows' : (rows : Int) = st.loopRows depth := hrows
  have hlast : ((rows - 1 : Nat) : Int) = st.loopRows depth - 1 := by omega
  have hfoot : st.y + ((rows - 1 : Nat) : Int) = st.y + st.loopRows depth - 1 := by omega
  let shaft : Session :=
    { st with grid := st.grid.paint st.x st.y .white 1 (st.loopRows depth - 1) }
  change (ink >>= fun c ↦ (do
    fill st.x (st.y + st.loopRows depth - 1) c 1 1
    modify fun s ↦ { s with loops := ⟨s.x, depth, none⟩ :: s.loops } : Drawing Unit)) shaft = _
  rw [bind_of_ok (ink_eq (show shaft.shade.InPalette from hs)), hfoot]
  simp only [Grid.lay, hlast]
  rfl

private theorem draw_branch (st : Session) (hs : st.shade.InPalette) {depth anchor : Int}
    {outer : List OpenLoop} (hloops : st.loops = ⟨anchor, depth, none⟩ :: outer) {rows : Nat}
    (hrows : (rows : Int) = (st.maxDepth - depth) * 2 + 4) :
    (Stroke.branch depth).draw st = .ok () (Session.lay
      { st with loops := ⟨anchor, depth, some st.x⟩ :: outer }
      [⟨rows, st.shade.rgb⟩, ⟨1, .white⟩] st.shade) := by
  have hbranch : Drawing.branch depth st = (do paint (st.loopRows depth); white 1 : Drawing Unit)
      { st with loops := ⟨anchor, depth, some st.x⟩ :: outer } := by
    rw [Drawing.branch, get_bind]
    simp only [hloops, if_true]
    rfl
  exact hbranch.trans
    (draw_column { st with loops := ⟨anchor, depth, some st.x⟩ :: outer } hs hrows)

/-- An opening bracket draws its tile and leaves a pending loop behind. -/
theorem adds_open {st : Session} (hs : st.shade.InPalette) (hy : st.y = laneRow) {depth : Int}
    {rows : Nat} (hrows : (rows : Int) = (st.maxDepth - depth) * 2 + 4) (hpos : 1 ≤ rows) :
    ∃ st', instruction .loopOpen depth st = .ok () st' ∧
      st.Adds (Symbol.loopOpen.tile rows st.shade).width
        (Symbol.loopOpen.tile rows st.shade).finish (⟨st.x, depth, some (st.x + 9)⟩ :: st.loops)
        ((Symbol.loopOpen.tile rows st.shade).cell st.x) st' := by
  let cells := Session.glyphCells ["##", "#", "##"]
  let dotted : Session := { st with grid := st.grid.dot st.x Session.glyphTop cells }
  let opened : Session := { dotted with
    grid := (dotted.grid.lay st.x st.y [⟨rows - 1, .white⟩]).lay st.x (st.y + (rows - 1 : Nat))
      [⟨1, st.shade.rgb⟩]
    loops := ⟨st.x, depth, none⟩ :: st.loops }
  let tested := opened.lay (Stroke.row st.shade loopTest) (Stroke.rowShade st.shade loopTest)
  have hwidth : (Stroke.row st.shade loopTest).length = 9 := by
    rw [Stroke.length_row]
    decide
  have hglyph : (Stroke.glyph ["##", "#", "##"]).draw st = .ok () dotted := draw_glyph _ st
  have hopen : (Stroke.openLoop depth).draw dotted = .ok () opened :=
    draw_openLoop dotted hs hrows hpos
  have htest : loopTest.forM Stroke.draw opened = .ok () tested :=
    draw_row (by decide) opened hs
  have hbranch := draw_branch tested (Stroke.inPalette_rowShade hs loopTest) rfl hrows
  have hall : instruction .loopOpen depth st = .ok () _ :=
    (forM_lane (Template.loopOpen depth) st).trans <| (forM_cons_of_ok hglyph).trans <|
      (forM_cons_of_ok hopen).trans <| (forM_append_of_ok htest).trans <| forM_cons_of_ok hbranch
  refine ⟨_, hall, ?_, ?_, ?_, rfl, rfl, rfl, ?_⟩
  · intro p
    simp only [tested, opened, dotted, cells, Session.lay, ← Grid.lay_append, Grid.get?_lay,
      Grid.get?_dot, hy, Tile.cell, Symbol.tile, Shelf.cell, Int.natCast_zero, Int.add_zero,
      Option.or_assoc, Option.or_none]
  · intro hb
    exact ((((hb.dot _ _ _).lay _ _ _).lay _ _ _).lay _ _ _).lay _ _ _
  · simp only [tested, opened, dotted, Session.lay, Tile.width, Symbol.tile, List.length_append,
      Int.natCast_add, Int.add_assoc]
  · simp only [tested, opened, dotted, Session.lay, hwidth]
    rfl

private theorem returnSpan_eq {st : Session} {row left right : Int} {k : Rgb}
    (hleft : st.grid.get? (left, row) = some k)
    (hfree : ∀ z, left < z → z < right → st.grid.get? (z, row) = none) :
    returnSpan row (left + 1) (right - 1) st = .ok () { st with
      grid := st.grid.paint (left + 1) row .white (right - 1 - (left + 1) + 1) 1 } := by
  have hfind : (Grid.rectangle (left + 1) row (right - 1 + 1 - (left + 1)) 1).find?
      (fun p ↦ (st.grid.get? p).isSome) = none := by
    rw [List.find?_eq_none]
    rintro ⟨z, y⟩ hp
    obtain ⟨h1, h2, h3, h4⟩ := Grid.mem_rectangle.mp hp
    simp only at h1 h2 h3 h4
    obtain rfl : y = row := by omega
    rw [hfree z (by omega) (by omega)]
    simp
  rw [returnSpan, get_bind]
  simp only [Int.add_sub_cancel, hleft, hfind, Option.isNone_some, Bool.false_eq_true, if_false]
  rfl

private theorem get?_paint_span (g : Grid) (row left right : Int) (p : Pos) :
    (g.paint (left + 1) row .white (right - 1 - (left + 1) + 1) 1).get? p =
      (spanCell row left right p).or (g.get? p) := by
  have hmem : p ∈ Grid.rectangle (left + 1) row (right - 1 - (left + 1) + 1) 1 ↔
      p.2 = row ∧ left < p.1 ∧ p.1 < right := by
    rw [Grid.mem_rectangle]
    omega
  rw [Grid.get?_paint, spanCell]
  simp only [hmem]
  split <;> rfl

private theorem adds_span {st : Session} {row left right : Int} {k : Rgb}
    (hleft : st.grid.get? (left, row) = some k)
    (hfree : ∀ z, left < z → z < right → st.grid.get? (z, row) = none) :
    ∃ st', returnSpan row (left + 1) (right - 1) st = .ok () st' ∧
      st.Adds 0 st.shade st.loops (spanCell row left right) st' := by
  refine ⟨_, returnSpan_eq hleft hfree, ?_, ?_, ?_, rfl, rfl, rfl, rfl⟩
  · exact get?_paint_span st.grid row left right
  · exact fun hb ↦ hb.paint _ _ _ _ _
  · exact (Int.add_zero st.x).symm

private theorem spanCell_outside {row right : Int} (left : Int) {p : Pos}
    (h : p.2 = row → left < p.1 → ¬p.1 < right) : spanCell row left right p = none :=
  if_neg fun hp ↦ h hp.1 hp.2.1 hp.2.2

/-- Before its column, the closing bracket paints nothing further down. -/
theorem cell_loopClose (rows : Nat) (s : Shade) {x : Int} {p : Pos} (hx : p.1 < x + 2)
    (hy : laneRow + 2 ≤ p.2) : (Symbol.loopClose.tile rows s).cell x p = none := by
  have hupper : Column.cell x laneRow (Symbol.loopClose.tile rows s).upper p = none := by
    change Column.cell x laneRow [⟨2, _⟩, ⟨1, _⟩, ⟨rows, _⟩, ⟨1, _⟩] p = none
    simp only [Column.cell]
    rw [if_neg (by omega), if_neg (by omega), if_neg (by omega), if_neg (by omega)]
  have hglyph : Grid.dotCell x Session.glyphTop (Symbol.loopClose.tile rows s).glyph p = none := by
    have hrow : ∀ q ∈ (Symbol.loopClose.tile 0 ⟨0, 0⟩).glyph, q.2 ≤ 2 := by decide
    exact Tile.dotCell_eq_none hrow (by omega)
  rw [Tile.cell, hupper, hglyph]
  rfl

/-- Up to its column, the closing bracket changes nothing further down. -/
theorem exists_turned (st : Session) (hs : st.shade.InPalette) (hy : st.y = laneRow) (depth : Int) :
    ∃ turned, (Template.loopClose depth).dropLast.forM Stroke.draw st = .ok () turned ∧
      turned.x = st.x + 2 ∧ turned.y = st.y ∧ turned.maxDepth = st.maxDepth ∧
      turned.loops = st.loops ∧
      ∀ p : Pos, p.1 < st.x + 2 → laneRow + 2 ≤ p.2 → turned.grid.get? p = st.grid.get? p := by
  let dotted : Session := { st with
    grid := st.grid.dot st.x Session.glyphTop (Session.glyphCells ["##", " #", "##"]) }
  have hglyph : (Stroke.glyph ["##", " #", "##"]).draw st = .ok () dotted := draw_glyph _ st
  have hturned : loopTurn.forM Stroke.draw dotted = .ok () _ := draw_row (by decide) dotted hs
  refine ⟨_, (forM_cons_of_ok hglyph).trans hturned, ?_, rfl, rfl, rfl, ?_⟩
  · simp only [Session.lay, dotted, Stroke.length_row]
    rfl
  · intro p hp hrow
    have hnone := cell_loopClose 0 st.shade hp hrow
    rw [Tile.cell, Symbol.tile, Column.cell_append] at hnone
    simp only [Option.or_eq_none_iff] at hnone
    obtain ⟨⟨hcolumns, -⟩, -, hdots⟩ := hnone
    simp only [Session.lay, dotted, Grid.get?_lay, Grid.get?_dot, hy, hcolumns, hdots,
      Option.none_or]

private theorem draw_closeLoop (st : Session) (hs : st.shade.InPalette) {depth anchor turn : Int}
    {outer : List OpenLoop} (hloops : st.loops = ⟨anchor, depth, some turn⟩ :: outer) {rows : Nat}
    (hrows : (rows : Int) = (st.maxDepth - depth) * 2 + 4) :
    (Stroke.closeLoop depth).draw st =
      (do
        returnSpan (st.y + rows - 1) (turn + 1) (st.x - 1)
        returnSpan (st.y + rows - 1) (anchor + 1) (turn - 1) : Drawing Unit)
      (Session.lay { st with loops := outer } [⟨rows, st.shade.rgb⟩, ⟨1, .white⟩] st.shade) := by
  have hrows' : st.loopRows depth = rows := hrows.symm
  have hpaint : paint rows { st with loops := outer } =
      .ok () (Session.lay { st with loops := outer } [⟨rows, st.shade.rgb⟩] st.shade) :=
    draw_straight (show (Stroke.paint rows).Straight from Int.natCast_nonneg rows) _ hs
  have hwhite :
      white 1 (Session.lay { st with loops := outer } [⟨rows, st.shade.rgb⟩] st.shade) =
        .ok () (Session.lay { st with loops := outer }
          [⟨rows, st.shade.rgb⟩, ⟨1, .white⟩] st.shade) := by
    have hstraight : (Stroke.white 1).Straight := by decide
    refine (draw_straight hstraight (Session.lay _ _ _) hs).trans ?_
    rw [Session.lay_lay]
    rfl
  change closeLoop depth st = _
  rw [closeLoop, get_bind]
  simp only [hloops, set_bind, ne_eq, not_true_eq_false, if_false, hrows']
  rw [bind_of_ok hpaint, bind_of_ok hwhite]

private theorem adds_turn {st : Session} (hs : st.shade.InPalette) (hy : st.y = laneRow)
    {depth anchor turn : Int} {outer : List OpenLoop}
    (hloops : st.loops = ⟨anchor, depth, some turn⟩ :: outer) {rows : Nat}
    (hrows : (rows : Int) = (st.maxDepth - depth) * 2 + 4) {row : Int}
    (hrow : row = laneRow + rows - 1) :
    ∃ closed, (∀ st', (do
          returnSpan row (turn + 1) (st.x + 2 - 1)
          returnSpan row (anchor + 1) (turn - 1) : Drawing Unit) closed = .ok () st' →
        instruction .loopClose depth st = .ok () st') ∧
      st.Adds (Symbol.loopClose.tile rows st.shade).width
        (Symbol.loopClose.tile rows st.shade).finish outer
        ((Symbol.loopClose.tile rows st.shade).cell st.x) closed := by
  let cells := Session.glyphCells ["##", " #", "##"]
  let dotted : Session := { st with grid := st.grid.dot st.x Session.glyphTop cells }
  let turned := dotted.lay (Stroke.row st.shade loopTurn) (Stroke.rowShade st.shade loopTurn)
  let closed := Session.lay { turned with loops := outer } [⟨rows, turned.shade.rgb⟩, ⟨1, .white⟩]
    turned.shade
  have hglyph : (Stroke.glyph ["##", " #", "##"]).draw st = .ok () dotted := draw_glyph _ st
  have hturned : loopTurn.forM Stroke.draw dotted = .ok () turned :=
    draw_row (by decide) dotted hs
  have hx : turned.x = st.x + 2 := by
    simp only [turned, dotted, Session.lay, Stroke.length_row]
    rfl
  have hy' : turned.y + rows - 1 = row := by
    rw [hrow, ← hy]
    rfl
  have hclosed := draw_closeLoop turned (Stroke.inPalette_rowShade hs loopTurn) hloops hrows
  rw [hy'] at hclosed
  refine ⟨closed, ?_, ?_, ?_, ?_, rfl, rfl, rfl, rfl⟩
  · intro st' hspans
    rw [← hx] at hspans
    exact (forM_lane (Template.loopClose depth) st).trans <| (forM_cons_of_ok hglyph).trans <|
      (forM_append_of_ok hturned).trans <| forM_cons_of_ok (hclosed.trans hspans)
  · intro p
    simp only [closed, turned, dotted, cells, Session.lay, ← Grid.lay_append, Grid.get?_lay,
      Grid.get?_dot, hy, Tile.cell, Symbol.tile, Shelf.cell, Option.or_assoc, Option.none_or]
  · intro hb
    exact ((hb.dot _ _ _).lay _ _ _).lay _ _ _
  · simp only [closed, turned, dotted, Session.lay, Tile.width, Symbol.tile, List.length_append,
      Int.natCast_add, Int.add_assoc]

/-- A closing bracket draws its tile and the return row of its loop. -/
theorem adds_close {st : Session} (hs : st.shade.InPalette) (hy : st.y = laneRow)
    {depth anchor turn : Int} {outer : List OpenLoop}
    (hloops : st.loops = ⟨anchor, depth, some turn⟩ :: outer) {rows : Nat}
    (hrows : (rows : Int) = (st.maxDepth - depth) * 2 + 4) (hlow : 4 ≤ rows) {row : Int}
    (hrow : row = laneRow + rows - 1) (hturn : turn < st.x) (hanchor : anchor < turn)
    {k k' : Rgb} (hleft : st.grid.get? (anchor, row) = some k)
    (hright : st.grid.get? (turn, row) = some k')
    (hfree : ∀ z, anchor < z → z ≠ turn → z < st.x + 2 → st.grid.get? (z, row) = none) :
    ∃ st', instruction .loopClose depth st = .ok () st' ∧
      st.Adds (Symbol.loopClose.tile rows st.shade).width
        (Symbol.loopClose.tile rows st.shade).finish outer
        (fun p ↦ ((Symbol.loopClose.tile rows st.shade).cell st.x p).or
          ((spanCell row turn (st.x + 2) p).or (spanCell row anchor turn p))) st' := by
  obtain ⟨closed, hdraw, hclosed⟩ := adds_turn hs hy hloops hrows hrow
  -- before the bracket's column the return row is as it was
  have hsame (z : Int) (hz : z < st.x + 2) :
      closed.grid.get? (z, row) = st.grid.get? (z, row) := by
    rw [hclosed.get, cell_loopClose rows st.shade hz (by simp only; omega)]
    rfl
  obtain ⟨spanned, hspan, hspanned⟩ : ∃ spanned, _ ∧
      closed.Adds 0 closed.shade closed.loops (spanCell row turn (st.x + 2)) spanned := by
    apply adds_span (k := k')
    · rw [hsame turn (by omega), hright]
    · intro z h1 h2
      rw [hsame z h2]
      exact hfree z (by omega) (by omega) h2
  have hkeep (z : Int) (hz : z ≤ turn) : spanned.grid.get? (z, row) = st.grid.get? (z, row) := by
    rw [hspanned.get, spanCell_outside turn (by simp only; omega), Option.none_or, hsame z (by omega)]
  obtain ⟨last, hspan', hlast⟩ : ∃ last, _ ∧
      spanned.Adds 0 spanned.shade spanned.loops (spanCell row anchor turn) last := by
    apply adds_span (k := k)
    · rw [hkeep anchor (by omega), hleft]
    · intro z h1 h2
      rw [hkeep z (by omega)]
      exact hfree z h1 (by omega) (by omega)
  refine ⟨last, hdraw last ((bind_of_ok hspan).trans hspan'), ?_, ?_, ?_, ?_, ?_, ?_, ?_⟩
  · intro p
    rw [hlast.get, hspanned.get, hclosed.get]
    -- no cell is painted by two of the three
    by_cases hp : p.2 = row ∧ p.1 < st.x + 2
    · rw [cell_loopClose rows st.shade hp.2 (by omega), Option.none_or, Option.none_or]
      by_cases hside : p.1 < turn
      · rw [spanCell_outside turn (by omega), Option.none_or, Option.none_or]
      · rw [spanCell_outside anchor (by omega), Option.none_or, Option.or_none]
    · rw [spanCell_outside anchor (by omega), spanCell_outside turn (by omega),
        Option.none_or, Option.none_or, Option.none_or, Option.or_none]
  · exact fun hb ↦ hlast.bounded (hspanned.bounded (hclosed.bounded hb))
  · rw [hlast.x, hspanned.x, hclosed.x, Int.natCast_zero, Int.add_zero, Int.add_zero]
  · rw [hlast.y, hspanned.y, hclosed.y]
  · rw [hlast.shade, hspanned.shade, hclosed.shade]
  · rw [hlast.maxDepth, hspanned.maxDepth, hclosed.maxDepth]
  · rw [hlast.loops, hspanned.loops, hclosed.loops]

end Drawing

end BrainPiet
