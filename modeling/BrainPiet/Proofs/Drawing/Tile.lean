import BrainPiet.Proofs.Drawing.Row
import BrainPiet.Translate

/-!
# Tiles

The tile of an instruction is what its template paints: a glyph, columns along the lane and columns
below it. The templates that fork paint the lower track after the upper one and the join after both;
the three do not meet, so the tile is a function of the shade alone.
-/

namespace BrainPiet

open Template (laneRow)

/-- Columns that start somewhere below the lane. -/
structure Shelf where
  right : Nat
  down : Nat
  columns : List Column
  deriving DecidableEq, Repr

/-- What is painted for an instruction, counted from its first column. -/
structure Tile where
  /-- White cells, counted from the first row of the glyphs. -/
  glyph : List Pos := []
  /-- Columns along the lane. -/
  upper : List Column
  /-- Columns below the lane. -/
  below : List Shelf := []
  /-- The shade of the next column. -/
  finish : Shade
  deriving DecidableEq, Repr

namespace Stroke

/-- The cells of the glyphs among some strokes. -/
def dots (ks : List Stroke) : List Pos :=
  ks.flatMap fun
    | glyph lines => Session.glyphCells lines
    | _ => []

/-- A glyph, and then straight strokes. -/
def Headed (ks : List Stroke) : Prop :=
  ∃ lines rest, ks = glyph lines :: rest ∧ ∀ k ∈ rest, k.Straight

private theorem dots_eq_nil {ks : List Stroke} (h : ∀ k ∈ ks, k.Straight) : dots ks = [] := by
  rw [dots, List.flatMap_eq_nil_iff]
  intro k hk
  have := h k hk
  cases k <;> first | rfl | cases this

end Stroke

/-- What shelves show at a position, with the first column of the tile at `x`. -/
def Shelf.cell (x : Int) : List Shelf → Pos → Option Rgb
  | [], _ => none
  | b :: bs, p => (Column.cell (x + b.right) (laneRow + b.down) b.columns p).or (cell x bs p)

namespace Tile

/-- The tile of strokes along the lane. -/
def straight (s : Shade) (ks : List Stroke) : Tile where
  glyph := Stroke.dots ks
  upper := Stroke.row s ks
  finish := Stroke.rowShade s ks

/-- The tile of two tracks that fork behind a test and meet in a join. -/
def fork (s : Shade) (test grow turn low join : List Stroke) : Tile where
  glyph := Stroke.dots test
  upper := Stroke.row s test ++ Stroke.row (Stroke.rowShade s test) grow ++
    Stroke.row (Stroke.rowShade s (test ++ turn ++ low)) join
  below := [⟨(Stroke.row s test).length, 1, Stroke.row (Stroke.rowShade s (test ++ turn)) low⟩]
  finish := Stroke.rowShade s (test ++ turn ++ low ++ join)

/-- The number of columns. -/
def width (t : Tile) : Nat := t.upper.length

/-- What a tile shows at a position, with its first column at `x`. -/
def cell (t : Tile) (x : Int) (p : Pos) : Option Rgb :=
  (Column.cell x laneRow t.upper p).or
    ((Shelf.cell x t.below p).or (Grid.dotCell x Session.glyphTop t.glyph p))

/-- A glyph of three rows leaves a row free above the lane. -/
theorem dotCell_eq_none {cells : List Pos} (hcells : ∀ q ∈ cells, q.2 ≤ 2) {x : Int} {p : Pos}
    (hp : laneRow - 1 ≤ p.2) : Grid.dotCell x Session.glyphTop cells p = none := by
  rw [Grid.dotCell, if_neg]
  intro hmem
  have := hcells _ hmem
  simp only [laneRow, Session.glyphTop] at hp this
  omega

end Tile

/-- The session has painted some cells, and its cursor has moved along the lane. -/
structure Session.Adds (st : Session) (width : Nat) (finish : Shade) (loops : List OpenLoop)
    (cell : Pos → Option Rgb) (st' : Session) : Prop where
  get : ∀ p, st'.grid.get? p = (cell p).or (st.grid.get? p)
  bounded : st.grid.Bounded → st'.grid.Bounded
  x : st'.x = st.x + width
  y : st'.y = st.y
  shade : st'.shade = finish
  maxDepth : st'.maxDepth = st.maxDepth
  loops : st'.loops = loops

namespace Drawing

/-- Pieces on the lane are drawn as strokes. -/
theorem forM_lane (ks : List Stroke) (st : Session) :
    (ks.map Piece.lane).forM Piece.draw st = ks.forM Stroke.draw st := by
  have h : (ks.map Piece.lane).forM Piece.draw = ks.forM Stroke.draw := by
    induction ks with
    | nil => rfl
    | cons k ks ih =>
      change (do k.draw; (ks.map Piece.lane).forM Piece.draw) = _
      rw [ih]
      rfl
  rw [h]

private def headed (st : Session) (ks : List Stroke) : Session :=
  Session.lay { st with grid := st.grid.dot st.x Session.glyphTop (Stroke.dots ks) }
    (Stroke.row st.shade ks) (Stroke.rowShade st.shade ks)

private theorem draw_headed {ks : List Stroke} (h : Stroke.Headed ks) {st : Session}
    (hs : st.shade.InPalette) : ks.forM Stroke.draw st = .ok () (headed st ks) := by
  obtain ⟨lines, rest, rfl, hrest⟩ := h
  have hdots : Stroke.dots (.glyph lines :: rest) = Session.glyphCells lines := by
    rw [Stroke.dots, List.flatMap_cons, ← Stroke.dots, Stroke.dots_eq_nil hrest, List.append_nil]
  rw [headed, hdots]
  exact (forM_cons_of_ok (draw_glyph lines st)).trans (draw_row hrest _ hs)

private theorem adds_straight {ks : List Stroke} (h : Stroke.Headed ks) {st : Session}
    (hs : st.shade.InPalette) (hy : st.y = laneRow) :
    ∃ st', (ks.map Piece.lane).forM Piece.draw st = .ok () st' ∧
      st.Adds (Tile.straight st.shade ks).width (Tile.straight st.shade ks).finish st.loops
        ((Tile.straight st.shade ks).cell st.x) st' := by
  refine ⟨_, (forM_lane ks st).trans (draw_headed h hs), ?_, ?_, rfl, rfl, rfl, rfl, rfl⟩
  · intro p
    simp only [headed, Session.lay, Grid.get?_lay, Grid.get?_dot, hy, Tile.cell, Tile.straight, Shelf.cell,
      Option.none_or, Option.or_assoc]
  · intro hb
    exact (hb.dot _ _ _).lay _ _ _

private theorem cell_fork (x y : Int) (test join : List Column) {grow low : List Column}
    (hone : ∀ c ∈ grow, c.height = 1) (hlen : grow.length = low.length) (p : Pos)
    (rest : Option Rgb) :
    (Column.cell (x + test.length + low.length) y join p).or
        ((Column.cell (x + test.length) (y + 1) low p).or
          ((Column.cell (x + test.length) y grow p).or ((Column.cell x y test p).or rest))) =
      (Column.cell x y (test ++ grow ++ join) p).or
        ((Column.cell (x + test.length) (y + 1) low p).or rest) := by
  rw [Column.cell_append, Column.cell_append, List.length_append, Int.natCast_add, hlen,
    ← Int.add_assoc]
  by_cases htest : p.1 < x + test.length
  · rw [Column.cell_outside join (.inl (by omega)),
      Column.cell_outside low (.inl htest), Column.cell_outside grow (.inl htest)]
    simp
  · rw [Column.cell_outside test (.inr (.inl (by omega)))]
    by_cases hjoin : p.1 < x + test.length + low.length
    · rw [Column.cell_outside join (.inl hjoin)]
      cases hgrow : Column.cell (x + test.length) y grow p with
      | none => simp
      | some k =>
        -- the columns of the upper track end above the lower one
        obtain ⟨i, c, hi, -, -, hy, -⟩ := Column.cell_eq_some.mp hgrow
        have := hone c (List.mem_of_getElem? hi)
        rw [Column.cell_outside low (.inr (.inr (by omega)))]
        simp
    · rw [Column.cell_outside low (.inr (.inl (by omega))),
        Column.cell_outside grow (.inr (.inl (by omega)))]
      simp

private theorem draw_aside {ks : List Stroke} (h : ∀ k ∈ ks, k.Straight) (st : Session)
    (hs : st.shade.InPalette) :
    (Piece.aside ks).draw st =
      .ok () { st with grid := st.grid.lay st.x st.y (Stroke.row st.shade ks) } := by
  change Drawing.aside (ks.forM Stroke.draw) st = _
  rw [Drawing.aside, draw_row h st hs]
  simp only [Session.lay, Session.resume, Shade.wrap_of_inPalette hs]

private theorem draw_lower {turn low join : List Stroke} (hturn : ∀ k ∈ turn, k.Straight)
    (hlow : ∀ k ∈ low, k.Straight) (hjoin : ∀ k ∈ join, k.Straight) {st : Session}
    (hs : st.shade.InPalette) (hempty : Stroke.row st.shade turn = []) :
    (turn ++ Stroke.down 1 :: low ++ Stroke.down (-1) :: join).forM Stroke.draw st =
      .ok () (Session.lay
        { st with
          grid := st.grid.lay st.x (st.y + 1) (Stroke.row (Stroke.rowShade st.shade turn) low)
          x := st.x + (Stroke.row (Stroke.rowShade st.shade turn) low).length }
        (Stroke.row (Stroke.rowShade st.shade (turn ++ low)) join)
        (Stroke.rowShade st.shade (turn ++ low ++ join))) := by
  have hs1 := Stroke.inPalette_rowShade hs turn
  have hs2 := Stroke.inPalette_rowShade hs1 low
  have h1 : turn.forM Stroke.draw st =
      .ok () { st with shade := Stroke.rowShade st.shade turn } := by
    rw [draw_row hturn st hs, hempty]
    simp [Session.lay, Grid.lay]
  have h2 : (Stroke.down 1 :: low).forM Stroke.draw
        { st with shade := Stroke.rowShade st.shade turn } =
      .ok () (Session.lay { st with y := st.y + 1, shade := Stroke.rowShade st.shade turn }
        (Stroke.row (Stroke.rowShade st.shade turn) low)
        (Stroke.rowShade (Stroke.rowShade st.shade turn) low)) :=
    draw_row hlow { st with y := st.y + 1, shade := Stroke.rowShade st.shade turn } hs1
  have h12 := (forM_append_of_ok h1).trans h2
  have hy : st.y + 1 + -1 = st.y := Int.add_neg_cancel_right st.y 1
  have hdown : (Stroke.down (-1)).draw
        (Session.lay { st with y := st.y + 1, shade := Stroke.rowShade st.shade turn }
          (Stroke.row (Stroke.rowShade st.shade turn) low)
          (Stroke.rowShade (Stroke.rowShade st.shade turn) low)) =
      .ok () { st with
        grid := st.grid.lay st.x (st.y + 1) (Stroke.row (Stroke.rowShade st.shade turn) low)
        x := st.x + (Stroke.row (Stroke.rowShade st.shade turn) low).length
        shade := Stroke.rowShade (Stroke.rowShade st.shade turn) low } := by
    change EStateM.Result.ok () { Session.lay _ _ _ with y := st.y + 1 + -1 } = _
    rw [hy]
    rfl
  simp only [Stroke.rowShade_append]
  refine (forM_append_of_ok h12).trans ((forM_cons_of_ok hdown).trans ?_)
  refine (draw_row hjoin _ ?_).trans rfl
  exact hs2

private theorem adds_fork {test grow turn low join : List Stroke} (htest : Stroke.Headed test)
    (hgrow : ∀ k ∈ grow, k.Straight) (hturn : ∀ k ∈ turn, k.Straight)
    (hlow : ∀ k ∈ low, k.Straight) (hjoin : ∀ k ∈ join, k.Straight) {st : Session}
    (hs : st.shade.InPalette) (hy : st.y = laneRow)
    (hempty : Stroke.row (Stroke.rowShade st.shade test) turn = [])
    (hone : ∀ h ∈ grow.flatMap Stroke.heights, h = 1)
    (hlen : (grow.flatMap Stroke.heights).length = (low.flatMap Stroke.heights).length) :
    ∃ st', (test.map Piece.lane ++ [Piece.aside grow] ++
        (turn ++ Stroke.down 1 :: low ++ Stroke.down (-1) :: join).map Piece.lane).forM
          Piece.draw st = .ok () st' ∧
      st.Adds (Tile.fork st.shade test grow turn low join).width
        (Tile.fork st.shade test grow turn low join).finish st.loops
        ((Tile.fork st.shade test grow turn low join).cell st.x) st' := by
  have hs1 := Stroke.inPalette_rowShade hs test
  have h1 := (forM_lane test st).trans (draw_headed htest hs)
  have h2 : [Piece.aside grow].forM Piece.draw (headed st test) = _ :=
    forM_cons_of_ok (draw_aside hgrow (headed st test) hs1)
  have h12 := (forM_append_of_ok h1).trans h2
  have h3 := (forM_append_of_ok h12).trans ((forM_lane _ _).trans
    (draw_lower hturn hlow hjoin hs1 hempty))
  have hone' : ∀ c ∈ Stroke.row (Stroke.rowShade st.shade test) grow, c.height = 1 := by
    intro c hc
    apply hone
    rw [← Stroke.map_height_row (Stroke.rowShade st.shade test)]
    exact List.mem_map_of_mem hc
  have hlen' : (Stroke.row (Stroke.rowShade st.shade test) grow).length =
      (Stroke.row (Stroke.rowShade (Stroke.rowShade st.shade test) turn) low).length := by
    rw [Stroke.length_row, Stroke.length_row, hlen]
  refine ⟨_, h3, ?_, ?_, ?_, rfl, ?_, rfl, rfl⟩
  · intro p
    have hfork := cell_fork st.x laneRow (Stroke.row st.shade test)
      (Stroke.row (Stroke.rowShade st.shade (test ++ turn ++ low)) join) hone' hlen' p
    simp only [headed, Session.lay, Grid.get?_lay, Grid.get?_dot, hy, Tile.cell, Tile.fork, Shelf.cell,
      Stroke.rowShade_append, Option.or_assoc, Option.none_or] at hfork ⊢
    exact hfork _
  · intro hb
    exact ((((hb.dot _ _ _).lay _ _ _).lay _ _ _).lay _ _ _).lay _ _ _
  · simp only [headed, Session.lay, Tile.width, Tile.fork, Stroke.rowShade_append,
      List.length_append, Int.natCast_add, hlen', Int.add_assoc]
  · simp only [headed, Session.lay, Tile.fork, Stroke.rowShade_append]

end Drawing

namespace Template

open TapeStack
open Stroke (op code)

/-- The lower track of `advance`. -/
def advanceLow : List Stroke :=
  code (push 1) ++ [op .add] ++ code withdraw ++ [.paint 1, .white 1]

/-- Where the tracks of `advance` meet. -/
def advanceJoin : List Stroke := [.paint 2, .white 1]

/-- The lower track of `read`. -/
def readLow : List Stroke := [op .add, .paint 1, .white 1]

/-- Where the tracks of `read` meet. -/
def readJoin : List Stroke := [.emit .add 2, .paint 1, .white 1]

/-- The test at the beginning of a loop. -/
def loopTest : List Stroke :=
  [op .dup, op .dup, op .mul] ++ code (push 0) ++ [op .greater, op .not, op .switch]

/-- The turn at the end of a loop. -/
def loopTurn : List Stroke := code (push 2) ++ [op .pointer]

end Template

open Template in
/-- The tile of a symbol. The columns of a loop have as many codels as `rows` says. -/
def Symbol.tile (rows : Nat) (s : Shade) : Symbol → Tile
  | increment => .straight s Template.increment
  | decrement => .straight s Template.decrement
  | advance => .fork s advanceTest advanceGrow [.recolour ⟨1, 0⟩] advanceLow advanceJoin
  | retreat => .straight s Template.retreat
  | read => .fork s readTest readNothing [] readLow readJoin
  | write => .straight s Template.write
  | loopOpen =>
    { glyph := Session.glyphCells ["##", "#", "##"]
      upper := Stroke.row s loopTest ++ [⟨rows, (Stroke.rowShade s loopTest).rgb⟩, ⟨1, .white⟩]
      below := [⟨0, rows - 1, [⟨1, s.rgb⟩]⟩, ⟨0, 0, [⟨rows - 1, .white⟩]⟩]
      finish := Stroke.rowShade s loopTest }
  | loopClose =>
    { glyph := Session.glyphCells ["##", " #", "##"]
      upper := Stroke.row s loopTurn ++ [⟨rows, (Stroke.rowShade s loopTurn).rgb⟩, ⟨1, .white⟩]
      finish := Stroke.rowShade s loopTurn }

/-- The symbol acts on the tape; brackets do not. -/
def Symbol.IsAction (a : Symbol) : Prop := a ≠ loopOpen ∧ a ≠ loopClose

instance (a : Symbol) : Decidable a.IsAction := inferInstanceAs (Decidable (_ ∧ _))

/-- A symbol is an action or a bracket. -/
theorem Symbol.action_or_bracket (a : Symbol) : a.IsAction ∨ a = loopOpen ∨ a = loopClose := by
  cases a <;> decide

/-- An action draws its tile. -/
theorem Drawing.adds_action {a : Symbol} (ha : a.IsAction) (rows : Nat) (depth : Int)
    {st : Session} (hs : st.shade.InPalette) (hy : st.y = laneRow) :
    ∃ st', instruction a depth st = .ok () st' ∧
      st.Adds (a.tile rows st.shade).width (a.tile rows st.shade).finish st.loops
        ((a.tile rows st.shade).cell st.x) st' := by
  cases a with
  | increment => exact adds_straight ⟨_, _, rfl, by decide⟩ hs hy
  | decrement => exact adds_straight ⟨_, _, rfl, by decide⟩ hs hy
  | retreat => exact adds_straight ⟨_, _, rfl, by decide⟩ hs hy
  | write => exact adds_straight ⟨_, _, rfl, by decide⟩ hs hy
  | advance =>
    have htest : Stroke.Headed Template.advanceTest := ⟨_, _, rfl, by decide⟩
    have hgrow : ∀ k ∈ Template.advanceGrow, k.Straight := by decide
    have hturn : ∀ k ∈ [Stroke.recolour ⟨1, 0⟩], k.Straight := by decide
    have hlow : ∀ k ∈ Template.advanceLow, k.Straight := by decide
    have hjoin : ∀ k ∈ Template.advanceJoin, k.Straight := by decide
    exact adds_fork htest hgrow hturn hlow hjoin hs hy rfl (by decide) (by decide)
  | read =>
    have htest : Stroke.Headed Template.readTest := ⟨_, _, rfl, by decide⟩
    have hgrow : ∀ k ∈ Template.readNothing, k.Straight := by decide
    have hlow : ∀ k ∈ Template.readLow, k.Straight := by decide
    have hjoin : ∀ k ∈ Template.readJoin, k.Straight := by decide
    have hturn : ∀ k ∈ ([] : List Stroke), k.Straight := by decide
    exact adds_fork htest hgrow hturn hlow hjoin hs hy rfl (by decide) (by decide)
  | loopOpen => exact absurd rfl ha.1
  | loopClose => exact absurd rfl ha.2

end BrainPiet
