import BrainPiet.Proofs.Drawing.Bracket

/-!
# The shape of tiles

A tile keeps to its columns. Its first column has the shade that it starts with, and its last column
is one codel on the lane, of another colour than the tile behind it. An action reaches two rows down,
or three where the head advances, and a bracket as many rows as its loop has.
-/

namespace BrainPiet

open Template (laneRow loopTest loopTurn)

/-- What every tile keeps to, with the shade in the beginning and the number of rows. -/
structure Tile.Sound (t : Tile) (s : Shade) (bottom : Nat) : Prop where
  upper : ∀ c ∈ t.upper, c.height ≤ bottom
  below : ∀ b ∈ t.below, b.right + b.columns.length < t.width ∧
    ∀ c ∈ b.columns, b.down + c.height ≤ bottom
  glyph : ∀ q ∈ t.glyph, 0 ≤ q.1 ∧ q.1 + 1 < t.width ∧ 0 ≤ q.2 ∧ q.2 ≤ 2
  first : ∃ h, t.upper[0]? = some ⟨h + 1, s.rgb⟩
  last : ∃ k, t.upper[t.width - 1]? = some ⟨1, k⟩ ∧ k ≠ t.finish.rgb
  finish : t.finish.InPalette

namespace Tile

variable {t : Tile} {s : Shade} {bottom : Nat} {x : Int} {p : Pos}

/-- A tile has columns. -/
theorem Sound.width_pos (h : t.Sound s bottom) : 0 < t.width := by
  obtain ⟨k, hfirst⟩ := h.first
  have := (List.getElem?_eq_some_iff.mp hfirst).1
  exact this

/-- A tile that keeps to some rows keeps to more of them. -/
theorem Sound.mono (h : t.Sound s bottom) {more : Nat} (hle : bottom ≤ more) : t.Sound s more where
  upper c hc := Nat.le_trans (h.upper c hc) hle
  below b hb := ⟨(h.below b hb).1, fun c hc ↦ Nat.le_trans ((h.below b hb).2 c hc) hle⟩
  glyph := h.glyph
  first := h.first
  last := h.last
  finish := h.finish

/-- The glyph of a tile stands above the lane. -/
theorem Sound.dotCell (h : t.Sound s bottom) (hp : laneRow - 1 ≤ p.2) :
    Grid.dotCell x Session.glyphTop t.glyph p = none :=
  dotCell_eq_none (fun q hq ↦ (h.glyph q hq).2.2.2) hp

private theorem shelf_cell {bs : List Shelf} {k : Rgb} (hk : Shelf.cell x bs p = some k) :
    ∃ b ∈ bs, Column.cell (x + b.right) (laneRow + b.down) b.columns p = some k := by
  induction bs with
  | nil => cases hk
  | cons b bs ih =>
    rw [Shelf.cell, Option.or_eq_some_iff] at hk
    rcases hk with hk | ⟨-, hk⟩
    · exact ⟨b, List.mem_cons_self, hk⟩
    · obtain ⟨b', hb', hcell⟩ := ih hk
      exact ⟨b', List.mem_cons_of_mem _ hb', hcell⟩

/-- What a tile shows, it shows in its columns, below the first row and above its bottom. -/
theorem Sound.bounds (h : t.Sound s bottom) (hb : 0 < bottom) {k : Rgb}
    (hk : t.cell x p = some k) :
    x ≤ p.1 ∧ p.1 < x + t.width ∧ 1 ≤ p.2 ∧ p.2 < laneRow + bottom := by
  rw [cell, Option.or_eq_some_iff, Option.or_eq_some_iff] at hk
  simp only [laneRow]
  rcases hk with hk | ⟨-, hk | ⟨-, hk⟩⟩
  · obtain ⟨i, c, hi, hx, hy, hy', -⟩ := Column.cell_eq_some.mp hk
    have hlt : i < t.upper.length := (List.getElem?_eq_some_iff.mp hi).1
    have hc := h.upper c (List.mem_of_getElem? hi)
    simp only [laneRow, width] at hy hy' ⊢
    omega
  · obtain ⟨b, hmem, hcell⟩ := shelf_cell hk
    obtain ⟨i, c, hi, hx, hy, hy', -⟩ := Column.cell_eq_some.mp hcell
    have hlt : i < b.columns.length := (List.getElem?_eq_some_iff.mp hi).1
    obtain ⟨hw, hcols⟩ := h.below b hmem
    have hc := hcols c (List.mem_of_getElem? hi)
    simp only [laneRow] at hy hy'
    omega
  · rw [Grid.dotCell] at hk
    split at hk
    · next hmem =>
      have := h.glyph _ hmem
      simp only [Session.glyphTop] at this
      omega
    · cases hk

/-- In its last column a tile shows one codel on the lane. -/
theorem Sound.last_column (h : t.Sound s bottom) {k : Rgb} (hk : t.cell x p = some k)
    (hp : p.1 = x + t.width - 1) : p.2 = laneRow ∧ k ≠ t.finish.rgb := by
  obtain ⟨k', hlast, hne⟩ := h.last
  have hpos := h.width_pos
  rw [cell, Option.or_eq_some_iff, Option.or_eq_some_iff] at hk
  rcases hk with hk | ⟨-, hk | ⟨-, hk⟩⟩
  · obtain ⟨i, c, hi, hx, hy, hy', rfl⟩ := Column.cell_eq_some.mp hk
    obtain rfl : i = t.width - 1 := by omega
    rw [hi, Option.some.injEq] at hlast
    subst hlast
    simp only at hy'
    exact ⟨by omega, hne⟩
  · obtain ⟨b, hmem, hcell⟩ := shelf_cell hk
    obtain ⟨i, c, hi, hx, -⟩ := Column.cell_eq_some.mp hcell
    have hlt : i < b.columns.length := (List.getElem?_eq_some_iff.mp hi).1
    have := (h.below b hmem).1
    omega
  · rw [Grid.dotCell] at hk
    split at hk
    · next hmem =>
      have := (h.glyph _ hmem).2.1
      simp only at this
      omega
    · cases hk

/-- The first codel of a tile on the lane has the shade that the tile starts with. -/
theorem Sound.cell_first (h : t.Sound s bottom) : t.cell x (x, laneRow) = some s.rgb := by
  obtain ⟨k, hfirst⟩ := h.first
  have hcell := Column.cell_of_getElem? (x := x) (y := laneRow) hfirst (Nat.succ_pos k)
  simp only [Int.natCast_zero, Int.add_zero] at hcell
  rw [cell, hcell]
  rfl

end Tile

private theorem getElem?_width_sub_one {t : Tile} {cs : List Column} {c : Column}
    (h : t.upper = cs ++ [c]) : t.upper[t.width - 1]? = some c := by
  rw [Tile.width, h, List.length_append, List.length_singleton, Nat.add_sub_cancel,
    List.getElem?_concat_length]

private theorem height_le_of_row {s : Shade} {ks : List Stroke} {bottom : Nat}
    (h : ∀ n ∈ ks.flatMap Stroke.heights, n ≤ bottom) : ∀ c ∈ Stroke.row s ks, c.height ≤ bottom := by
  intro c hc
  apply h
  rw [← Stroke.map_height_row s]
  exact List.mem_map_of_mem hc

private theorem sound_straight {s : Shade} (hs : s.InPalette) (ks : List Stroke) (o : Operation)
    {bottom : Nat} (hheight : ∀ n ∈ (ks ++ [Stroke.op o]).flatMap Stroke.heights, n ≤ bottom)
    (hglyph : ∀ q ∈ Stroke.dots (ks ++ [Stroke.op o]), 0 ≤ q.1 ∧
      q.1 + 1 < ((ks ++ [Stroke.op o]).flatMap Stroke.heights).length ∧ 0 ≤ q.2 ∧ q.2 ≤ 2)
    (h : Nat) (hfirst : (Stroke.row s (ks ++ [Stroke.op o]))[0]? = some ⟨h + 1, s.rgb⟩) :
    (Tile.straight s (ks ++ [Stroke.op o])).Sound s bottom := by
  have hpal := Stroke.inPalette_rowShade hs ks
  refine ⟨height_le_of_row hheight, fun b hb ↦ (nomatch hb), ?_, ⟨h, hfirst⟩, ?_,
    Stroke.inPalette_rowShade hs _⟩
  · intro q hq
    rw [Tile.width, Tile.straight, Stroke.length_row]
    exact hglyph q hq
  · refine ⟨(Stroke.rowShade s ks).rgb, ?_, ?_⟩
    · exact getElem?_width_sub_one (Stroke.row_append s ks [.op o])
    · have hfin : (Tile.straight s (ks ++ [.op o])).finish = (Stroke.rowShade s ks).step o :=
        Stroke.rowShade_append s ks [.op o]
      rw [hfin]
      exact Shade.rgb_ne hpal (Shade.inPalette_step _ _) (Shade.step_ne _ o).symm

private theorem sound_fork {s : Shade} (hs : s.InPalette) (test grow turn low join : List Stroke)
    {bottom : Nat} (htest : ∀ n ∈ test.flatMap Stroke.heights, n ≤ bottom + 1)
    (hgrow : ∀ n ∈ grow.flatMap Stroke.heights, n ≤ bottom + 1)
    (hlow : ∀ n ∈ low.flatMap Stroke.heights, n ≤ bottom)
    (hjoin : ∀ n ∈ join.flatMap Stroke.heights, n ≤ bottom + 1)
    (hlen : (low.flatMap Stroke.heights).length = (grow.flatMap Stroke.heights).length)
    (hglyph : ∀ q ∈ Stroke.dots test, 0 ≤ q.1 ∧
      q.1 + 1 < (test.flatMap Stroke.heights).length ∧ 0 ≤ q.2 ∧ q.2 ≤ 2)
    (h : Nat) (hfirst : (Stroke.row s test)[0]? = some ⟨h + 1, s.rgb⟩) :
    (Tile.fork s test grow turn low (join ++ [.white 1])).Sound s (bottom + 1) := by
  have hrow : (Tile.fork s test grow turn low (join ++ [.white 1])).upper =
      Stroke.row s test ++ Stroke.row (Stroke.rowShade s test) grow ++
        Stroke.row (Stroke.rowShade s (test ++ turn ++ low)) join ++ [⟨1, .white⟩] := by
    rw [Tile.fork, Stroke.row_append, ← List.append_assoc]
    rfl
  have hwidth : (Tile.fork s test grow turn low (join ++ [.white 1])).width =
      (Stroke.row s test).length + (Stroke.row (Stroke.rowShade s test) grow).length +
        (Stroke.row (Stroke.rowShade s (test ++ turn ++ low)) join).length + 1 := by
    rw [Tile.width, hrow]
    simp only [List.length_append, List.length_cons, List.length_nil]
  refine ⟨?_, ?_, ?_, ?_, ?_, Stroke.inPalette_rowShade hs _⟩
  · intro c hc
    rw [hrow, List.mem_append, List.mem_append, List.mem_append, List.mem_singleton] at hc
    rcases hc with ((hc | hc) | hc) | rfl
    · exact height_le_of_row htest c hc
    · exact height_le_of_row hgrow c hc
    · exact height_le_of_row hjoin c hc
    · exact Nat.le_add_left 1 bottom
  · intro b hb
    obtain rfl : b = ⟨(Stroke.row s test).length, 1,
      Stroke.row (Stroke.rowShade s (test ++ turn)) low⟩ := List.mem_singleton.mp hb
    refine ⟨?_, fun c hc ↦ ?_⟩
    · rw [hwidth]
      simp only [Stroke.length_row, hlen]
      omega
    · have := height_le_of_row hlow c hc
      simp only
      omega
  · intro q hq
    have := hglyph q hq
    rw [hwidth, Stroke.length_row s test]
    omega
  · refine ⟨h, ?_⟩
    have hlt := (List.getElem?_eq_some_iff.mp hfirst).1
    rw [hrow, List.append_assoc, List.append_assoc, List.getElem?_append_left hlt, hfirst]
  · refine ⟨.white, ?_, (Shade.rgb_ne_white (Stroke.inPalette_rowShade hs _)).symm⟩
    exact getElem?_width_sub_one hrow

/-- How many rows the tile of an action takes from the lane on. -/
def Symbol.reach : Symbol → Nat
  | advance => 3
  | _ => 2

/-- The tile of an action is sound. -/
theorem Symbol.sound_reach {a : Symbol} (ha : a.IsAction) (rows : Nat) {s : Shade}
    (hs : s.InPalette) : (a.tile rows s).Sound s a.reach := by
  cases a with
  | increment =>
    exact sound_straight hs Template.increment.dropLast .add (by decide) (by decide) 0 rfl
  | decrement =>
    exact sound_straight hs Template.decrement.dropLast .sub (by decide) (by decide) 0 rfl
  | advance =>
    exact sound_fork hs Template.advanceTest Template.advanceGrow [.recolour ⟨1, 0⟩]
      Template.advanceLow [.paint 2] (by decide) (by decide) (by decide) (by decide) (by decide)
      (by decide) 1 rfl
  | retreat =>
    exact sound_straight hs Template.retreat.dropLast .roll (by decide) (by decide) 1 rfl
  | read =>
    exact sound_fork hs Template.readTest Template.readNothing [] Template.readLow
      [.emit .add 2, .paint 1] (by decide) (by decide) (by decide) (by decide) (by decide)
      (by decide) 0 rfl
  | write => exact sound_straight hs Template.write.dropLast .outChar (by decide) (by decide) 0 rfl
  | loopOpen => exact absurd rfl ha.1
  | loopClose => exact absurd rfl ha.2

/-- The tile of no action takes more than three rows. -/
theorem Symbol.sound_action {a : Symbol} (ha : a.IsAction) (rows : Nat) {s : Shade}
    (hs : s.InPalette) : (a.tile rows s).Sound s 3 :=
  (sound_reach ha rows hs).mono (by cases a <;> decide)

private theorem sound_column {s : Shade} {rows : Nat} (hrows : 4 ≤ rows) {t : Tile}
    {ks : List Stroke} {k : Rgb} (hupper : t.upper = Stroke.row s ks ++ [⟨rows, k⟩, ⟨1, .white⟩])
    (hheight : ∀ n ∈ ks.flatMap Stroke.heights, n ≤ 2)
    (hbelow : ∀ b ∈ t.below, b.right + b.columns.length < t.width ∧
      ∀ c ∈ b.columns, b.down + c.height ≤ rows)
    (hglyph : ∀ q ∈ t.glyph, 0 ≤ q.1 ∧ q.1 + 1 < t.width ∧ 0 ≤ q.2 ∧ q.2 ≤ 2)
    {h : Nat} (hfirst : t.upper[0]? = some ⟨h + 1, s.rgb⟩) (hfin : t.finish.InPalette) :
    t.Sound s rows := by
  refine ⟨?_, hbelow, hglyph, ⟨h, hfirst⟩, ⟨.white, ?_, (Shade.rgb_ne_white hfin).symm⟩, hfin⟩
  · intro c hc
    rw [hupper, List.mem_append, List.mem_cons, List.mem_singleton] at hc
    rcases hc with hc | rfl | rfl
    · have := height_le_of_row hheight c hc
      omega
    · exact Nat.le_refl rows
    · simp only
      omega
  · rw [List.append_cons] at hupper
    exact getElem?_width_sub_one hupper

/-- The tile of a bracket reaches as far down as its loop. -/
theorem Symbol.sound_bracket {a : Symbol} (ha : ¬a.IsAction) {rows : Nat} (hrows : 4 ≤ rows)
    {s : Shade} (hs : s.InPalette) : (a.tile rows s).Sound s rows := by
  cases a with
  | loopOpen =>
    have hwidth : (loopOpen.tile rows s).width = 11 := rfl
    have hglyph : ∀ q ∈ Session.glyphCells ["##", "#", "##"],
        0 ≤ q.1 ∧ q.1 + 1 < (11 : Nat) ∧ 0 ≤ q.2 ∧ q.2 ≤ 2 := by decide
    refine sound_column (h := 0) hrows rfl (by decide) ?_ hglyph rfl
      (Stroke.inPalette_rowShade hs _)
    intro b hb
    rw [hwidth]
    rw [tile, List.mem_cons, List.mem_singleton] at hb
    rcases hb with rfl | rfl
    · refine ⟨Nat.one_lt_succ_succ 9, fun c hc ↦ ?_⟩
      rw [List.mem_singleton.mp hc]
      simp only
      omega
    · refine ⟨Nat.one_lt_succ_succ 9, fun c hc ↦ ?_⟩
      rw [List.mem_singleton.mp hc]
      simp only
      omega
  | loopClose =>
    have hglyph : ∀ q ∈ Session.glyphCells ["##", " #", "##"],
        0 ≤ q.1 ∧ q.1 + 1 < (4 : Nat) ∧ 0 ≤ q.2 ∧ q.2 ≤ 2 := by decide
    exact sound_column (h := 1) hrows rfl (by decide) (by rintro _ ⟨⟩) hglyph rfl
      (Stroke.inPalette_rowShade hs _)
  | _ => exact absurd (by decide) ha

/-- On its last row an opening bracket shows the foot and the column by which the loop is left. -/
theorem Symbol.cell_loopOpen {rows : Nat} (hrows : 4 ≤ rows) (s : Shade) (x : Int) {row : Int}
    (hrow : row = laneRow + rows - 1) :
    (loopOpen.tile rows s).cell x (x, row) = some s.rgb ∧
      (loopOpen.tile rows s).cell x (x + 9, row) = some (Stroke.rowShade s loopTest).rgb ∧
      ∀ z, x < z → z ≠ x + 9 → (loopOpen.tile rows s).cell x (z, row) = none := by
  have hheight : ∀ n ∈ loopTest.flatMap Stroke.heights, n ≤ 1 := by decide
  have hlen : (Stroke.row s loopTest).length = 9 := rfl
  -- only the column of the loop reaches so far down
  have hcolumn {z : Int} {k : Rgb}
      (hk : Column.cell x laneRow (loopOpen.tile rows s).upper (z, row) = some k) : z = x + 9 := by
    obtain ⟨i, c, hi, hx, -, hy, -⟩ := Column.cell_eq_some.mp hk
    simp only at hx hy
    rw [tile] at hi
    by_cases hlt : i < 9
    · rw [List.getElem?_append_left (by omega)] at hi
      have := height_le_of_row hheight c (List.mem_of_getElem? hi)
      omega
    · rw [List.getElem?_append_right (by omega), hlen] at hi
      obtain ⟨j, rfl⟩ : ∃ j, i = 9 + j := ⟨i - 9, by omega⟩
      rw [Nat.add_sub_cancel_left] at hi
      rcases j with _ | _ | j
      · omega
      · cases hi
        simp only at hy
        omega
      · cases hi
  have hglyph (z : Int) :
      Grid.dotCell x Session.glyphTop (loopOpen.tile rows s).glyph (z, row) = none := by
    have hlow : ∀ q ∈ (loopOpen.tile 0 ⟨0, 0⟩).glyph, q.2 ≤ 2 := by decide
    exact Tile.dotCell_eq_none hlow (by simp only; omega)
  refine ⟨?_, ?_, ?_⟩
  · have hupper : Column.cell x laneRow (loopOpen.tile rows s).upper (x, row) = none := by
      rw [Option.eq_none_iff_forall_ne_some]
      intro k hk
      have := hcolumn hk
      omega
    have hfoot : Column.cell (x + (0 : Nat)) (laneRow + (rows - 1 : Nat)) [⟨1, s.rgb⟩] (x, row) =
        some s.rgb := by
      rw [Column.cell, if_pos]
      simp only
      omega
    rw [Tile.cell, hupper, tile, Shelf.cell, hfoot]
    rfl
  · have hnine : (loopOpen.tile rows s).upper[9]? =
        some ⟨rows, (Stroke.rowShade s loopTest).rgb⟩ := rfl
    have hcell := Column.cell_of_getElem? (x := x) (y := laneRow) hnine
      (show rows - 1 < rows by omega)
    have hpos : ((x + (9 : Nat), laneRow + (rows - 1 : Nat)) : Pos) = (x + 9, row) :=
      Prod.ext rfl (by simp only; omega)
    rw [hpos] at hcell
    rw [Tile.cell, hcell]
    rfl
  · intro z hz hne
    have hupper : Column.cell x laneRow (loopOpen.tile rows s).upper (z, row) = none := by
      rw [Option.eq_none_iff_forall_ne_some]
      intro k hk
      exact hne (hcolumn hk)
    have hshelf (y : Int) (col : Column) : Column.cell (x + (0 : Nat)) y [col] (z, row) = none :=
      Column.cell_outside _ (.inr (.inl (by simp only [List.length_singleton]; omega)))
    rw [Tile.cell, hupper, hglyph, tile]
    simp only [Shelf.cell, hshelf]
    rfl

end BrainPiet
