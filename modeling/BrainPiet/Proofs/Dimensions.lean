import BrainPiet.Proofs.Drawing.Extent
import BrainPiet.Proofs.Parsing

/-!
# How large a picture is

The tile of each symbol has a fixed number of columns, so the width of a picture counts the symbols
of its program. The outermost loops return on the last row of the picture. Where there is no loop,
the lower track of an advancing head is on the last row, or else the prologue.
-/

namespace BrainPiet

open Template (laneRow)

namespace Symbol

/-- The number of columns of a symbol's tile. -/
def width : Symbol → Nat
  | increment | decrement | loopClose => 4
  | advance => 47
  | retreat => 19
  | loopOpen => 11
  | read => 18
  | write => 2

private theorem width_tile (a : Symbol) (rows : Nat) (s : Shade) : (a.tile rows s).width = a.width := by
  cases a with
  | loopOpen => rfl
  | loopClose => rfl
  | advance =>
    simp only [tile, Tile.width, Tile.fork, List.length_append, Stroke.length_row]
    decide
  | read =>
    simp only [tile, Tile.width, Tile.fork, List.length_append, Stroke.length_row]
    decide
  | _ =>
    simp only [tile, Tile.width, Tile.straight, Stroke.length_row]
    decide

private theorem exists_cell_advance (rows : Nat) (s : Shade) (x : Int) :
    ∃ q k, (advance.tile rows s).cell x q = some k ∧ q.2 = laneRow + 2 := by
  let low := Stroke.row (Stroke.rowShade s (Template.advanceTest ++ [.recolour ⟨1, 0⟩]))
    Template.advanceLow
  have htwo : 2 ∈ low.map (·.height) := by
    rw [Stroke.map_height_row]
    decide
  obtain ⟨col, hcol, hheight⟩ := List.mem_map.mp htwo
  obtain ⟨i, hi⟩ := List.mem_iff_getElem?.mp hcol
  let left := x + (Stroke.row s Template.advanceTest).length
  have hlow : Column.cell left (laneRow + (1 : Nat)) low (left + i, laneRow + 2) =
      some col.colour :=
    Column.cell_eq_some.mpr ⟨i, col, hi, rfl, by simp only; omega, by simp only; omega, rfl⟩
  -- the upper track does not matter, since it would be seen there instead
  cases hupper : Column.cell x laneRow (advance.tile rows s).upper (left + i, laneRow + 2) with
  | some k => exact ⟨(left + i, laneRow + 2), k, by rw [Tile.cell, hupper]; rfl, rfl⟩
  | none =>
    refine ⟨(left + i, laneRow + 2), col.colour, ?_, rfl⟩
    rw [Tile.cell, hupper, tile, Tile.fork, Shelf.cell, hlow]
    rfl

end Symbol

/-- The number of columns of the tiles of some instructions. -/
def tilesWidth : List Instruction → Nat
  | [] => 0
  | i :: code => i.symbol.width + tilesWidth code

namespace Cursor

variable {D : Nat} {c : Cursor} {i : Instruction}

private theorem x_next_width (D : Nat) (c : Cursor) (i : Instruction) :
    (c.next D i).x = c.x + i.symbol.width := by
  rw [← Symbol.width_tile i.symbol (loopRows D i.depth) c.shade]
  rfl

private theorem x_run (D : Nat) (c : Cursor) (code : List Instruction) :
    (c.run D code).x = c.x + tilesWidth code := by
  induction code generalizing c with
  | nil => exact (Int.add_zero c.x).symm
  | cons i code ih =>
    have hstep : (c.run D (i :: code)).x = ((c.next D i).run D code).x := rfl
    rw [hstep, ih, x_next_width, tilesWidth, Int.natCast_add, Int.add_assoc]

/-- Between the first cursor and the last, each column belongs to the tile of an instruction. -/
theorem exists_between {code : List Instruction} {z : Int} (hz : c.x ≤ z)
    (hz' : z < (c.run D code).x) :
    ∃ pre i post, code = pre ++ i :: post ∧ (c.run D pre).x ≤ z ∧
      z < ((c.run D pre).next D i).x := by
  induction code generalizing c with
  | nil => exact absurd hz' (Int.not_lt.mpr hz)
  | cons i code ih =>
    by_cases hlt : z < (c.next D i).x
    · exact ⟨[], i, code, rfl, hz, hlt⟩
    · obtain ⟨pre, j, post, rfl, hle, hlt'⟩ := ih (Int.not_lt.mp hlt) hz'
      exact ⟨i :: pre, j, post, rfl, hle, hlt'⟩

private theorem Fits.one_le_depth (hf : c.Fits D i) (ha : ¬i.symbol.IsAction) : 1 ≤ i.depth := by
  cases hsym : i.symbol with
  | loopOpen =>
    rw [Fits, hsym] at hf
    omega
  | loopClose =>
    rw [Fits, hsym] at hf
    omega
  | _ => exact absurd (by rw [hsym]; decide) ha

end Cursor

private theorem OpenLoop.Nested.one_le_depth {ls : List OpenLoop} (h : Nested ls) {l : OpenLoop}
    (hl : l ∈ ls) : 1 ≤ l.depth := by
  induction ls with
  | nil => cases hl
  | cons l' ls ih =>
    rcases List.mem_cons.mp hl with rfl | hl
    · rw [h.1]
      omega
    · exact ih h.2 hl

private theorem Nests.exists_outermost {code : List Instruction} (h : Nests 0 code) {i : Instruction}
    (hi : i ∈ code) (hdepth : 1 ≤ i.depth) : ⟨.loopOpen, 1⟩ ∈ code := by
  induction code with
  | nil => cases hi
  | cons j code ih =>
    obtain ⟨a, d⟩ := j
    rcases a.action_or_bracket with ha | rfl | rfl
    · obtain ⟨rfl, hrest⟩ := (Nests.cons_action ha).mp h
      rcases List.mem_cons.mp hi with rfl | hi
      · exact absurd hdepth (Nat.not_succ_le_zero 0)
      · exact List.mem_cons_of_mem _ (ih hrest hi)
    · obtain ⟨rfl, -⟩ := Nests.cons_open.mp h
      exact List.mem_cons_self
    · exact absurd (Nests.cons_close.mp h).1 (Nat.lt_irrefl 0)

/-- So many rows hold the lane, the lower track of an advancing head and the return rows of loops. -/
structure EnoughRows (D : Nat) (code : List Instruction) (n : Nat) : Prop where
  lane : 7 ≤ n
  advance : ∀ i ∈ code, i.symbol = .advance → 8 ≤ n
  loop : 1 ≤ D → 2 * D + 7 ≤ n

namespace EnoughRows

variable {D n : Nat} {code : List Instruction}

private theorem returnRow_lt (hn : EnoughRows D code n) {d : Int} (hone : 1 ≤ d) (hle : d ≤ D) :
    returnRow D d < n := by
  have := hn.loop (by omega)
  rw [returnRow, laneRow]
  omega

private theorem tile_lt (hn : EnoughRows D code n) {c : Cursor} {st : Session} {i : Instruction} {p : Pos}
    {k : Rgb} (h : c.Ready D st) (hf : c.Fits D i) (hi : i ∈ code) (hle : i.depth ≤ D)
    (hk : (i.tile D c.shade).cell c.x p = some k) : p.2 < n := by
  have hlane := hn.lane
  by_cases ha : i.symbol.IsAction
  · have hsound := Symbol.sound_reach ha (loopRows D i.depth) h.palette
    have hrow := (hsound.bounds (by cases i.symbol <;> decide) hk).2.2.2
    by_cases hsym : i.symbol = .advance
    · have := hn.advance i hi hsym
      rw [hsym, Symbol.reach, laneRow] at hrow
      omega
    · have hreach : i.symbol.reach = 2 := by
        cases hs : i.symbol <;> first | rfl | exact absurd hs hsym
      rw [hreach, laneRow] at hrow
      omega
  · have hfour : 4 ≤ loopRows D i.depth := Nat.le_add_left 4 _
    have hrow := ((Symbol.sound_bracket ha hfour h.palette).bounds (by omega) hk).2.2.2
    have hone := hf.one_le_depth ha
    have := hn.loop (by omega)
    rw [laneRow, loopRows] at hrow
    omega

end EnoughRows

namespace Drawn

variable {D : Nat} {code : List Instruction} {g : Grid}

private theorem get?_tile (h : Drawn D code g) {pre post : List Instruction} {i : Instruction}
    (hcode : code = pre ++ i :: post) {q : Pos} {k : Rgb}
    (hk : (i.tile D ((Cursor.start code).run D pre).shade).cell
      ((Cursor.start code).run D pre).x q = some k) : g.get? q = some k := by
  obtain ⟨st, st', -, hready, -, hdraws, -, hkeeps⟩ := h.tile pre i post hcode
  apply hkeeps.painted q k (hready.tile_spec hk).2.1
  rw [hdraws.get, Cursor.cell, hk]
  rfl

/-- Enough rows hold all that is painted. -/
theorem row_lt (h : Drawn D code g) (hD : ∀ i ∈ code, i.depth ≤ D) {n : Nat}
    (hn : EnoughRows D code n) {p : Pos} {k : Rgb} (hk : g.get? p = some k) : p.2 < n := by
  have hlane := hn.lane
  by_cases hstart : p.1 < (Cursor.start code).x
  · rw [h.opening p hstart] at hk
    have := (startCell_bounds hk).2.2
    omega
  by_cases hend : ((Cursor.start code).run D code).x ≤ p.1
  · rw [h.epilogue p hend] at hk
    have := (epilogueCell_bounds hk).2.2.2
    omega
  obtain ⟨pre, i, post, hcode, hle, hlt⟩ :=
    Cursor.exists_between (Int.not_lt.mp hstart) (Int.not_le.mp hend)
  obtain ⟨st, st', -, hready, hfits, hdraws, hready', hkeeps⟩ := h.tile pre i post hcode
  cases hnew : st'.grid.get? p with
  | none =>
    -- painted later, when a loop around the instruction was closed
    obtain ⟨-, -, l, hl, hrow, -⟩ := hkeeps.spared p k hlt hnew hk
    rw [hrow]
    exact hn.returnRow_lt (hready'.nested.one_le_depth hl) (hready'.spared l hl).1
  | some k' =>
    rw [hdraws.get, hready.blank p hle, Option.or_none, Cursor.cell, Option.or_eq_some_iff] at hnew
    rcases hnew with htile | ⟨-, hspan⟩
    · have hi : i ∈ code := by
        rw [hcode]
        exact List.mem_append_right _ List.mem_cons_self
      exact hn.tile_lt hready hfits hi (hD i hi) htile
    · obtain ⟨-, -, -, l, ls, hloops, -, hrow, -, hle⟩ := hready.span_spec hspan
      have hl : l ∈ ((Cursor.start code).run D pre).loops := by
        rw [hloops]
        exact List.mem_cons_self
      rw [hrow]
      exact hn.returnRow_lt (hready.nested.one_le_depth hl) hle

private theorem exists_seventh_row (h : Drawn D code g) : ∃ q k, g.get? q = some k ∧ q.2 + 1 = 7 := by
  have hstart := Cursor.three_le_start code
  have hcell := h.opening (2, 6) (by simp only; omega)
  rw [startCell, Column.cell_outside _ (.inl (by decide)), ite_self, Option.none_or] at hcell
  exact ⟨(2, 6), _, hcell, rfl⟩

private theorem exists_eighth_row (h : Drawn D code g) {i : Instruction} (hi : i ∈ code)
    (hsym : i.symbol = .advance) : ∃ q k, g.get? q = some k ∧ q.2 + 1 = 8 := by
  obtain ⟨pre, post, hcode⟩ := List.append_of_mem hi
  obtain ⟨q, k, hk, hrow⟩ := Symbol.exists_cell_advance (loopRows D i.depth)
    ((Cursor.start code).run D pre).shade ((Cursor.start code).run D pre).x
  refine ⟨q, k, h.get?_tile hcode ?_, ?_⟩
  · rw [Instruction.tile, hsym]
    exact hk
  · rw [hrow]
    rfl

private theorem exists_return_row (h : Drawn D code g) (hD : 1 ≤ D) (hi : ⟨.loopOpen, 1⟩ ∈ code) :
    ∃ q k, g.get? q = some k ∧ q.2 + 1 = 2 * D + 7 := by
  obtain ⟨pre, post, hcode⟩ := List.append_of_mem hi
  have hfoot := (Symbol.cell_loopOpen (Nat.le_add_left 4 _)
    ((Cursor.start code).run D pre).shade ((Cursor.start code).run D pre).x (returnRow_eq hD)).1
  refine ⟨_, _, h.get?_tile hcode hfoot, ?_⟩
  simp only [returnRow, laneRow]
  omega

/-- The picture ends with the epilogue. -/
theorem width_eq (h : Drawn D code g) (ht : g.Tight) :
    (g.width : Int) = ((Cursor.start code).run D code).x + 3 := by
  have hstart := Cursor.three_le_start code
  have hle := Cursor.le_run D (Cursor.start code) code
  obtain ⟨n, hn⟩ : ∃ n : Nat, (n : Int) = ((Cursor.start code).run D code).x + 3 :=
    ⟨(((Cursor.start code).run D code).x + 3).toNat, by omega⟩
  rw [← hn, Int.natCast_inj]
  apply Grid.side_eq (fun p k hk ↦ (h.bounded p k hk).1) ht.width
  · intro p k hk
    by_cases hend : ((Cursor.start code).run D code).x ≤ p.1
    · rw [h.epilogue p hend] at hk
      have := (epilogueCell_bounds hk).2.1
      omega
    · omega
  · have hcell := h.epilogue (((Cursor.start code).run D code).x + 2, laneRow) (by simp only; omega)
    rw [epilogueCell, Column.cell, if_pos (by simp [laneRow])] at hcell
    exact ⟨_, _, hcell, by simp only; omega⟩

/-- The picture ends below the outermost loops. Without a loop it ends below an advancing head, or
else below the prologue. -/
theorem height_eq (h : Drawn (Source.maxDepth code) code g) (hnests : Nests 0 code)
    (ht : g.Tight) :
    g.height = if 1 ≤ Source.maxDepth code then 2 * Source.maxDepth code + 7
      else if ∃ i ∈ code, i.symbol = .advance then 8 else 7 := by
  have hdepth : ∀ i ∈ code, i.depth ≤ Source.maxDepth code := fun i hi ↦ depth_le_maxDepth hi
  have hin : ∀ p k, g.get? p = some k → p.2 < g.height := fun p k hk ↦ (h.bounded p k hk).2
  split
  · next hloop =>
    have hfirst : ⟨.loopOpen, 1⟩ ∈ code := by
      obtain ⟨i, hi, hmax⟩ := (Source.exists_maxDepth code).resolve_left (by omega)
      exact hnests.exists_outermost hi (by omega)
    apply Grid.side_eq hin ht.height
    · intro p k hk
      exact h.row_lt hdepth ⟨by omega, fun _ _ _ ↦ by omega, fun _ ↦ Nat.le_refl _⟩ hk
    · exact h.exists_return_row hloop hfirst
  · next hloop =>
    split
    · next hadvance =>
      obtain ⟨i, hi, hsym⟩ := hadvance
      apply Grid.side_eq hin ht.height
      · intro p k hk
        exact h.row_lt hdepth ⟨by decide, fun _ _ _ ↦ Nat.le_refl 8, (absurd · hloop)⟩ hk
      · exact h.exists_eighth_row hi hsym
    · next hadvance =>
      apply Grid.side_eq hin ht.height
      · intro p k hk
        exact h.row_lt hdepth ⟨Nat.le_refl 7, fun i hi hsym ↦ absurd ⟨i, hi, hsym⟩ hadvance,
          (absurd · hloop)⟩ hk
      · exact h.exists_seventh_row

end Drawn

namespace Source

private theorem tilesWidth_eq (code : List Instruction) :
    tilesWidth code =
      4 * ((chars code).count '+' + (chars code).count '-') + 47 * (chars code).count '>' +
        19 * (chars code).count '<' + 11 * (chars code).count '[' + 4 * (chars code).count ']' +
        18 * (chars code).count ',' + 2 * (chars code).count '.' := by
  induction code with
  | nil => rfl
  | cons i code ih =>
    have hchars : chars (i :: code) = i.symbol.char :: chars code := rfl
    rw [tilesWidth, ih, hchars]
    cases i.symbol <;> simp only [Symbol.char, Symbol.width, List.count_cons] <;> grind

private theorem opensFirst_iff (code : List Instruction) :
    opensFirst code = true ↔ (chars code).head? = some '[' := by
  cases code with
  | nil => simp [opensFirst, chars]
  | cons i code =>
    have hhead : (chars (i :: code)).head? = some i.symbol.char := rfl
    rw [hhead, Option.some.injEq, Symbol.char_eq_open]
    simp [opensFirst]

private theorem exists_advance_iff (code : List Instruction) :
    (∃ i ∈ code, i.symbol = .advance) ↔ '>' ∈ chars code := by
  have hchar (a : Symbol) : a = .advance ↔ a.char = '>' := by cases a <;> decide
  simp only [chars, List.mem_map, hchar]

end Source

private theorem Cursor.x_start (code : List Instruction) :
    (start code).x = 3 + (if (Source.chars code).head? = some '[' then 2 else 0 : Nat) := by
  rw [start, ← if_congr (Source.opensFirst_iff code) rfl rfl]
  split <;> rfl

/-- The picture of a source text that is accepted has the width that its instructions add up to and
the height that its loops need, or else its advancing heads or the prologue. Every painted cell lies
in it, so none is lost when the grid is turned into rows. -/
theorem translation_fills_extent {text : String} {code : List Instruction}
    (hparse : Source.parse text = .ok code) :
    ∃ grid, translate text = .ok grid ∧
      grid.width = 6 +
        (if (text.toList.filter Source.isInstruction).head? = some '[' then 2 else 0) +
        4 * (text.toList.count '+' + text.toList.count '-') + 47 * text.toList.count '>' +
        19 * text.toList.count '<' + 11 * text.toList.count '[' + 4 * text.toList.count ']' +
        18 * text.toList.count ',' + 2 * text.toList.count '.' ∧
      grid.height =
        (if 1 ≤ Source.maxDepth code then 2 * Source.maxDepth code + 7
        else if '>' ∈ text.toList then 8 else 7) ∧
      ∀ p k, grid.get? p = some k →
        0 ≤ p.1 ∧ p.1 < grid.width ∧ 0 ≤ p.2 ∧ p.2 < grid.height ∧
          grid.normalize[p.2.toNat]?.bind (·[p.1.toNat]?) = some k := by
  obtain ⟨grid, last, htranslate, hprogram, -, hdrawn⟩ := exists_translate hparse
  have htight := Drawing.tight_of_program hprogram
  have hchars : Source.chars code = text.toList.filter Source.isInstruction :=
    Source.chars_of_scan hparse
  have hcount (ch : Char) (hch : Source.isInstruction ch = true) :
      (Source.chars code).count ch = text.toList.count ch := by
    rw [hchars, List.count_filter hch]
  refine ⟨grid, htranslate, ?_, ?_, ?_⟩
  · have hwidth := hdrawn.width_eq htight
    rw [Cursor.x_run, Cursor.x_start, hchars, Source.tilesWidth_eq, hcount '+' rfl, hcount '-' rfl,
      hcount '>' rfl, hcount '<' rfl, hcount '[' rfl, hcount ']' rfl, hcount ',' rfl,
      hcount '.' rfl] at hwidth
    omega
  · have hadvance : (∃ i ∈ code, i.symbol = .advance) ↔ '>' ∈ text.toList := by
      rw [Source.exists_advance_iff, hchars, List.mem_filter]
      exact and_iff_left rfl
    rw [hdrawn.height_eq (nests_of_parse hparse) htight, if_congr hadvance rfl rfl]
  · intro p k hk
    obtain ⟨hx, hy⟩ := hdrawn.inside p k hk
    obtain ⟨hx', hy'⟩ := hdrawn.bounded p k hk
    exact ⟨hx, hx', hy, hy', Grid.getElem?_normalize hk hx hx' hy hy'⟩

/-- A loop in another one, with a head that advances and comments around the brackets. -/
theorem translation_fills_extent_nested :
    Source.parse "go [>[-]<] on." = .ok
      [⟨.loopOpen, 1⟩, ⟨.advance, 0⟩, ⟨.loopOpen, 2⟩, ⟨.decrement, 0⟩, ⟨.loopClose, 2⟩,
        ⟨.retreat, 0⟩, ⟨.loopClose, 1⟩, ⟨.write, 0⟩] ∧
      ∃ grid, translate "go [>[-]<] on." = .ok grid ∧ grid.width = 110 ∧ grid.height = 11 := by
  have hparse : Source.parse "go [>[-]<] on." = .ok
      [⟨.loopOpen, 1⟩, ⟨.advance, 0⟩, ⟨.loopOpen, 2⟩, ⟨.decrement, 0⟩, ⟨.loopClose, 2⟩,
        ⟨.retreat, 0⟩, ⟨.loopClose, 1⟩, ⟨.write, 0⟩] := by decide
  obtain ⟨grid, htranslate, hwidth, hheight, -⟩ := translation_fills_extent hparse
  exact ⟨hparse, grid, htranslate, hwidth, hheight⟩

end BrainPiet
