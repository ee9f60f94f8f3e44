import BrainPiet.Proofs.Sequence
import BrainPiet.Proofs.Shade
import BrainPiet.Template

/-!
# Rows of columns

What strokes paint that move the cursor along a row: each stroke adds columns, and the colours of
the columns follow from the shade in the beginning. The cells of a row of columns are told by the
columns alone.
-/

namespace BrainPiet

namespace Column

/-- What columns from a corner on show at a position. -/
def cell (x y : Int) : List Column → Pos → Option Rgb
  | [], _ => none
  | c :: cs, p =>
    if p.1 = x ∧ y ≤ p.2 ∧ p.2 < y + c.height then some c.colour else cell (x + 1) y cs p

/-- A position in a row of columns lies in one of them. -/
theorem cell_eq_some {x y : Int} {cs : List Column} {p : Pos} {k : Rgb} :
    cell x y cs p = some k ↔ ∃ (i : Nat) (c : Column), cs[i]? = some c ∧ p.1 = x + i ∧ y ≤ p.2 ∧
      p.2 < y + c.height ∧ c.colour = k := by
  induction cs generalizing x with
  | nil => simp [cell]
  | cons c cs ih =>
    rw [cell]
    split
    · next h =>
      rw [Option.some.injEq]
      constructor
      · intro hk
        exact ⟨0, c, rfl, by omega, h.2.1, h.2.2, hk⟩
      · rintro ⟨i, c', hi, hx, -, -, hk⟩
        obtain rfl : i = 0 := by omega
        rw [List.getElem?_cons_zero, Option.some.injEq] at hi
        rw [hi, hk]
    · next h =>
      rw [ih]
      constructor
      · rintro ⟨i, c', hi, hx, hrest⟩
        exact ⟨i + 1, c', hi, by omega, hrest⟩
      · rintro ⟨i, c', hi, hx, hy, hy', hk⟩
        cases i with
        | zero =>
          rw [List.getElem?_cons_zero, Option.some.injEq] at hi
          subst hi
          exact absurd ⟨by omega, hy, hy'⟩ h
        | succ i => exact ⟨i, c', hi, by omega, hy, hy', hk⟩

/-- A row shows the colour of each of its columns. -/
theorem cell_of_getElem? {x y : Int} {cs : List Column} {i j : Nat} {c : Column}
    (hi : cs[i]? = some c) (hj : j < c.height) : cell x y cs (x + i, y + j) = some c.colour :=
  cell_eq_some.mpr ⟨i, c, hi, rfl, by simp only; omega, by simp only; omega, rfl⟩

/-- Below a column there is nothing of the row. -/
theorem cell_below {x y z : Int} {cs : List Column} {i : Nat} {c : Column}
    (hi : cs[i]? = some c) (hz : z < y ∨ y + c.height ≤ z) : cell x y cs (x + i, z) = none := by
  rw [Option.eq_none_iff_forall_ne_some]
  intro k hk
  obtain ⟨i', c', hi', hx, hy, hy', -⟩ := cell_eq_some.mp hk
  simp only at hx hy hy'
  obtain rfl : i = i' := by omega
  rw [hi, Option.some.injEq] at hi'
  subst hi'
  omega

/-- Beside its columns, and above them, there is nothing of a row. -/
theorem cell_outside {x y : Int} (cs : List Column) {p : Pos}
    (h : p.1 < x ∨ x + cs.length ≤ p.1 ∨ p.2 < y) : cell x y cs p = none := by
  rw [Option.eq_none_iff_forall_ne_some]
  intro k hk
  obtain ⟨i, c, hi, hx, hy, -⟩ := cell_eq_some.mp hk
  have : i < cs.length := (List.getElem?_eq_some_iff.mp hi).1
  omega

/-- Two rows side by side are one. -/
theorem cell_append (x y : Int) (cs ds : List Column) (p : Pos) :
    cell x y (cs ++ ds) p = (cell x y cs p).or (cell (x + cs.length) y ds p) := by
  induction cs generalizing x with
  | nil => simp [cell]
  | cons c cs ih =>
    have hlen : x + 1 + (cs.length : Int) = x + ((c :: cs).length : Int) := by
      rw [List.length_cons]
      omega
    rw [List.cons_append, cell, cell, ih, hlen]
    split <;> rfl

end Column

namespace Grid

/-- Paints columns one after the other from a corner on. -/
def lay (g : Grid) (x y : Int) : List Column → Grid
  | [] => g
  | c :: cs => (g.paint x y c.colour 1 c.height).lay (x + 1) y cs

/-- Every painted cell lies above and to the left of the far corner of the extent. -/
def Bounded (g : Grid) : Prop := ∀ p k, g.get? p = some k → p.1 < g.width ∧ p.2 < g.height

theorem bounded_empty : ({} : Grid).Bounded := by
  intro p k hk
  rw [get?_empty] at hk
  cases hk

/-- Painting extends the extent as needed. -/
theorem Bounded.paint {g : Grid} (h : g.Bounded) (x y : Int) (c : Rgb) (w h' : Int) :
    (g.paint x y c w h').Bounded := by
  intro p k hk
  rw [get?_paint] at hk
  unfold Grid.paint
  split at hk
  · next hin =>
    have hrect := mem_rectangle.mp hin
    rw [if_pos ⟨by omega, by omega⟩]
    simp only
    omega
  · have := h p k hk
    split <;> simp only <;> omega

/-- Laying columns extends the extent as needed. -/
theorem Bounded.lay {g : Grid} (h : g.Bounded) (x y : Int) (cs : List Column) :
    (g.lay x y cs).Bounded := by
  induction cs generalizing g x with
  | nil => exact h
  | cons c cs ih => exact ih (h.paint x y c.colour 1 c.height) (x + 1)

/-- Laying columns changes exactly the cells of the columns. -/
theorem get?_lay (g : Grid) (x y : Int) (cs : List Column) (p : Pos) :
    (g.lay x y cs).get? p = (Column.cell x y cs p).or (g.get? p) := by
  induction cs generalizing g x with
  | nil => rfl
  | cons c cs ih =>
    rw [lay, ih, get?_paint, Column.cell]
    by_cases hp : p.1 = x ∧ y ≤ p.2 ∧ p.2 < y + c.height
    · rw [if_pos hp, Column.cell_outside cs (.inl (by omega)),
        if_pos (mem_rectangle.mpr ⟨by omega, by omega, hp.2⟩)]
      rfl
    · rw [if_neg hp, if_neg]
      intro hin
      have := mem_rectangle.mp hin
      omega

/-- Two rows side by side are laid one after the other. -/
theorem lay_append (g : Grid) (x y : Int) (cs ds : List Column) :
    g.lay x y (cs ++ ds) = (g.lay x y cs).lay (x + cs.length) y ds := by
  induction cs generalizing g x with
  | nil => simp [lay]
  | cons c cs ih =>
    rw [List.cons_append, lay, lay, ih, List.length_cons, Int.add_assoc, Int.natCast_add,
      Int.add_comm 1]
    rfl

/-- Paints single cells white. -/
def dot (g : Grid) (x y : Int) (cells : List Pos) : Grid :=
  cells.foldl (fun g q ↦ g.paint (x + q.1) (y + q.2) .white 1 1) g

/-- Painting cells extends the extent as needed. -/
theorem Bounded.dot {g : Grid} (h : g.Bounded) (x y : Int) (cells : List Pos) :
    (g.dot x y cells).Bounded := by
  induction cells generalizing g with
  | nil => exact h
  | cons q cells ih => exact ih (h.paint (x + q.1) (y + q.2) .white 1 1)

/-- What single white cells show at a position. -/
def dotCell (x y : Int) (cells : List Pos) (p : Pos) : Option Rgb :=
  if (p.1 - x, p.2 - y) ∈ cells then some .white else none

/-- Painting cells changes exactly these cells. -/
theorem get?_dot (g : Grid) (x y : Int) (cells : List Pos) (p : Pos) :
    (g.dot x y cells).get? p = (dotCell x y cells p).or (g.get? p) := by
  induction cells generalizing g with
  | nil => rfl
  | cons q cells ih =>
    have hin : p ∈ rectangle (x + q.1) (y + q.2) 1 1 ↔ (p.1 - x, p.2 - y) = q := by
      rw [mem_rectangle, Prod.ext_iff]
      simp only
      omega
    rw [dot, List.foldl_cons, ← dot, ih, get?_paint]
    by_cases hcells : (p.1 - x, p.2 - y) ∈ cells
    · simp [dotCell, hcells]
    · by_cases hq : (p.1 - x, p.2 - y) = q
      · rw [hq] at hcells hin
        simp [dotCell, hin, hq, hcells]
      · simp [dotCell, hcells, hin, hq]

end Grid

namespace Stroke

/-- The columns that a stroke adds to the row of the cursor. -/
def columns (s : Shade) : Stroke → List Column
  | emit _ size => Column.block size.toNat s.rgb
  | paint height => [⟨height.toNat, s.rgb⟩]
  | white height => [⟨height.toNat, .white⟩]
  | _ => []

/-- The shade after a stroke. -/
def shadeAfter (s : Shade) : Stroke → Shade
  | emit op _ => s.step op
  | recolour t => t.wrap
  | _ => s

/-- The stroke does nothing but to add columns and to change the shade. -/
def Straight : Stroke → Prop
  | emit _ size => 1 ≤ size
  | paint height => 0 ≤ height
  | white height => 0 ≤ height
  | recolour _ => True
  | _ => False

instance : DecidablePred Straight
  | emit _ size => inferInstanceAs (Decidable (1 ≤ size))
  | paint height => inferInstanceAs (Decidable (0 ≤ height))
  | white height => inferInstanceAs (Decidable (0 ≤ height))
  | recolour _ => inferInstanceAs (Decidable True)
  | glyph _ | move _ _ | down _ | block _ _ _ _ | pillar _ _ _ | openLoop _ | branch _
  | closeLoop _ => inferInstanceAs (Decidable False)

/-- The columns that strokes add to the row of the cursor. -/
def row : Shade → List Stroke → List Column
  | _, [] => []
  | s, k :: ks => k.columns s ++ row (k.shadeAfter s) ks

/-- The shade after some strokes. -/
def rowShade (s : Shade) (ks : List Stroke) : Shade := ks.foldl shadeAfter s

/-- The heights of the columns that a stroke adds. -/
def heights : Stroke → List Nat
  | emit _ size => (Column.block size.toNat .black).map (·.height)
  | paint height => [height.toNat]
  | white height => [height.toNat]
  | _ => []

/-- The heights of columns do not depend on the shade. -/
theorem map_height_row (s : Shade) (ks : List Stroke) :
    (row s ks).map (·.height) = ks.flatMap heights := by
  have hblock (size : Nat) (c d : Rgb) :
      (Column.block size c).map (·.height) = (Column.block size d).map (·.height) := by
    simp only [Column.block, List.map_append, List.map_replicate]
    split <;> rfl
  induction ks generalizing s with
  | nil => rfl
  | cons k ks ih =>
    rw [row, List.map_append, ih, List.flatMap_cons]
    cases k with
    | emit op size => rw [columns, heights, hblock]
    | _ => rfl

/-- The number of columns does not depend on the shade. -/
theorem length_row (s : Shade) (ks : List Stroke) :
    (row s ks).length = (ks.flatMap heights).length := by
  rw [← map_height_row s, List.length_map]

/-- Strokes keep to the palette. -/
theorem inPalette_shadeAfter {s : Shade} (h : s.InPalette) (k : Stroke) :
    (k.shadeAfter s).InPalette := by
  cases k with
  | emit op size => exact Shade.inPalette_step s op
  | recolour t => exact Shade.inPalette_wrap t
  | _ => exact h

/-- Strokes keep to the palette. -/
theorem inPalette_rowShade {s : Shade} (h : s.InPalette) (ks : List Stroke) :
    (rowShade s ks).InPalette := by
  induction ks generalizing s with
  | nil => exact h
  | cons k ks ih => exact ih (inPalette_shadeAfter h k)

/-- The columns of strokes one after the other. -/
theorem row_append (s : Shade) (ks ls : List Stroke) :
    row s (ks ++ ls) = row s ks ++ row (rowShade s ks) ls := by
  induction ks generalizing s with
  | nil => rfl
  | cons k ks ih =>
    rw [List.cons_append, row, row, ih, List.append_assoc]
    rfl

/-- The shade after strokes one after the other. -/
theorem rowShade_append (s : Shade) (ks ls : List Stroke) :
    rowShade s (ks ++ ls) = rowShade (rowShade s ks) ls := List.foldl_append

end Stroke

namespace Session

/-- The session after a row of columns was laid at the cursor. -/
def lay (st : Session) (cs : List Column) (s : Shade) : Session :=
  { st with grid := st.grid.lay st.x st.y cs, x := st.x + cs.length, shade := s }

/-- Two rows side by side are laid one after the other. -/
theorem lay_lay (st : Session) (cs ds : List Column) (s t : Shade) :
    (st.lay cs s).lay ds t = st.lay (cs ++ ds) t := by
  simp only [lay, Grid.lay_append, List.length_append, Int.natCast_add, Int.add_assoc]

end Session

namespace Drawing

private theorem columns_eq (st : Session) (cs : List Column) :
    cs.forM (fun c ↦ column c.colour c.height) st = .ok () (st.lay cs st.shade) := by
  induction cs generalizing st with
  | nil => simp [Session.lay, Grid.lay, List.forM, pure, EStateM.pure]
  | cons c cs ih =>
    have hstep : column c.colour c.height st = .ok () (st.lay [c] st.shade) := rfl
    rw [forM_cons_of_ok (f := fun c : Column ↦ column c.colour c.height) (a := c) hstep, ih,
      Session.lay_lay]
    rfl

/-- A session paints with the colour of its shade. -/
theorem ink_eq {st : Session} (hs : st.shade.InPalette) : ink st = .ok st.shade.rgb st := by
  change ofExcept st.shade.colour st = _
  rw [Shade.colour_of_inPalette hs]
  rfl

/-- A straight stroke lays its columns. -/
theorem draw_straight {k : Stroke} (hk : k.Straight) (st : Session) (hs : st.shade.InPalette) :
    k.draw st = .ok () (st.lay (k.columns st.shade) (k.shadeAfter st.shade)) := by
  cases k with
  | emit op size =>
    have hemit : st.shade.emit op size =
        .ok (Column.block size.toNat st.shade.rgb, st.shade.step op) := by
      rw [Shade.emit, if_neg (show ¬size < 1 from Int.not_lt.mpr hk), Shade.colour_of_inPalette hs]
      rfl
    change (ofExcept (st.shade.emit op size) >>= columns) st = _
    rw [hemit]
    exact columns_eq { st with shade := st.shade.step op } _
  | paint height =>
    have hheight : ((height.toNat : Nat) : Int) = height := Int.toNat_of_nonneg hk
    change (ink >>= fun c ↦ column c height) st = _
    rw [bind_of_ok (ink_eq hs), ← hheight]
    rfl
  | white height =>
    have hheight : ((height.toNat : Nat) : Int) = height := Int.toNat_of_nonneg hk
    change column .white height st = _
    rw [← hheight]
    rfl
  | recolour t =>
    change EStateM.Result.ok () { st with shade := t.wrap } = _
    simp [Session.lay, Stroke.columns, Grid.lay, Stroke.shadeAfter]
  | _ => cases hk

/-- Straight strokes lay their columns one after the other. -/
theorem draw_row {ks : List Stroke} (hks : ∀ k ∈ ks, k.Straight) (st : Session)
    (hs : st.shade.InPalette) :
    ks.forM Stroke.draw st =
      .ok () (st.lay (Stroke.row st.shade ks) (Stroke.rowShade st.shade ks)) := by
  induction ks generalizing st with
  | nil => simp [Stroke.row, Stroke.rowShade, Session.lay, Grid.lay, List.forM, pure, EStateM.pure]
  | cons k ks ih =>
    have hstep := draw_straight (hks k List.mem_cons_self) st hs
    rw [forM_cons_of_ok hstep, ih (fun l hl ↦ hks l (List.mem_cons_of_mem _ hl)) _
      (Stroke.inPalette_shadeAfter hs k), Session.lay_lay]
    rfl

/-- A glyph paints its cells above the lane. -/
theorem draw_glyph (lines : List String) (st : Session) :
    (Stroke.glyph lines).draw st =
      .ok () { st with
        grid := st.grid.dot st.x Session.glyphTop (Session.glyphCells lines) } := by
  have hcells (cells : List Pos) (st : Session) (x : Int) :
      cells.forM (fun q ↦ fill (x + q.1) (Session.glyphTop + q.2) .white 1 1) st =
        .ok () { st with grid := st.grid.dot x Session.glyphTop cells } := by
    induction cells generalizing st with
    | nil => rfl
    | cons q cells ih =>
      have hstep : fill (x + q.1) (Session.glyphTop + q.2) .white 1 1 st =
        .ok () { st with
          grid := st.grid.paint (x + q.1) (Session.glyphTop + q.2) .white 1 1 } := rfl
      rw [forM_cons_of_ok (f := fun q : Pos ↦ fill (x + q.1) (Session.glyphTop + q.2) .white 1 1)
        (a := q) hstep, ih]
      rfl
  exact hcells (Session.glyphCells lines) st st.x

end Drawing

-- From here on a painted grid is known by what it shows.
attribute [irreducible] Grid.lay Grid.dot

end BrainPiet
