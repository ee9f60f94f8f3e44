import BrainPiet.Colour
import Std.Data.HashMap

/-!
# Grids

A grid is a sparse map from positions to colours that only grows. Its extent is the least rectangle
from the origin that holds the far corner of every rectangle painted; cells at negative coordinates
lie outside of it.
-/

namespace BrainPiet

/-- A position by column and row; rows are counted downwards. -/
abbrev Pos := Int × Int

/-- Painted cells and their extent. -/
structure Grid where
  cells : Std.HashMap Pos Rgb := ∅
  width : Nat := 0
  height : Nat := 0
  deriving Inhabited

namespace Grid

/-- The positions of a rectangle, column by column; a side that is not positive gives none. -/
def rectangle (x y w h : Int) : List Pos :=
  (List.range w.toNat).flatMap fun (i : Nat) ↦ (List.range h.toNat).map fun (j : Nat) ↦ (x + i, y + j)

/-- The colour at a position, if it was painted. -/
def get? (g : Grid) (p : Pos) : Option Rgb := g.cells[p]?

/-- The number of painted cells. -/
def size (g : Grid) : Nat := g.cells.size

/-- Paints a rectangle with one colour. -/
def paint (g : Grid) (x y : Int) (c : Rgb) (w h : Int) : Grid :=
  let cells := (rectangle x y w h).foldl (fun cells p ↦ cells.insert p c) g.cells
  if 0 < w ∧ 0 < h then ⟨cells, max g.width (x + w).toNat, max g.height (y + h).toNat⟩
  else { g with cells }

private theorem getElem?_foldl_insert (ps : List Pos) (cells : Std.HashMap Pos Rgb) (c : Rgb)
    (q : Pos) :
    (ps.foldl (fun cells p ↦ cells.insert p c) cells)[q]? =
      if q ∈ ps then some c else cells[q]? := by
  induction ps generalizing cells with
  | nil => simp
  | cons p ps ih =>
    simp only [List.foldl_cons, ih, Std.HashMap.getElem?_insert, List.mem_cons]
    by_cases hq : q ∈ ps
    · simp [hq]
    · by_cases hp : p = q
      · simp [hp]
      · simp [hq, hp, Ne.symm hp]

/-- A position lies in a rectangle when both coordinates do. -/
theorem mem_rectangle {x y w h : Int} {p : Pos} :
    p ∈ rectangle x y w h ↔ x ≤ p.1 ∧ p.1 < x + w ∧ y ≤ p.2 ∧ p.2 < y + h := by
  obtain ⟨px, py⟩ := p
  simp only [rectangle, List.mem_flatMap, List.mem_map, List.mem_range, Prod.mk.injEq]
  constructor
  · rintro ⟨i, hi, j, hj, rfl, rfl⟩
    omega
  · rintro ⟨h1, h2, h3, h4⟩
    exact ⟨(px - x).toNat, by omega, (py - y).toNat, by omega, by omega, by omega⟩

/-- Painting changes exactly the cells of its rectangle. -/
theorem get?_paint (g : Grid) (x y : Int) (c : Rgb) (w h : Int) (p : Pos) :
    (g.paint x y c w h).get? p = if p ∈ rectangle x y w h then some c else g.get? p := by
  simp only [paint, get?]
  split <;> exact getElem?_foldl_insert ..

/-- An empty grid has no painted cell. -/
theorem get?_empty (p : Pos) : (Grid.mk ∅ 0 0).get? p = none := by
  simp [get?]

end Grid

end BrainPiet
