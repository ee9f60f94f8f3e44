import BrainPiet.Grid
import BrainPiet.Heading
import BrainPiet.Shade

/-!
# Codels

A codel is black, white or of a shade. Every colour that is neither black nor a shade counts as
white. A canvas holds rows of codels; what lies outside its rectangle is black.
-/

namespace BrainPiet

/-- What a walk can meet. -/
inductive Codel
  | black
  | white
  | shade (s : Shade)
  deriving DecidableEq, Repr, Inhabited

/-- The codel of a colour. -/
def Codel.ofColour (c : Rgb) : Codel :=
  if c = .black then .black
  else if c = .white then .white
  else match Shade.ofColour? c with
    | some s => .shade s
    | none => .white

/-- Rows of codels. The width is that of the first row; other rows may have another length. -/
structure Canvas where
  width : Nat := 0
  height : Nat := 0
  rows : Array (Array Codel) := #[]
  deriving DecidableEq, Repr, Inhabited

namespace Canvas

/-- The codels of rows of colours. -/
def ofRows (rows : List (List Rgb)) : Canvas where
  width := (rows.head?.map List.length).getD 0
  height := rows.length
  rows := (rows.map fun row ↦ (row.map Codel.ofColour).toArray).toArray

/-- The position lies in the rectangle. -/
def Inside (c : Canvas) (p : Pos) : Prop := 0 ≤ p.1 ∧ p.1 < c.width ∧ 0 ≤ p.2 ∧ p.2 < c.height

instance (c : Canvas) (p : Pos) : Decidable (c.Inside p) := inferInstanceAs (Decidable (_ ∧ _))

/-- The codel at a position; there is none where a row in the rectangle is too short. -/
def look (c : Canvas) (p : Pos) : Option Codel :=
  if c.Inside p then c.rows[p.2.toNat]?.bind fun row ↦ row[p.1.toNat]? else some .black

/-- All positions of the rectangle, row by row. -/
def positions (c : Canvas) : List Pos :=
  (List.range c.height).flatMap fun (y : Nat) ↦
    (List.range c.width).map fun (x : Nat) ↦ ((x : Int), (y : Int))

/-- The positions of the rectangle are those inside. -/
theorem mem_positions {c : Canvas} {p : Pos} : p ∈ c.positions ↔ c.Inside p := by
  obtain ⟨x, y⟩ := p
  simp only [positions, List.mem_flatMap, List.mem_map, List.mem_range, Prod.mk.injEq, Inside]
  constructor
  · rintro ⟨j, hj, i, hi, rfl, rfl⟩
    omega
  · rintro ⟨h1, h2, h3, h4⟩
    exact ⟨y.toNat, by omega, x.toNat, by omega, by omega, by omega⟩

/-- Only black lies outside. -/
theorem inside_of_look {c : Canvas} {p : Pos} {k : Codel} (h : c.look p = some k)
    (hk : k ≠ .black) : c.Inside p := by
  unfold look at h
  split at h
  · assumption
  · simp only [Option.some.injEq] at h
    exact absurd h.symm hk

end Canvas

/-- The neighbour of a position in a direction. -/
def Pos.toward (p : Pos) (d : Direction) : Pos := (p.1 + d.dx, p.2 + d.dy)

end BrainPiet
