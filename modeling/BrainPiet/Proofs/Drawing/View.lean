import BrainPiet.Proofs.Drawing.Program
import BrainPiet.Proofs.Picture.Step
import BrainPiet.Raster

/-!
# The view of a finished grid

A finished grid is loaded without a fault, and the picture renders what the grid shows. In the
columns of an instruction that is its tile, and besides it nothing but white far below the lane.
-/

namespace BrainPiet

open Template (laneRow)

private theorem Codel.eq_rgb_of_ofColour {k : Rgb} {s : Shade} (h : Codel.ofColour k = .shade s) :
    k = s.rgb := by
  unfold ofColour at h
  split at h
  · cases h
  · split at h
    · cases h
    · split at h
      · next t hfind =>
        cases h
        have hcolour := List.find?_some (p := fun t : Shade ↦ t.colour? = some k) hfind
        rw [Shade.rgb, of_decide_eq_true hcolour]
        rfl
      · cases h

namespace Grid

/-- The codel that a grid shows at a position; what is not painted is black. -/
def codel (g : Grid) (p : Pos) : Codel := Codel.ofColour ((g.get? p).getD .black)

theorem codel_of_some {g : Grid} {p : Pos} {k : Rgb} (h : g.get? p = some k) :
    g.codel p = .ofColour k := by
  rw [codel, h]
  rfl

theorem codel_of_none {g : Grid} {p : Pos} (h : g.get? p = none) : g.codel p = .black := by
  rw [codel, h]
  rfl

/-- The rows of a grid show its codels, and black lies around them. -/
theorem look_normalize {g : Grid} (hb : g.Bounded)
    (hin : ∀ p k, g.get? p = some k → 0 ≤ p.1 ∧ 0 ≤ p.2) (q : Pos) :
    (Canvas.ofRows g.normalize).look q = some (g.codel q) := by
  have hwidth : (Canvas.ofRows g.normalize).width = g.width := by
    simp [Canvas.ofRows, normalize, List.range_succ_eq_map]
  have hheight : (Canvas.ofRows g.normalize).height = g.height + 1 := by
    simp [Canvas.ofRows, normalize]
  unfold Canvas.look
  split
  · next hq =>
    obtain ⟨qx, qy⟩ := q
    obtain ⟨h1, h2, h3, h4⟩ := hq
    rw [hwidth] at h2
    rw [hheight] at h4
    obtain ⟨x, rfl⟩ : ∃ x : Nat, qx = x := ⟨qx.toNat, by simp only at h1; omega⟩
    obtain ⟨y, rfl⟩ : ∃ y : Nat, qy = y := ⟨qy.toNat, by simp only at h3; omega⟩
    have hx : x < g.width := Int.ofNat_lt.mp h2
    have hy : y < g.height + 1 := Int.ofNat_lt.mp h4
    simp [Canvas.ofRows, normalize, hx, hy, codel]
  · next hq =>
    rw [codel_of_none]
    rw [Option.eq_none_iff_forall_ne_some]
    intro k hk
    apply hq
    have hlt := hb q k hk
    have hle := hin q k hk
    refine ⟨hle.1, ?_, hle.2, ?_⟩
    · rw [hwidth]
      exact hlt.1
    · rw [hheight]
      omega

end Grid

/-- A finished grid is loaded, and the picture renders it. -/
theorem Drawn.exists_load {deepest : Nat} {code : List Instruction} {g : Grid}
    (h : Drawn deepest code g) (init : Picture) :
    ∃ p, Picture.load g.normalize init = .ok () p ∧ p.Renders g.codel :=
  Picture.exists_load (Grid.look_normalize h.bounded h.inside) init

/-- What can be parsed has a picture. -/
theorem exists_picture {text : String} {code : List Instruction}
    (hparse : Source.parse text = .ok code) :
    ∃ grid picture, translate text = .ok grid ∧
      Picture.load grid.normalize {} = .ok () picture ∧
      picture.Renders grid.codel ∧ Drawn (Source.maxDepth code) code grid := by
  obtain ⟨grid, -, htranslate, -, -, hdrawn⟩ := exists_translate hparse
  obtain ⟨picture, hload, hrenders⟩ := hdrawn.exists_load {}
  exact ⟨grid, picture, htranslate, hload, hrenders, hdrawn⟩

namespace Cursor

/-- What is seen in the columns of an instruction and right beside them. -/
structure Shown (deepest : Nat) (view : Pos → Codel) (c : Cursor) (i : Instruction) : Prop where
  palette : c.shade.InPalette
  tile : ∀ p k, (i.tile deepest c.shade).cell c.x p = some k → view p = .ofColour k
  blank : ∀ p : Pos, c.x ≤ p.1 → p.1 < (c.next deepest i).x →
    (i.tile deepest c.shade).cell c.x p = none →
      view p = .black ∨ (view p = .white ∧ laneRow + 2 < p.2)
  before : ∀ z, view (c.x - 1, z) ≠ .shade c.shade
  after : view ((c.next deepest i).x, laneRow) = .shade (c.next deepest i).shade

/-- To the left of the cursor a finished grid has what was painted before, and white. -/
theorem Keeps.codel {deepest : Nat} {c : Cursor} {g g' : Grid} (h : c.Keeps deepest g g') {p : Pos}
    (hp : p.1 < c.x) (hnone : g.get? p = none) :
    g'.codel p = .black ∨ (g'.codel p = .white ∧ laneRow + 2 < p.2 ∧
      ∃ l ∈ c.loops, p.2 = returnRow deepest l.depth) := by
  cases hk : g'.get? p with
  | none => exact .inl (Grid.codel_of_none hk)
  | some k =>
    obtain ⟨rfl, hrow, l, hl, hreturn, -⟩ := h.spared p k hp hnone hk
    exact .inr ⟨Grid.codel_of_some hk, hrow, l, hl, hreturn⟩

/-- Nothing to the left of the cursor extends what it paints. -/
theorem Ready.before {deepest : Nat} {c : Cursor} {st : Session} {g : Grid}
    (h : c.Ready deepest st) (hkeeps : c.Keeps deepest st.grid g) (z : Int) :
    g.codel (c.x - 1, z) ≠ .shade c.shade := by
  intro hz
  cases hk : st.grid.get? (c.x - 1, z) with
  | some k =>
    rw [Grid.codel_of_some (hkeeps.painted _ k (by simp only; omega) hk)] at hz
    exact h.edge z k hk (Codel.eq_rgb_of_ofColour hz)
  | none =>
    rcases hkeeps.codel (by simp only; omega) hk with hblack | ⟨hwhite, -⟩
    · rw [hblack] at hz
      cases hz
    · rw [hwhite] at hz
      cases hz

end Cursor

/-- The cursor keeps to the palette. -/
theorem Cursor.inPalette_run (deepest : Nat) {c : Cursor} (h : c.shade.InPalette)
    (code : List Instruction) : (c.run deepest code).shade.InPalette := by
  induction code generalizing c with
  | nil => exact h
  | cons i code ih => exact ih (c := c.next deepest i) (i.sound deepest h).finish

/-- The first cursor has a shade of the palette. -/
theorem Cursor.inPalette_start (code : List Instruction) : (Cursor.start code).shade.InPalette := by
  rw [start]
  split <;> decide

namespace Drawn

variable {D : Nat} {code pre post : List Instruction} {i : Instruction} {g : Grid}

/-- Where the next tile or the epilogue starts, the lane has the shade of the cursor. -/
theorem entry (h : Drawn D code g) (hcode : code = pre ++ post) :
    g.codel (((Cursor.start code).run D pre).x, laneRow) =
      .shade ((Cursor.start code).run D pre).shade := by
  have hpal := Cursor.inPalette_run D (Cursor.inPalette_start code) pre
  rw [← Shade.ofColour_rgb hpal]
  apply Grid.codel_of_some
  cases post with
  | nil =>
    rw [List.append_nil] at hcode
    subst hcode
    rw [h.epilogue _ (Int.le_refl _), epilogueCell, Column.cell_outside _ (.inl (by simp only; omega)),
      Option.none_or, Column.cell, if_pos ⟨rfl, by simp only; omega, by simp only; omega⟩]
  | cons j post =>
    obtain ⟨st, st', -, hready, -, hdraws, -, hkeeps⟩ := h.tile pre j post hcode
    have hsound := j.sound D hready.palette
    have hx : (((Cursor.start code).run D pre).next D j).x = ((Cursor.start code).run D pre).x +
      (j.tile D ((Cursor.start code).run D pre).shade).width := rfl
    have hpos := hsound.width_pos
    apply hkeeps.painted _ _ (by simp only; omega)
    rw [hdraws.get, Cursor.cell, hsound.cell_first]
    rfl

/-- A finished grid shows each of its instructions. -/
theorem shown (h : Drawn D code g) (hcode : code = pre ++ i :: post) :
    ((Cursor.start code).run D pre).Shown D g.codel i := by
  have hsplit : code = pre ++ [i] ++ post := by
    rw [hcode, List.append_assoc]
    rfl
  have hentry := h.entry hsplit
  rw [Cursor.run_append] at hentry
  obtain ⟨st, st', -, hready, -, hdraws, hready', hkeeps⟩ := h.tile pre i post hcode
  have hleft := (hready.keeps hdraws).trans hkeeps
  generalize (Cursor.start code).run D pre = c at *
  refine ⟨hready.palette, ?_, ?_, ?_, hentry⟩
  · intro p k hk
    apply Grid.codel_of_some
    apply hkeeps.painted p k (hready.tile_spec hk).2.1
    rw [hdraws.get, Cursor.cell, hk]
    rfl
  · intro p hp hp' hnone
    have hget : st'.grid.get? p = c.span D i p := by
      rw [hdraws.get, Cursor.cell, hnone, hready.blank p hp, Option.none_or, Option.or_none]
    cases hspan : c.span D i p with
    | some k =>
      obtain ⟨rfl, -, -, l, ls, -, -, hrow, -, hdepth⟩ := hready.span_spec hspan
      refine .inr ⟨?_, ?_⟩
      · exact Grid.codel_of_some (hkeeps.painted p _ hp' (hget.trans hspan))
      · rw [hrow, returnRow]
        omega
    | none =>
      rcases hkeeps.codel hp' (hget.trans hspan) with hblack | ⟨hwhite, hrow, -⟩
      · exact .inl hblack
      · exact .inr ⟨hwhite, hrow⟩
  · exact hready.before hleft

/-- Before the lane there is the prologue. -/
theorem prologue (h : Drawn D code g) {q : Pos} (hq : q.1 < 3) :
    g.codel q = match Slab.top prologueSlabs q with
      | some s => .shade s
      | none => .black := by
  have hpal : ∀ b ∈ prologueSlabs, b.shade.InPalette := by decide
  have hthree := Cursor.three_le_start code
  have hget : g.get? q = (Slab.top prologueSlabs q).map Shade.rgb := by
    rw [h.opening q (by omega), startCell, Column.cell_outside _ (.inl hq), ite_self,
      Option.none_or]
  cases htop : Slab.top prologueSlabs q with
  | none =>
    rw [htop] at hget
    exact Grid.codel_of_none hget
  | some s =>
    rw [htop] at hget
    obtain ⟨b, hb, -, rfl⟩ := Slab.exists_of_top htop
    exact (Grid.codel_of_some hget).trans (Shade.ofColour_rgb (hpal b hb))

/-- Nothing before a tile or the epilogue extends its first column. -/
theorem before (h : Drawn D code g) (hcode : code = pre ++ post) (z : Int) :
    g.codel (((Cursor.start code).run D pre).x - 1, z) ≠
      .shade ((Cursor.start code).run D pre).shade := by
  cases post with
  | cons i post => exact (h.shown hcode).before z
  | nil =>
    rw [List.append_nil] at hcode
    subst hcode
    rcases List.eq_nil_or_concat' code with rfl | ⟨pre, i, rfl⟩
    · have hshade : ∀ b ∈ prologueSlabs, b.shade ≠ ⟨1, 2⟩ := by decide
      show g.codel (2, z) ≠ .shade ⟨1, 2⟩
      rw [h.prologue (show (2 : Int) < 3 by decide)]
      split
      · next s htop =>
        obtain ⟨b, hb, -, rfl⟩ := Slab.exists_of_top htop
        exact fun heq ↦ hshade b hb (Codel.shade.inj heq)
      · exact Codel.noConfusion
    · obtain ⟨st, st', -, -, -, -, hready', hkeeps⟩ := h.tile pre i [] rfl
      rw [Cursor.run_append]
      exact hready'.before hkeeps z

end Drawn

end BrainPiet
