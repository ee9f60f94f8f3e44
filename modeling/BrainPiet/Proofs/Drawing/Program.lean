import BrainPiet.Proofs.Nesting

/-!
# Drawings of whole programs

The prologue, and the spacer before a loop that comes first, leave a session that is ready for the
first instruction. Nested instructions are drawn from there, and the epilogue paints to the right of
all of them. So a finished grid shows the prologue, a tile for each instruction and the epilogue,
and white on return rows.
-/

namespace BrainPiet

open Template (laneRow)

/-- A rectangle of a shade. -/
structure Slab where
  x : Int
  y : Int
  w : Int
  h : Int
  shade : Shade
  deriving DecidableEq, Repr

namespace Slab

/-- The position lies in the rectangle. -/
def Covers (b : Slab) (p : Pos) : Prop :=
  b.x ≤ p.1 ∧ p.1 < b.x + b.w ∧ b.y ≤ p.2 ∧ p.2 < b.y + b.h

instance (b : Slab) (p : Pos) : Decidable (b.Covers p) := inferInstanceAs (Decidable (_ ∧ _))

/-- The shade that is seen of rectangles that were painted one over the other. -/
def top : List Slab → Pos → Option Shade
  | [], _ => none
  | b :: bs, p => (top bs p).or (if b.Covers p then some b.shade else none)

/-- What is seen belongs to one of the rectangles. -/
theorem exists_of_top {bs : List Slab} {p : Pos} {s : Shade} (h : top bs p = some s) :
    ∃ b ∈ bs, b.Covers p ∧ b.shade = s := by
  induction bs with
  | nil => cases h
  | cons b bs ih =>
    rw [top, Option.or_eq_some_iff] at h
    rcases h with h | ⟨-, h⟩
    · obtain ⟨b', hb', hcov, hs⟩ := ih h
      exact ⟨b', List.mem_cons_of_mem _ hb', hcov, hs⟩
    · split at h
      · next hcov =>
        cases h
        exact ⟨b, List.mem_cons_self, hcov, rfl⟩
      · cases h

end Slab

/-- Paints rectangles one over the other. -/
def Grid.stack (g : Grid) (bs : List Slab) : Grid :=
  bs.foldl (fun g b ↦ g.paint b.x b.y b.shade.rgb b.w b.h) g

/-- Painting rectangles extends the extent as needed. -/
theorem Grid.Bounded.stack {g : Grid} (h : g.Bounded) (bs : List Slab) : (g.stack bs).Bounded := by
  induction bs generalizing g with
  | nil => exact h
  | cons b bs ih => exact ih (h.paint _ _ _ _ _)

private theorem Grid.get?_stack (g : Grid) (bs : List Slab) (p : Pos) :
    (g.stack bs).get? p = ((Slab.top bs p).map Shade.rgb).or (g.get? p) := by
  induction bs generalizing g with
  | nil => rfl
  | cons b bs ih =>
    have hin : p ∈ rectangle b.x b.y b.w b.h ↔ b.Covers p := mem_rectangle
    rw [stack, List.foldl_cons, ← stack, ih, get?_paint, Slab.top]
    simp only [hin]
    cases Slab.top bs p with
    | some s => rfl
    | none =>
      by_cases hcov : b.Covers p
      · rw [if_pos hcov, if_pos hcov]
        rfl
      · rw [if_neg hcov, if_neg hcov]
        rfl

/-- The rectangles of the prologue. -/
def prologueSlabs : List Slab :=
  [⟨0, 0, 2, 2, ⟨0, 0⟩⟩, ⟨0, 0, 1, 1, ⟨0, 0⟩⟩, ⟨0, 1, 1, 1, ⟨0, 1⟩⟩, ⟨0, 2, 2, 1, ⟨0, 1⟩⟩,
    ⟨1, 2, 1, 1, ⟨0, 1⟩⟩, ⟨1, 3, 1, 1, ⟨0, 2⟩⟩, ⟨1, 4, 1, 1, ⟨0, 0⟩⟩, ⟨0, 5, 3, 1, ⟨0, 1⟩⟩,
    ⟨2, 6, 1, 1, ⟨0, 1⟩⟩, ⟨2, 5, 1, 1, ⟨0, 1⟩⟩]

/-- The session behind the prologue. -/
def Session.entered (deepest : Int) : Session where
  grid := Grid.stack {} prologueSlabs
  shade := ⟨1, 2⟩
  maxDepth := deepest
  x := 3
  y := 5

/-- A loop comes first. -/
def opensFirst (code : List Instruction) : Bool := code.head?.any (·.symbol = .loopOpen)

/-- The columns of the spacer. -/
def spacerRow : List Column := Stroke.row ⟨1, 2⟩ Template.spacer

/-- The cursor before the first instruction. -/
def Cursor.start (code : List Instruction) : Cursor :=
  if opensFirst code then ⟨5, Stroke.rowShade ⟨1, 2⟩ Template.spacer, []⟩ else ⟨3, ⟨1, 2⟩, []⟩

/-- What is painted before the first instruction. -/
def startCell (code : List Instruction) (p : Pos) : Option Rgb :=
  (if opensFirst code then Column.cell 3 laneRow spacerRow p else none).or
    ((Slab.top prologueSlabs p).map Shade.rgb)

/-- What the epilogue paints. -/
def epilogueCell (c : Cursor) (p : Pos) : Option Rgb :=
  (Column.cell (c.x + 2) (laneRow - 1) [⟨3, (⟨0, 0⟩ : Shade).rgb⟩] p).or
    (Column.cell c.x laneRow [⟨1, c.shade.rgb⟩, ⟨1, .white⟩] p)

namespace Drawing

/-- Draws what comes before the first instruction. -/
def opening (code : List Instruction) : Drawing Unit := do
  prologue
  if opensFirst code then Template.spacer.forM Stroke.draw

/-- A program is drawn by its opening, its instructions and the epilogue. -/
theorem program_eq (code : List Instruction) (st : Session) :
    program code st = (do
      opening code
      code.forM fun i ↦ instruction i.symbol i.depth
      epilogue
      finish : Drawing Grid) st := by
  unfold program opening opensFirst
  rw [bind_assoc]
  split
  · rfl
  · rfl

private theorem prologue_eq (deepest : Int) :
    prologue { maxDepth := deepest } = .ok () (Session.entered deepest) := by
  rfl

/-- Once no loop is open, a grid is finished as it is. -/
theorem finish_eq {st : Session} (h : st.loops = []) : finish st = .ok st.grid st := by
  change (if st.loops.isEmpty then pure st.grid else throw _ : Drawing Grid) st = _
  rw [h]
  rfl

end Drawing

private theorem get?_entered (deepest : Int) (p : Pos) :
    (Session.entered deepest).grid.get? p = (Slab.top prologueSlabs p).map Shade.rgb := by
  rw [Session.entered, Grid.get?_stack, Grid.get?_empty, Option.or_none]

private theorem prologue_bounds {p : Pos} {k : Rgb}
    (h : (Slab.top prologueSlabs p).map Shade.rgb = some k) :
    (0 ≤ p.1 ∧ p.1 < 3 ∧ 0 ≤ p.2 ∧ p.2 < 7) ∧ k ≠ (⟨1, 2⟩ : Shade).rgb := by
  obtain ⟨s, hs, rfl⟩ := Option.map_eq_some_iff.mp h
  obtain ⟨b, hb, hcov, rfl⟩ := Slab.exists_of_top hs
  have hall : ∀ b ∈ prologueSlabs, 0 ≤ b.x ∧ b.x + b.w ≤ 3 ∧ 0 ≤ b.y ∧ b.y + b.h ≤ 7 ∧
      b.shade.rgb ≠ (⟨1, 2⟩ : Shade).rgb := by decide
  obtain ⟨h1, h2, h3, h4, hne⟩ := hall b hb
  obtain ⟨c1, c2, c3, c4⟩ := hcov
  exact ⟨by omega, hne⟩

private theorem ready_entered (deepest : Nat) :
    Cursor.Ready deepest ⟨3, ⟨1, 2⟩, []⟩ (Session.entered deepest) := by
  refine ⟨rfl, rfl, rfl, rfl, rfl, by decide, ?_, ?_, ?_, ?_, trivial, fun l hl ↦ nomatch hl⟩
  · exact Grid.bounded_empty.stack prologueSlabs
  · intro p hp
    rw [get?_entered, Option.eq_none_iff_forall_ne_some]
    intro k hk
    have := (prologue_bounds hk).1
    simp only at hp
    omega
  · intro z hz
    rw [get?_entered, Option.eq_none_iff_forall_ne_some]
    intro k hk
    have := (prologue_bounds hk).1
    simp only [laneRow] at hz this
    omega
  · intro z k hk
    rw [get?_entered] at hk
    exact (prologue_bounds hk).2

private theorem ready_spacer (deepest : Nat) {g : Grid}
    (hget : ∀ p, g.get? p =
      (Column.cell 3 laneRow spacerRow p).or ((Slab.top prologueSlabs p).map Shade.rgb))
    (hb : g.Bounded) :
    Cursor.Ready deepest ⟨5, Stroke.rowShade ⟨1, 2⟩ Template.spacer, []⟩
      { grid := g, shade := Stroke.rowShade ⟨1, 2⟩ Template.spacer, maxDepth := deepest, x := 5,
        y := 5 } := by
  -- from the last column of the spacer on, nothing else shows
  have hlast {p : Pos} {k : Rgb} (hp : 4 ≤ p.1) (hk : g.get? p = some k) :
      p = (4, laneRow) ∧ k = ((⟨1, 2⟩ : Shade).step .push).rgb := by
    rw [hget, Option.or_eq_some_iff] at hk
    rcases hk with hk | ⟨-, hk⟩
    · obtain ⟨i, c, hi, hx, hy, hy', rfl⟩ := Column.cell_eq_some.mp hk
      change [(⟨1, _⟩ : Column), ⟨1, _⟩][i]? = some c at hi
      match i, hi with
      | 0, hi => omega
      | 1, hi =>
        cases hi
        exact ⟨Prod.ext hx (by simp only at hy' ⊢; omega), rfl⟩
    · have := (prologue_bounds hk).1
      omega
  refine ⟨rfl, rfl, rfl, rfl, rfl, by decide, hb, ?_, ?_, ?_, trivial, fun l hl ↦ nomatch hl⟩
  · intro p hp
    rw [Option.eq_none_iff_forall_ne_some]
    intro k hk
    simp only at hp
    rw [(hlast (by omega) hk).1] at hp
    simp only at hp
    omega
  · intro z hz
    rw [Option.eq_none_iff_forall_ne_some]
    intro k hk
    have := congrArg Prod.snd (hlast (Int.le_refl 4) hk).1
    simp only at this
    omega
  · intro z k hk
    rw [(hlast (Int.le_refl 4) hk).2]
    decide

/-- The opening leaves a session that is ready for the first instruction. -/
theorem Drawing.exists_opening (code : List Instruction) (deepest : Nat) :
    ∃ st, opening code { maxDepth := deepest } = .ok () st ∧
      (Cursor.start code).Ready deepest st ∧ ∀ p, st.grid.get? p = startCell code p := by
  have hentered := ready_entered deepest
  rw [opening, bind_of_ok (prologue_eq deepest)]
  cases hfirst : opensFirst code with
  | false =>
    refine ⟨Session.entered deepest, rfl, ?_, ?_⟩
    · rw [Cursor.start, hfirst]
      exact hentered
    · intro p
      rw [get?_entered, startCell, hfirst]
      rfl
  | true =>
    have hstraight : ∀ k ∈ Template.spacer, k.Straight := by decide
    have hdraw : Template.spacer.forM Stroke.draw (Session.entered deepest) =
        .ok () ((Session.entered deepest).lay spacerRow
          (Stroke.rowShade ⟨1, 2⟩ Template.spacer)) :=
      draw_row hstraight (Session.entered deepest) hentered.palette
    have hget (p : Pos) : ((Session.entered deepest).lay spacerRow
        (Stroke.rowShade ⟨1, 2⟩ Template.spacer)).grid.get? p =
          (Column.cell 3 laneRow spacerRow p).or ((Slab.top prologueSlabs p).map Shade.rgb) := by
      rw [Session.lay, Grid.get?_lay, get?_entered]
      rfl
    refine ⟨_, hdraw, ?_, ?_⟩
    · rw [Cursor.start, hfirst]
      exact ready_spacer deepest hget (hentered.bounded.lay _ _ _)
    · intro p
      rw [hget, startCell, hfirst]
      rfl

/-- The epilogue paints at the cursor. -/
theorem Drawing.draw_epilogue {st : Session} (hs : st.shade.InPalette) (hy : st.y = laneRow) :
    ∃ last, epilogue st = .ok () last ∧ last.loops = st.loops ∧
      (st.grid.Bounded → last.grid.Bounded) ∧
      ∀ p, last.grid.get? p =
        (epilogueCell ⟨st.x, st.shade, st.loops⟩ p).or (st.grid.get? p) := by
  let laid := st.lay [⟨1, st.shade.rgb⟩, ⟨1, .white⟩] st.shade
  have hrow : [Stroke.paint 1, Stroke.white 1].forM Stroke.draw st = .ok () laid :=
    draw_row (by decide) st hs
  have hpillar : (Stroke.pillar 1 3 (⟨0, 0⟩ : Shade).rgb).draw laid = .ok () { laid with
      grid := laid.grid.lay laid.x (laid.y - 1) [⟨3, (⟨0, 0⟩ : Shade).rgb⟩] } := by
    rw [Grid.lay, Grid.lay]
    rfl
  have hall : epilogue st = .ok () _ := (forM_append_of_ok hrow).trans (forM_cons_of_ok hpillar)
  refine ⟨_, hall, rfl, fun hb ↦ (hb.lay _ _ _).lay _ _ _, ?_⟩
  intro p
  simp only [laid, Session.lay, Grid.get?_lay, hy, epilogueCell, Option.or_assoc]
  rfl

private theorem Drawing.exists_epilogue {deepest : Nat} {c : Cursor} {st : Session}
    (h : c.Ready deepest st) :
    ∃ st', epilogue st = .ok () st' ∧ st'.loops = st.loops ∧ st'.grid.Bounded ∧
      ∀ p, st'.grid.get? p = (epilogueCell c p).or (st.grid.get? p) := by
  have hpal : st.shade.InPalette := by
    rw [h.shade]
    exact h.palette
  obtain ⟨last, hdraw, hloops, hbounded, hget⟩ := draw_epilogue hpal h.y
  rw [h.x, h.shade, h.loops] at hget
  exact ⟨last, hdraw, hloops, hbounded h.bounded, hget⟩

/-- Draws the opening and some instructions. -/
def Drawing.upTo (code pre : List Instruction) : Drawing Unit := do
  opening code
  pre.forM fun i ↦ instruction i.symbol i.depth

/-- What a finished grid shows: the opening, each instruction behind those before, and the epilogue.
-/
structure Drawn (deepest : Nat) (code : List Instruction) (g : Grid) : Prop where
  bounded : g.Bounded
  inside : ∀ p k, g.get? p = some k → 0 ≤ p.1 ∧ 0 ≤ p.2
  opening : ∀ p : Pos, p.1 < (Cursor.start code).x → g.get? p = startCell code p
  tile : ∀ pre i post, code = pre ++ i :: post → ∃ st st' : Session,
    Drawing.upTo code pre { maxDepth := deepest } = .ok () st ∧
      ((Cursor.start code).run deepest pre).Ready deepest st ∧
      ((Cursor.start code).run deepest pre).Fits deepest i ∧
      ((Cursor.start code).run deepest pre).Draws deepest i st st' ∧
      (((Cursor.start code).run deepest pre).next deepest i).Ready deepest st' ∧
      (((Cursor.start code).run deepest pre).next deepest i).Keeps deepest st'.grid g
  epilogue : ∀ p : Pos, ((Cursor.start code).run deepest code).x ≤ p.1 →
    g.get? p = epilogueCell ((Cursor.start code).run deepest code) p

/-- The epilogue is three columns wide and stands in the rows around the lane. -/
theorem epilogueCell_bounds {c : Cursor} {p : Pos} {k : Rgb} (h : epilogueCell c p = some k) :
    c.x ≤ p.1 ∧ p.1 < c.x + 3 ∧ 4 ≤ p.2 ∧ p.2 < 7 := by
  rw [epilogueCell, Option.or_eq_some_iff] at h
  rcases h with h | ⟨-, h⟩
  · obtain ⟨i, col, hi, hx, hy, hy', -⟩ := Column.cell_eq_some.mp h
    have hlt := (List.getElem?_eq_some_iff.mp hi).1
    have hcol := List.mem_of_getElem? hi
    simp only [List.mem_cons, List.not_mem_nil, or_false] at hcol
    simp only [List.length_cons, List.length_nil] at hlt
    simp only [hcol, laneRow] at hy hy'
    omega
  · obtain ⟨i, col, hi, hx, hy, hy', -⟩ := Column.cell_eq_some.mp h
    have hlt := (List.getElem?_eq_some_iff.mp hi).1
    have hcol : col.height = 1 := by
      have hmem := List.mem_of_getElem? hi
      simp only [List.mem_cons, List.not_mem_nil, or_false] at hmem
      rcases hmem with rfl | rfl <;> rfl
    simp only [List.length_cons, List.length_nil] at hlt
    rw [hcol, laneRow] at hy'
    rw [laneRow] at hy
    omega

/-- The opening is painted in the first seven rows of the extent. -/
theorem startCell_bounds {code : List Instruction} {p : Pos} {k : Rgb}
    (h : startCell code p = some k) : 0 ≤ p.1 ∧ 0 ≤ p.2 ∧ p.2 < 7 := by
  rw [startCell, Option.or_eq_some_iff] at h
  rcases h with h | ⟨-, h⟩
  · split at h
    · obtain ⟨i, col, hi, hx, hy, hy', -⟩ := Column.cell_eq_some.mp h
      have hheight : ∀ col ∈ spacerRow, col.height = 1 := by decide
      rw [hheight col (List.mem_of_getElem? hi), laneRow] at hy'
      rw [laneRow] at hy
      omega
    · cases h
  · have := (prologue_bounds h).1
    omega

/-- The lane starts behind the prologue. -/
theorem Cursor.three_le_start (code : List Instruction) : 3 ≤ (Cursor.start code).x := by
  rw [start]
  split <;> decide

/-- The cursor never moves back. -/
theorem Cursor.le_run (deepest : Nat) (c : Cursor) (code : List Instruction) :
    c.x ≤ (c.run deepest code).x := by
  induction code generalizing c with
  | nil => exact Int.le_refl _
  | cons i code ih =>
    have hstep : c.x ≤ (c.next deepest i).x := by
      rw [next]
      simp only
      omega
    exact Int.le_trans hstep (ih _)

private theorem Cursor.Keeps.epilogue {deepest : Nat} {c e : Cursor} {g g' g'' : Grid}
    (h : c.Keeps deepest g g') (hx : c.x ≤ e.x)
    (hget : ∀ p, g''.get? p = (epilogueCell e p).or (g'.get? p)) : c.Keeps deepest g g'' := by
  have hleft (p : Pos) (hp : p.1 < c.x) : g''.get? p = g'.get? p := by
    have hnone : epilogueCell e p = none := by
      rw [Option.eq_none_iff_forall_ne_some]
      intro k hk
      have := (epilogueCell_bounds hk).1
      omega
    rw [hget, hnone, Option.none_or]
  refine ⟨?_, ?_, ?_⟩
  · intro p k hp hk
    rw [hleft p hp]
    exact h.painted p k hp hk
  · intro p k hp hnone hk
    rw [hleft p hp] at hk
    exact h.spared p k hp hnone hk
  · intro p k hp hk
    rw [hget, Option.or_eq_some_iff] at hk
    rcases hk with hk | ⟨-, hk⟩
    · have := (epilogueCell_bounds hk).2
      omega
    · exact h.rows p k hp hk

/-- Nested instructions are drawn, and no loop is pending at the end. -/
theorem exists_drawing {code : List Instruction} (h : Nests 0 code) {deepest : Nat}
    (hD : ∀ i ∈ code, i.depth ≤ deepest) :
    ∃ g st, Drawing.program code { maxDepth := deepest } = .ok g st ∧ st.loops = [] ∧
      Drawn deepest code g := by
  have hstart : (Cursor.start code).loops = [] := by
    rw [Cursor.start]
    split <;> rfl
  obtain ⟨hfits, hend⟩ := h.fitsAll (c := Cursor.start code) hD (by rw [hstart]; rfl)
  obtain ⟨first, hopening, hready, hcell⟩ := Drawing.exists_opening code deepest
  obtain ⟨last, hcode, hready', hkeeps⟩ := hready.run hfits
  obtain ⟨st, hepilogue, hloops, hbounded, hget⟩ := Drawing.exists_epilogue hready'
  have hnone : st.loops = [] := by
    rw [hloops, hready'.loops, hend]
  have hall := hkeeps.epilogue (Cursor.le_run deepest _ code) hget
  have hleft (p : Pos) (hp : p.1 < (Cursor.start code).x) :
      st.grid.get? p = startCell code p := by
    rw [← hcell]
    cases hfirst : first.grid.get? p with
    | some k => exact hall.painted p k hp hfirst
    | none =>
      rw [Option.eq_none_iff_forall_ne_some]
      intro k hk
      obtain ⟨-, -, l, hl, -⟩ := hall.spared p k hp hfirst hk
      rw [hstart] at hl
      cases hl
  refine ⟨st.grid, st, ?_, hnone, hbounded, ?_, ?_, ?_, ?_⟩
  · rw [Drawing.program_eq, bind_of_ok hopening, bind_of_ok hcode, bind_of_ok hepilogue,
      Drawing.finish_eq hnone]
  · intro p k hk
    by_cases hp : p.1 < (Cursor.start code).x
    · rw [hleft p hp] at hk
      exact ⟨(startCell_bounds hk).1, (startCell_bounds hk).2.1⟩
    · have := hall.rows p k (by omega) hk
      have := Cursor.three_le_start code
      omega
  · exact hleft
  · intro pre i post heq
    obtain ⟨st₁, st₂, hdraw, hready₁, hi, hdraws, hready₂, hkeeps₂⟩ :=
      hready.split (by rw [← heq]; exact hfits) (by rw [← heq]; exact hcode)
    have hx : (((Cursor.start code).run deepest pre).next deepest i).x ≤
        ((Cursor.start code).run deepest code).x := by
      rw [heq, Cursor.run_append, ← heq]
      exact Cursor.le_run deepest _ post
    exact ⟨st₁, st₂, (bind_of_ok hopening).trans hdraw, hready₁, hi, hdraws, hready₂,
      hkeeps₂.epilogue hx hget⟩
  · intro p hp
    rw [hget, hready'.blank p hp, Option.or_none]

/-- What can be parsed has a grid. -/
theorem exists_translate {text : String} {code : List Instruction}
    (hparse : Source.parse text = .ok code) :
    ∃ grid last, translate text = .ok grid ∧
      Drawing.program code { maxDepth := Source.maxDepth code } = .ok grid last ∧
      last.loops = [] ∧ Drawn (Source.maxDepth code) code grid := by
  obtain ⟨grid, last, hprogram, hloops, hdrawn⟩ :=
    exists_drawing (nests_of_parse hparse) fun i hi ↦ depth_le_maxDepth hi
  refine ⟨grid, last, ?_, hprogram, hloops, hdrawn⟩
  rw [translate, hparse]
  simp only [hprogram]

/-- Something is painted in the first column. -/
theorem Drawn.width_pos {deepest : Nat} {code : List Instruction} {g : Grid}
    (h : Drawn deepest code g) : 0 < g.width := by
  have hstart := Cursor.three_le_start code
  have hcell := h.opening (0, 0) (by simp only; omega)
  rw [startCell, Column.cell_outside _ (.inl (by decide)), ite_self, Option.none_or] at hcell
  have htop : (Slab.top prologueSlabs (0, 0)).isSome := by decide
  obtain ⟨s, hs⟩ := Option.isSome_iff_exists.mp htop
  rw [hs, Option.map_some] at hcell
  have := (h.bounded _ _ hcell).1
  omega

end BrainPiet
