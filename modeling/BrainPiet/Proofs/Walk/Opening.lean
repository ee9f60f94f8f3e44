import BrainPiet.Proofs.Walk.Block
import BrainPiet.Proofs.Walk.Ending

/-!
# From the corner to the lane

A walk starts in the corner and comes through the five blocks of the prologue. It pushes four values
and subtracts the last two, and so it enters the lane with the stack `0 3 3`. Where the first column
of the lane has two codels the walk enters the lower one, but it goes on as if it had entered the
upper one.
-/

namespace BrainPiet

open Template (laneRow)

private theorem linked_of_chain {block : List Pos} {q : Pos} {rest : List Pos}
    (hchain : (q :: rest).IsChain fun a b ↦ ∃ d, b = a.toward d) (hin : ∀ r ∈ rest, r ∈ block) :
    ∀ r ∈ q :: rest, Linked block q r := by
  induction rest generalizing q with
  | nil =>
    intro r hr
    rw [List.mem_singleton.mp hr]
    exact .refl
  | cons q' rest ih =>
    rw [List.isChain_cons_cons] at hchain
    intro r hr
    rcases List.mem_cons.mp hr with rfl | hr
    · exact .refl
    · exact .head ⟨hin q' List.mem_cons_self, hchain.1⟩
        (ih hchain.2 (fun r hr ↦ hin r (List.mem_cons_of_mem _ hr)) r hr)

/-- What is seen from the corner to the lane. -/
structure OpeningShown (view : Pos → Codel) : Prop where
  prologue : ∀ q : Pos, q.1 < 3 → view q = match Slab.top prologueSlabs q with
    | some s => .shade s
    | none => .black
  entry : view (3, laneRow) = .shade ⟨1, 2⟩
  lower : view (3, laneRow + 1) = .black ∨ view (3, laneRow + 1) = .shade ⟨1, 2⟩

namespace OpeningShown

variable {view : Pos → Codel} {s : Shade}

theorem shade (h : OpeningShown view) {q : Pos} (hq : q.1 < 3)
    (htop : Slab.top prologueSlabs q = some s) : view q = .shade s := by
  rw [h.prologue q hq, htop]

theorem black (h : OpeningShown view) {q : Pos} (hq : q.1 < 3)
    (htop : Slab.top prologueSlabs q = none) : view q = .black := by
  rw [h.prologue q hq, htop]

/-- A chain of codels of the prologue is a patch if no codel beside it has its shade. -/
theorem patch (h : OpeningShown view) {q : Pos} {rest : List Pos}
    (hin : ∀ r ∈ q :: rest, r.1 < 3 ∧ Slab.top prologueSlabs r = some s)
    (hclosed : ∀ d, ∀ r ∈ q :: rest, Slab.top prologueSlabs (r.toward d) = some s →
      r.toward d ∈ q :: rest)
    (hright : ∀ r ∈ q :: rest, r.1 = 2 → view (3, r.2) ≠ .shade s) (hnodup : (q :: rest).Nodup)
    (hchain : (q :: rest).IsChain fun a b ↦ ∃ d, b = a.toward d) : Patch view s (q :: rest) := by
  refine ⟨fun r hr ↦ h.shade (hin r hr).1 (hin r hr).2, ?_, hnodup, q, List.mem_cons_self, ?_⟩
  · intro r hr d hview
    by_cases hlane : (r.toward d).1 < 3
    · apply hclosed d r hr
      rw [h.prologue _ hlane] at hview
      split at hview
      · next t htop =>
        rw [htop, Codel.shade.inj hview]
      · cases hview
    · have hr3 := (hin r hr).1
      cases d with
      | right =>
        have hx : r.1 = 2 := by
          simp only [Pos.toward, Direction.dx] at hlane
          omega
        have hnext : r.toward .right = (3, r.2) :=
          Prod.ext (by simp only [Pos.toward, Direction.dx]; omega) (Int.add_zero _)
        rw [hnext] at hview
        exact absurd hview (hright r hr hx)
      | _ =>
        simp only [Pos.toward, Direction.dx] at hlane
        omega
  · exact linked_of_chain hchain fun r hr ↦ List.mem_cons_of_mem _ hr

private def corner : List Pos := [(0, 0), (1, 0), (1, 1)]

private def bend : List Pos := [(0, 1), (0, 2), (1, 2)]

private def gate : List Pos := [(0, 5), (1, 5), (2, 5), (2, 6)]

private theorem patch_inner (h : OpeningShown view) {q : Pos} {rest : List Pos}
    (hin : ∀ r ∈ q :: rest, r.1 < 2 ∧ Slab.top prologueSlabs r = some s)
    (hclosed : ∀ d, ∀ r ∈ q :: rest, Slab.top prologueSlabs (r.toward d) = some s →
      r.toward d ∈ q :: rest) (hnodup : (q :: rest).Nodup)
    (hchain : (q :: rest).IsChain fun a b ↦ ∃ d, b = a.toward d) : Patch view s (q :: rest) := by
  apply h.patch _ hclosed _ hnodup hchain
  · intro r hr
    exact ⟨by have := (hin r hr).1; omega, (hin r hr).2⟩
  · intro r hr hx
    have := (hin r hr).1
    omega

private theorem patch_corner (h : OpeningShown view) : Patch view ⟨0, 0⟩ corner :=
  h.patch_inner (by decide) (by intro d; cases d <;> decide) (by decide)
    (.cons_cons ⟨.right, by decide⟩ (.cons_cons ⟨.down, by decide⟩ (.singleton _)))

private theorem patch_bend (h : OpeningShown view) : Patch view ⟨0, 1⟩ bend :=
  h.patch_inner (by decide) (by intro d; cases d <;> decide) (by decide)
    (.cons_cons ⟨.down, by decide⟩ (.cons_cons ⟨.right, by decide⟩ (.singleton _)))

private theorem patch_third (h : OpeningShown view) : Patch view ⟨0, 2⟩ [(1, 3)] :=
  h.patch_inner (by decide) (by intro d; cases d <;> decide) (by decide) (.singleton _)

private theorem patch_fourth (h : OpeningShown view) : Patch view ⟨0, 0⟩ [(1, 4)] :=
  h.patch_inner (by decide) (by intro d; cases d <;> decide) (by decide) (.singleton _)

private theorem patch_gate (h : OpeningShown view) : Patch view ⟨0, 1⟩ gate := by
  apply h.patch (by decide) (by intro d; cases d <;> decide) _ (by decide)
    (.cons_cons ⟨.right, by decide⟩ (.cons_cons ⟨.right, by decide⟩
      (.cons_cons ⟨.down, by decide⟩ (.singleton _))))
  have hentry : view (3, 5) ≠ .shade ⟨0, 1⟩ := by
    intro heq
    exact absurd (h.entry.symm.trans heq) (by decide)
  have hlower : view (3, 6) ≠ .shade ⟨0, 1⟩ := by
    intro heq
    rcases h.lower with hblack | hshade
    · exact absurd (hblack.symm.trans heq) (by decide)
    · exact absurd (hshade.symm.trans heq) (by decide)
  intro r hr hx
  have hrow : r.2 = 5 ∨ r.2 = 6 := by
    revert r
    decide
  rcases hrow with hrow | hrow
  · rw [hrow]
    exact hentry
  · rw [hrow]
    exact hlower

end OpeningShown

namespace Picture

variable {p : Picture} {view : Pos → Codel}

/-- The operations of the prologue. -/
def prologueOps : List (Option Operation) :=
  [some .push, some .push, some .push, some .push, some .sub]

private theorem Renders.opening?_gate (hr : p.Renders view) (h : OpeningShown view) (m : Machine) :
    p.opening? OpeningShown.gate Adjustment.attempts (m.facing .down .left) =
      if view (3, laneRow + 1) = .black then some ((3, laneRow), m.facing .right .left)
      else some ((3, laneRow + 1), m.facing .right .right) := by
  have hflip (d : Direction) (side : Side) (e : Pos) (rest : List Adjustment)
      (he : Edge OpeningShown.gate d side e) (hlt : (e.toward d).1 < 3)
      (htop : Slab.top prologueSlabs (e.toward d) = none) :
      p.opening? OpeningShown.gate (.flip :: rest) (m.facing d side) =
        p.opening? OpeningShown.gate rest (m.facing d side.other) := by
    rw [hr.opening?_black he (h.black hlt htop), Adjustment.apply_flip]
  have hturn (d : Direction) (side : Side) (e : Pos) (rest : List Adjustment)
      (he : Edge OpeningShown.gate d side e) (hlt : (e.toward d).1 < 3)
      (htop : Slab.top prologueSlabs (e.toward d) = none) :
      p.opening? OpeningShown.gate (.turn :: rest) (m.facing d side) =
        p.opening? OpeningShown.gate rest (m.facing d.next side) := by
    rw [hr.opening?_black he (h.black hlt htop), Adjustment.apply_turn]
  have hupper : Edge OpeningShown.gate .right .left (2, 5) := by decide
  have hlower : Edge OpeningShown.gate .right .right (2, 6) := by decide
  calc p.opening? OpeningShown.gate Adjustment.attempts (m.facing .down .left)
    _ = p.opening? OpeningShown.gate [.turn, .flip, .turn, .flip, .turn, .flip, .turn]
        (m.facing .down .right) := hflip .down .left (2, 6) _ (by decide) (by decide) (by decide)
    _ = p.opening? OpeningShown.gate [.flip, .turn, .flip, .turn, .flip, .turn]
        (m.facing .left .right) := hturn .down .right (2, 6) _ (by decide) (by decide) (by decide)
    _ = p.opening? OpeningShown.gate [.turn, .flip, .turn, .flip, .turn]
        (m.facing .left .left) := hflip .left .right (0, 5) _ (by decide) (by decide) (by decide)
    _ = p.opening? OpeningShown.gate [.flip, .turn, .flip, .turn]
        (m.facing .up .left) := hturn .left .left (0, 5) _ (by decide) (by decide) (by decide)
    _ = p.opening? OpeningShown.gate [.turn, .flip, .turn]
        (m.facing .up .right) := hflip .up .left (0, 5) _ (by decide) (by decide) (by decide)
    _ = p.opening? OpeningShown.gate [.flip, .turn]
        (m.facing .right .right) := hturn .up .right (2, 5) _ (by decide) (by decide) (by decide)
    _ = if view (3, laneRow + 1) = .black then some ((3, laneRow), m.facing .right .left)
        else some ((3, laneRow + 1), m.facing .right .right) := by
      by_cases hblack : view (3, laneRow + 1) = .black
      · rw [if_pos hblack, hr.opening?_black hlower hblack, Adjustment.apply_flip]
        apply hr.opening?_open hupper
        intro heq
        exact absurd (h.entry.symm.trans heq) (by decide)
      · rw [if_neg hblack]
        exact hr.opening?_open hlower hblack .flip [.turn] m

/-- Where the walk enters the lane. -/
def laneEntry (view : Pos → Codel) (m : Machine) : Walker :=
  if view (3, laneRow + 1) = .black then ⟨m.facing .right .left, (3, laneRow)⟩
  else ⟨m.facing .right .right, (3, laneRow + 1)⟩

private theorem Renders.opening?_corner (hr : p.Renders view) (h : OpeningShown view) (m : Machine) :
    p.opening? OpeningShown.corner Adjustment.attempts (m.facing .right .left) =
      some ((1, 2), m.facing .down .right) := by
  have hnext : view (1, 2) = .shade ⟨0, 1⟩ := h.shade (by decide) (by decide)
  apply hr.opening?_turn (show Edge OpeningShown.corner .right .left (1, 0) by decide)
    (h.black (by decide) (by decide)) (show Edge OpeningShown.corner .right .right (1, 1) by decide)
    (h.black (by decide) (by decide)) (show Edge OpeningShown.corner .down .right (1, 1) by decide)
  intro heq
  exact absurd (hnext.symm.trans heq) (by decide)

private theorem Renders.opening?_bend (hr : p.Renders view) (h : OpeningShown view) (m : Machine) :
    p.opening? OpeningShown.bend Adjustment.attempts (m.facing .down .right) =
      some ((1, 3), m.facing .down .left) := by
  have hnext : view (1, 3) = .shade ⟨0, 2⟩ := h.shade (by decide) (by decide)
  apply hr.opening?_flip (show Edge OpeningShown.bend .down .right (0, 2) by decide)
    (h.black (by decide) (by decide)) (show Edge OpeningShown.bend .down .left (1, 2) by decide)
  intro heq
  exact absurd (hnext.symm.trans heq) (by decide)

private theorem Renders.opening?_down (hr : p.Renders view) {y : Int} {t : Shade}
    (hnext : view (1, y + 1) = .shade t) (hedge : Edge [(1, y)] .down .left (1, y)) (m : Machine) :
    p.opening? [(1, y)] Adjustment.attempts (m.facing .down .left) =
      some ((1, y + 1), m.facing .down .left) := by
  apply hr.opening?_open hedge
  intro heq
  exact Codel.noConfusion (hnext.symm.trans heq)

/-- The prologue leads from the corner to the lane, with the stack of a tape with one cell. -/
theorem Renders.path_prologue (hr : p.Renders view) (h : OpeningShown view) (input : List UInt8) :
    p.Path 0 prologueOps ⟨{ input }, (0, 0)⟩
      (laneEntry view (Machine.setStack { input } [0, 3, 3])) := by
  have hpush (m : Machine) (size : Int) (d : Direction) (side : Side) :
      Machine.execute .push size (m.facing d side) =
        .ok () ((m.after .push size).facing d side) := Machine.execute_facing (by decide) m size d side
  have h1 : p.Treads 0 ⟨({ input } : Machine).facing .right .left, (0, 0)⟩ (some .push)
      ⟨(Machine.setStack { input } [3]).facing .down .right, (1, 2)⟩ :=
    hr.treads_shade h.patch_corner (by decide) (clear_of_column (by decide)) (Nat.zero_le _)
      (hr.opening?_corner h _) (h.shade (s := ⟨0, 1⟩) (by decide) (by decide)) (by decide)
      (hpush _ _ _ _)
  have h2 : p.Treads 0 ⟨(Machine.setStack { input } [3]).facing .down .right, (1, 2)⟩ (some .push)
      ⟨(Machine.setStack { input } [3, 3]).facing .down .left, (1, 3)⟩ :=
    hr.treads_shade h.patch_bend (by decide) (clear_of_column (by decide)) (Nat.zero_le _)
      (hr.opening?_bend h _) (h.shade (s := ⟨0, 2⟩) (by decide) (by decide)) (by decide)
      (hpush _ _ _ _)
  have h3 : p.Treads 0 ⟨(Machine.setStack { input } [3, 3]).facing .down .left, (1, 3)⟩ (some .push)
      ⟨(Machine.setStack { input } [1, 3, 3]).facing .down .left, (1, 4)⟩ :=
    hr.treads_shade h.patch_third (by decide) (clear_of_column (by decide)) (Nat.zero_le _)
      (hr.opening?_down (h.shade (s := ⟨0, 0⟩) (by decide) (by decide)) (by decide) _)
      (h.shade (s := ⟨0, 0⟩) (by decide) (by decide)) (by decide) (hpush _ _ _ _)
  have h4 : p.Treads 0 ⟨(Machine.setStack { input } [1, 3, 3]).facing .down .left, (1, 4)⟩
      (some .push) ⟨(Machine.setStack { input } [1, 1, 3, 3]).facing .down .left, (1, 5)⟩ :=
    hr.treads_shade h.patch_fourth (by decide) (clear_of_column (by decide)) (Nat.zero_le _)
      (hr.opening?_down (h.shade (s := ⟨0, 1⟩) (by decide) (by decide)) (by decide) _)
      (h.shade (s := ⟨0, 1⟩) (by decide) (by decide)) (by decide) (hpush _ _ _ _)
  have h5 : p.Treads 0 ⟨(Machine.setStack { input } [1, 1, 3, 3]).facing .down .left, (1, 5)⟩
      (some .sub) (laneEntry view (Machine.setStack { input } [0, 3, 3])) := by
    have hopen := hr.opening?_gate h (Machine.setStack { input } [1, 1, 3, 3])
    have hsub (d : Direction) (side : Side) : Machine.execute .sub 4
        ((Machine.setStack { input } [1, 1, 3, 3]).facing d side) =
          .ok () ((Machine.setStack { input } [0, 3, 3]).facing d side) := rfl
    by_cases hblack : view (3, laneRow + 1) = .black
    · rw [if_pos hblack] at hopen
      rw [laneEntry, if_pos hblack]
      exact hr.treads_shade h.patch_gate (by decide) (clear_of_column (by decide)) (Nat.zero_le _)
        hopen h.entry (by decide) (hsub _ _)
    · rw [if_neg hblack] at hopen
      rw [laneEntry, if_neg hblack]
      exact hr.treads_shade h.patch_gate (by decide) (clear_of_column (by decide)) (Nat.zero_le _)
        hopen (h.lower.resolve_left hblack) (by decide) (hsub _ _)
  exact .cons h1 (.cons h2 (.cons h3 (.cons h4 h5.path)))

end Picture

private theorem Symbol.exists_first (a : Symbol) : ∃ h op rest, a.blocks = ⟨[h], op⟩ :: rest ∧
    op.Steady ∧ (h = 1 ∨ h = 2 ∧ (a.blocks.flatMap (·.heights))[1]? = some 1) := by
  cases a <;> exact ⟨_, _, _, rfl, by decide, by decide⟩

namespace Drawn

variable {D : Nat} {code post : List Instruction} {i : Instruction} {g : Grid}

private theorem start_of_not (hfirst : opensFirst code = false) :
    Cursor.start code = ⟨3, ⟨1, 2⟩, []⟩ := by
  rw [Cursor.start, hfirst]
  rfl

private def spacerLane : List Stretch := [⟨[1], .push⟩, ⟨[1], .pop⟩]

private theorem codel_spacer (h : Drawn D code g) (hfirst : opensFirst code = true) {j : Nat}
    {b : Bar} (hj : (Stretch.bars ⟨1, 2⟩ spacerLane)[j]? = some b) (z : Int) :
    g.codel (3 + j, z) = if z = laneRow then .shade b.shade else .black := by
  have hbar : ∀ b ∈ Stretch.bars ⟨1, 2⟩ spacerLane, b.height = 1 ∧ b.shade.InPalette := by decide
  obtain ⟨hone, hpal⟩ := hbar b (List.mem_of_getElem? hj)
  have hlt : j < 2 := (List.getElem?_eq_some_iff.mp hj).1
  have hx : (3 + j : Int) < (Cursor.start code).x := by
    have hfive : (Cursor.start code).x = 5 := by
      rw [Cursor.start, hfirst]
      rfl
    omega
  have htop : Slab.top prologueSlabs (3 + j, z) = none := by
    rw [Option.eq_none_iff_forall_ne_some]
    intro s hs
    obtain ⟨b, hb, hcov, -⟩ := Slab.exists_of_top hs
    have hright : ∀ b ∈ prologueSlabs, b.x + b.w ≤ 3 := by decide
    have := hright b hb
    have := hcov.2.1
    omega
  have hcol : spacerRow[j]? = some b.column := by
    have hrow : spacerRow = (Stretch.bars ⟨1, 2⟩ spacerLane).map Bar.column := by decide
    rw [hrow, List.getElem?_map, hj]
    rfl
  have hget := h.opening (3 + j, z) hx
  rw [startCell, hfirst, htop] at hget
  by_cases hz : z = laneRow
  · subst hz
    have hcell := Column.cell_of_getElem? (x := 3) (y := laneRow) (j := 0) hcol
      (by rw [Bar.column, hone]; exact Nat.one_pos)
    rw [Int.natCast_zero, Int.add_zero] at hcell
    rw [if_pos rfl, hcell] at hget
    rw [if_pos rfl]
    exact (Grid.codel_of_some hget).trans (Shade.ofColour_rgb hpal)
  · have hcell := Column.cell_below (x := 3) (y := laneRow) (z := z) hcol
      (by simp only [Bar.column, hone]; omega)
    rw [if_pos rfl, hcell] at hget
    rw [if_neg hz]
    exact Grid.codel_of_none hget

private theorem entry_cases (h : Drawn D code g) :
    g.codel (3, laneRow) = .shade ⟨1, 2⟩ ∧ (g.codel (3, laneRow + 1) = .black ∨
      ∃ op, op.Steady ∧ Patch g.codel ⟨1, 2⟩ (comb 3 laneRow [2]) ∧
        g.codel (3 + 1, laneRow) = .shade (Shade.step ⟨1, 2⟩ op) ∧
          g.codel (3 + 1, laneRow + 1) = .black) := by
  cases hfirst : opensFirst code with
  | true =>
    have hspacer := h.codel_spacer hfirst (j := 0) rfl
    exact ⟨hspacer laneRow, .inl (hspacer (laneRow + 1))⟩
  | false =>
    have hstart := start_of_not hfirst
    have hentry : g.codel ((Cursor.start code).x, laneRow) = .shade (Cursor.start code).shade :=
      h.entry (show code = [] ++ code from rfl)
    rw [hstart] at hentry
    refine ⟨hentry, ?_⟩
    cases code with
    | nil =>
      have hend := h.codel_end (y := laneRow + 1) (show (3 : Int) ≤ 3 by decide)
      have hx : ((Cursor.start []).run D []).x = 3 := rfl
      rw [hx, if_neg (by omega), if_neg (by decide), if_neg (by omega)] at hend
      exact .inl hend
    | cons i post =>
      have hshown : (Cursor.start (i :: post)).Shown D g.codel i :=
        h.shown (show i :: post = [] ++ i :: post from rfl)
      rw [hstart] at hshown
      have hi : i.symbol ≠ .loopOpen := by
        intro hopen
        simp [opensFirst, hopen] at hfirst
      obtain ⟨n, op, rest, hblocks, hsteady, hcase⟩ := i.symbol.exists_first
      have hlane := hshown.blocks
      rw [hblocks] at hlane
      obtain ⟨hpatch, hnext, -⟩ := hlane
      rcases hcase with rfl | ⟨rfl, hone⟩
      · left
        exact hshown.below hi (j := 0) (by rw [hblocks]; rfl)
      · right
        exact ⟨op, hsteady, hpatch, hnext, hshown.below hi hone⟩

/-- A finished grid shows the prologue and the start of the lane. -/
theorem openingShown (h : Drawn D code g) : OpeningShown g.codel := by
  obtain ⟨hentry, hcase⟩ := h.entry_cases
  refine ⟨fun q hq ↦ h.prologue hq, hentry, ?_⟩
  rcases hcase with hblack | ⟨op, -, hpatch, -⟩
  · exact .inl hblack
  · exact .inr (hpatch.shade _ (mem_comb_row 3 laneRow Nat.one_lt_two))

/-- Wherever the walk enters the lane, it goes on as from the upper codel. -/
theorem alike_entry {p : Picture} (h : Drawn D code g) (hr : p.Renders g.codel) (m : Machine) :
    p.Alike (Picture.laneEntry g.codel m) ⟨m.facing .right .left, (3, laneRow)⟩ := by
  have hclear {y : Int} (hy : 4 ≤ y) : Clear (3, y) := clear_of_row hy
  obtain ⟨-, hblack | ⟨op, hsteady, hpatch, hnext, hlow⟩⟩ := h.entry_cases
  · rw [Picture.laneEntry, if_pos hblack]
    exact .refl (hclear (by decide))
  · have hupper := mem_comb_top 3 laneRow Nat.two_pos
    have hlower := mem_comb_row 3 laneRow Nat.one_lt_two
    have hshade : g.codel (3, laneRow + 1) = .shade ⟨1, 2⟩ := hpatch.shade _ hlower
    have hedge (side : Side) := edge_column (x := 3) (y := laneRow) Nat.two_pos .right side
    have hopen : g.codel (3 + 1, laneRow) ≠ .black := by
      rw [hnext]
      exact Codel.noConfusion
    have hflip : p.opening? (comb 3 laneRow [2]) Adjustment.attempts (m.facing .right .right) =
        some ((3 + 1, laneRow), m.facing .right .left) :=
      hr.opening?_flip (hedge .right) hlow (hedge .left) hopen m
    have hstay : p.opening? (comb 3 laneRow [2]) Adjustment.attempts (m.facing .right .left) =
        some ((3 + 1, laneRow), m.facing .right .left) :=
      hr.opening?_open (hedge .left) hopen .flip Adjustment.attempts.tail m
    rw [Picture.laneEntry, if_neg (by rw [hshade]; exact Codel.noConfusion)]
    exact hr.alike hpatch hlower hupper (hclear (by decide)) rfl hflip hstay hnext
      (Shade.between_step _ op) (Machine.execute_facing hsteady m _ .right .left)

private theorem lane_spacer (h : Drawn D code g) (hfirst : opensFirst code = true) :
    Lane g.codel laneRow 3 ⟨1, 2⟩ spacerLane := by
  have hview {j : Nat} {b : Bar} := h.codel_spacer hfirst (j := j) (b := b)
  have hbar : ∀ b ∈ Stretch.bars ⟨1, 2⟩ spacerLane, b.height = 1 := by decide
  have hblack {j : Nat} {b : Bar} (hj : (Stretch.bars ⟨1, 2⟩ spacerLane)[j]? = some b) {z : Int}
      (hz : z ≠ laneRow) (s : Shade) : g.codel (3 + j, z) ≠ .shade s := by
    rw [hview hj, if_neg hz]
    exact Codel.noConfusion
  have hshow : Shows g.codel 3 laneRow (Stretch.bars ⟨1, 2⟩ spacerLane) := by
    intro i b hi j hj
    have := hbar b (List.mem_of_getElem? hi)
    rw [hview hi, if_pos (by omega)]
  have hend : g.codel (3 + (Stretch.width spacerLane : Nat), laneRow) =
      .shade (Stretch.shadeAfter ⟨1, 2⟩ spacerLane) := by
    have hentry : g.codel ((Cursor.start code).x, laneRow) = .shade (Cursor.start code).shade :=
      h.entry (show code = [] ++ code from rfl)
    rw [Cursor.start, hfirst] at hentry
    exact hentry
  apply lane_of_framed (by decide) hshow _ hend
  apply Framed.of_low hshow
  · exact fun i b hi ↦ hblack hi (by omega) _
  · intro i b hi
    exact hblack hi (by have := hbar b (List.mem_of_getElem? hi); omega) _
  · intro i b hi b' hb' j hj hj'
    have := hbar b (List.mem_of_getElem? hi)
    have := hbar b' hb'
    omega
  · intro b hb j hj
    have hgate : g.codel (2, 5) = .shade ⟨0, 1⟩ := h.prologue (by decide)
    have hone := hbar b (List.mem_of_getElem? hb)
    obtain rfl : j = 0 := by omega
    rw [head_bars (by decide) hb]
    intro heq
    exact absurd (hgate.symm.trans heq) (by decide)
  · intro b hb j hj
    have hone := hbar b (List.mem_of_getElem? hb)
    obtain rfl : j = 0 := by omega
    obtain rfl : (⟨1, Shade.step ⟨1, 2⟩ .push⟩ : Bar) = b := Option.some.inj hb
    intro heq
    exact absurd (hend.symm.trans heq) (by decide)

/-- From where it enters the lane the walk comes to the first tile with the stack it has. -/
theorem path_entry {p : Picture} {m : Machine} (h : Drawn D code g) (hr : p.Renders g.codel)
    (hm : 2 ≤ m.stack.length) : ∃ ops w, p.Path 2 ops (Picture.laneEntry g.codel m) w ∧
      p.Alike w ⟨m.facing .right .left, ((Cursor.start code).x, laneRow)⟩ := by
  have halike := h.alike_entry hr m
  cases hfirst : opensFirst code with
  | false =>
    rw [start_of_not hfirst]
    exact ⟨[], _, .nil _, halike⟩
  | true =>
    have hx : (Cursor.start code).x = 5 := by
      rw [Cursor.start, hfirst]
      rfl
    have hholds : m.Holds 2 (spacerLane.map Stretch.emission) :=
      ⟨hm, Nat.le_succ_of_le hm, trivial⟩
    have hafter : m.afterAll (spacerLane.map Stretch.emission) = m := rfl
    have hpath := hr.path_lane (by decide)
      (show ∀ b ∈ spacerLane, b.Sound ∧ b.op.Steady ∧ b.Leads .left by decide)
      (h.lane_spacer hfirst) hholds
    rw [hafter] at hpath
    rw [hx]
    exact ⟨_, _, halike.path hpath (List.cons_ne_nil _ _),
      .refl (clear_of_row (show (4 : Int) ≤ laneRow by decide))⟩

end Drawn

end BrainPiet
