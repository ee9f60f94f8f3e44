import BrainPiet.Proofs.Drawing.Shape

/-!
# Drawing instruction by instruction

A cursor says where the next tile goes, with which shade it starts and which loops are pending. Each
instruction that fits a cursor moves it on. A session is ready for a cursor when everything from the
cursor's column on is blank and the return row of every pending loop is free beside its two columns.

An instruction that fits a session that is ready succeeds and leaves a session that is ready. To the
left of the cursor it paints nothing but white on the return row of a pending loop.
-/

namespace BrainPiet

open Template (laneRow loopTest loopTurn)

/-- The number of codels in the columns of a loop. -/
def loopRows (deepest depth : Nat) : Nat := (deepest - depth) * 2 + 4

/-- The row on which a loop returns. -/
def returnRow (deepest : Nat) (depth : Int) : Int := laneRow + (deepest - depth) * 2 + 3

/-- The return row is the last one of the loop's columns. -/
theorem returnRow_eq {deepest depth : Nat} (h : depth ≤ deepest) :
    returnRow deepest depth = laneRow + loopRows deepest depth - 1 := by
  simp only [returnRow, loopRows]
  omega

/-- The tile of an instruction. -/
def Instruction.tile (deepest : Nat) (s : Shade) (i : Instruction) : Tile :=
  i.symbol.tile (loopRows deepest i.depth) s

/-- How many rows a tile reaches down from the lane. -/
def Instruction.bottom (deepest : Nat) (i : Instruction) : Nat :=
  if i.symbol.IsAction then 3 else loopRows deepest i.depth

/-- Every tile is sound. -/
theorem Instruction.sound (deepest : Nat) {s : Shade} (hs : s.InPalette) (i : Instruction) :
    (i.tile deepest s).Sound s (i.bottom deepest) := by
  rw [bottom]
  split
  · next ha => exact Symbol.sound_action ha _ hs
  · next ha => exact Symbol.sound_bracket ha (by simp only [loopRows]; omega) hs

/-- Every tile reaches down by some rows. -/
theorem Instruction.bottom_pos (deepest : Nat) (i : Instruction) : 0 < i.bottom deepest := by
  rw [bottom]
  split
  · decide
  · simp only [loopRows]
    omega

/-- Where the next tile goes. -/
structure Cursor where
  x : Int
  shade : Shade
  loops : List OpenLoop
  deriving DecidableEq, Repr

/-- Each pending loop is one deeper than the next. -/
def OpenLoop.Nested : List OpenLoop → Prop
  | [] => True
  | l :: ls => l.depth = ls.length + 1 ∧ Nested ls

/-- Of nested loops only the innermost is as deep as their number. -/
theorem OpenLoop.Nested.depth_le {ls : List OpenLoop} (h : Nested ls) {l : OpenLoop} (hl : l ∈ ls) :
    l.depth ≤ ls.length := by
  induction ls with
  | nil => cases hl
  | cons l' ls ih =>
    rw [List.length_cons]
    rcases List.mem_cons.mp hl with rfl | hl
    · rw [h.1]
      omega
    · have := ih h.2 hl
      omega

/-- The columns of a pending loop are painted down to the return row, which is free beside them. -/
def OpenLoop.Spared (deepest : Nat) (g : Grid) (x : Int) (l : OpenLoop) : Prop :=
  l.depth ≤ deepest ∧ ∃ turn, l.branch = some turn ∧ l.anchor < turn ∧ turn < x ∧
    (∃ k, g.get? (l.anchor, returnRow deepest l.depth) = some k) ∧
    (∃ k, g.get? (turn, returnRow deepest l.depth) = some k) ∧
    ∀ z, l.anchor < z → z ≠ turn → z < x → g.get? (z, returnRow deepest l.depth) = none

/-- Two sessions that differ in nothing but the colours of the painted cells. -/
structure Session.Recolours (st other : Session) : Prop where
  x : other.x = st.x
  y : other.y = st.y
  shade : other.shade = st.shade
  maxDepth : other.maxDepth = st.maxDepth
  loops : other.loops = st.loops
  painted : ∀ p, (other.grid.get? p).isSome = (st.grid.get? p).isSome

namespace Session.Recolours

variable {st other : Session} {p : Pos} {k : Rgb}

theorem refl (st : Session) : st.Recolours st := ⟨rfl, rfl, rfl, rfl, rfl, fun _ ↦ rfl⟩

private theorem exists_some (h : st.Recolours other) (hk : st.grid.get? p = some k) :
    ∃ k', other.grid.get? p = some k' := by
  apply Option.isSome_iff_exists.mp
  rw [h.painted, hk]
  rfl

/-- What was not painted is not painted. -/
theorem eq_none (h : st.Recolours other) (hp : st.grid.get? p = none) :
    other.grid.get? p = none := by
  apply Option.isNone_iff_eq_none.mp
  rw [← Option.not_isSome, h.painted, hp]
  rfl

end Session.Recolours

namespace Cursor

/-- The cursor behind an instruction. -/
def next (deepest : Nat) (c : Cursor) (i : Instruction) : Cursor where
  x := c.x + (i.tile deepest c.shade).width
  shade := (i.tile deepest c.shade).finish
  loops :=
    match i.symbol with
    | .loopOpen => ⟨c.x, i.depth, some (c.x + 9)⟩ :: c.loops
    | .loopClose => c.loops.tail
    | _ => c.loops

/-- A bracket has the depth that the pending loops say. -/
def Fits (deepest : Nat) (c : Cursor) (i : Instruction) : Prop :=
  match i.symbol with
  | .loopOpen => i.depth = c.loops.length + 1 ∧ i.depth ≤ deepest
  | .loopClose => 0 < c.loops.length ∧ i.depth = c.loops.length
  | _ => True

/-- An action fits any cursor. -/
theorem Fits.of_action {deepest : Nat} {c : Cursor} {i : Instruction} (ha : i.symbol.IsAction) :
    c.Fits deepest i := by
  unfold Fits
  split
  · next hsym => exact absurd hsym ha.1
  · next hsym => exact absurd hsym ha.2
  · trivial

/-- The spans of the return row that a closing bracket whitens. -/
def span (deepest : Nat) (c : Cursor) (i : Instruction) (p : Pos) : Option Rgb :=
  match i.symbol, c.loops with
  | .loopClose, ⟨anchor, depth, some turn⟩ :: _ =>
    (spanCell (returnRow deepest depth) turn (c.x + 2) p).or
      (spanCell (returnRow deepest depth) anchor turn p)
  | _, _ => none

/-- What an instruction paints. -/
def cell (deepest : Nat) (c : Cursor) (i : Instruction) (p : Pos) : Option Rgb :=
  ((i.tile deepest c.shade).cell c.x p).or (c.span deepest i p)

/-- The session has painted the cells of an instruction. -/
abbrev Draws (deepest : Nat) (c : Cursor) (i : Instruction) (st st' : Session) : Prop :=
  st.Adds (i.tile deepest c.shade).width (i.tile deepest c.shade).finish (c.next deepest i).loops
    (c.cell deepest i) st'

/-- The session can draw what comes at the cursor. -/
structure Ready (deepest : Nat) (c : Cursor) (st : Session) : Prop where
  x : st.x = c.x
  y : st.y = laneRow
  shade : st.shade = c.shade
  maxDepth : st.maxDepth = deepest
  loops : st.loops = c.loops
  palette : c.shade.InPalette
  bounded : st.grid.Bounded
  blank : ∀ p : Pos, c.x ≤ p.1 → st.grid.get? p = none
  margin : ∀ z, laneRow + 1 < z → st.grid.get? (c.x - 1, z) = none
  edge : ∀ z k, st.grid.get? (c.x - 1, z) = some k → k ≠ c.shade.rgb
  nested : OpenLoop.Nested c.loops
  spared : ∀ l ∈ c.loops, l.Spared deepest st.grid c.x

/-- What was painted to the left of the cursor stays, and what comes later is white on the return row
of a pending loop. -/
structure Keeps (deepest : Nat) (c : Cursor) (g g' : Grid) : Prop where
  painted : ∀ (p : Pos) k, p.1 < c.x → g.get? p = some k → g'.get? p = some k
  spared : ∀ (p : Pos) k, p.1 < c.x → g.get? p = none → g'.get? p = some k →
    k = .white ∧ laneRow + 2 < p.2 ∧
      ∃ l ∈ c.loops, p.2 = returnRow deepest l.depth ∧ l.anchor < p.1
  rows : ∀ (p : Pos) k, c.x ≤ p.1 → g'.get? p = some k → 1 ≤ p.2

variable {D : Nat} {c : Cursor} {i : Instruction} {st st' : Session}

private theorem span_eq_some {p : Pos} {k : Rgb} (h : c.span D i p = some k) :
    i.symbol = .loopClose ∧ k = .white ∧ ∃ l ls turn, c.loops = l :: ls ∧ l.branch = some turn ∧
      p.2 = returnRow D l.depth ∧
        ((turn < p.1 ∧ p.1 < c.x + 2) ∨ (l.anchor < p.1 ∧ p.1 < turn)) := by
  unfold span at h
  split at h
  · next anchor depth turn ls hsym hloops =>
    rw [Option.or_eq_some_iff] at h
    simp only [spanCell] at h
    rcases h with h | ⟨-, h⟩
    · split at h
      · next hp =>
        cases h
        exact ⟨hsym, rfl, _, ls, turn, hloops, rfl, hp.1, .inl hp.2⟩
      · cases h
    · split at h
      · next hp =>
        cases h
        exact ⟨hsym, rfl, _, ls, turn, hloops, rfl, hp.1, .inr hp.2⟩
      · cases h
  · cases h

private theorem span_eq_none (h : i.symbol ≠ .loopClose) (p : Pos) : c.span D i p = none := by
  rw [Option.eq_none_iff_forall_ne_some]
  intro k hk
  exact h (span_eq_some hk).1

/-- A span lies between the columns of a pending loop, where its return row is free. -/
theorem Ready.span_spec (h : c.Ready D st) {p : Pos} {k : Rgb} (hk : c.span D i p = some k) :
    k = .white ∧ p.1 + 2 < (c.next D i).x ∧ st.grid.get? p = none ∧
      ∃ l ls, c.loops = l :: ls ∧ (c.next D i).loops = ls ∧ p.2 = returnRow D l.depth ∧
        l.anchor < p.1 ∧ l.depth ≤ D := by
  obtain ⟨hsym, rfl, l, ls, turn, hloops, hbranch, hrow, hp⟩ := span_eq_some hk
  have hl : l ∈ c.loops := by
    rw [hloops]
    exact List.mem_cons_self
  obtain ⟨hdepth, turn', hbranch', hanchor, hturn, -, -, hfree⟩ := h.spared l hl
  obtain rfl : turn = turn' := by
    rw [hbranch, Option.some.injEq] at hbranch'
    exact hbranch'
  have hx : (c.next D i).x = c.x + 4 := by
    rw [next, Instruction.tile, hsym]
    rfl
  have hnone : st.grid.get? p = none := by
    by_cases hpx : p.1 < c.x
    · obtain ⟨px, py⟩ := p
      simp only at hrow hp hpx
      rw [hrow]
      exact hfree px (by omega) (by omega) hpx
    · exact h.blank p (by omega)
  have hnext : (c.next D i).loops = ls := by
    rw [next, hsym, hloops]
    rfl
  exact ⟨rfl, by omega, hnone, l, ls, hloops, hnext, hrow, by omega, hdepth⟩

private theorem Ready.bottom_le (h : c.Ready D st) (hf : c.Fits D i) {l : OpenLoop} (hl : l ∈ c.loops)
    (hl' : l ∈ (c.next D i).loops) : laneRow + i.bottom D ≤ returnRow D l.depth := by
  have hD : l.depth ≤ D := (h.spared l hl).1
  have hlen := h.nested.depth_le hl
  have haction (ha : i.symbol.IsAction) : laneRow + i.bottom D ≤ returnRow D l.depth := by
    rw [Instruction.bottom, if_pos ha, returnRow]
    omega
  have hbracket (ha : ¬i.symbol.IsAction) (hd : l.depth < i.depth) (hi : i.depth ≤ D) :
      laneRow + i.bottom D ≤ returnRow D l.depth := by
    rw [Instruction.bottom, if_neg ha, returnRow, loopRows]
    omega
  cases hsym : i.symbol with
  | loopOpen =>
    rw [Fits, hsym] at hf
    exact hbracket (by rw [hsym]; decide) (by omega) hf.2
  | loopClose =>
    rw [Fits, hsym] at hf
    cases hloops : c.loops with
    | nil =>
      rw [hloops] at hl
      cases hl
    | cons l₀ ls =>
      have hnested := h.nested
      have hhead := (h.spared l₀ (by rw [hloops]; exact List.mem_cons_self)).1
      rw [hloops] at hnested hf
      rw [next, hsym, hloops] at hl'
      have hd := hnested.2.depth_le hl'
      have hd₀ := hnested.1
      rw [List.length_cons] at hf
      exact hbracket (by rw [hsym]; decide) (by omega) (by omega)
  | _ => exact haction (by rw [hsym]; decide)

/-- The cells of a tile lie between the cursors, below the top row and above the return rows. -/
theorem Ready.tile_spec (h : c.Ready D st) {p : Pos} {k : Rgb}
    (hk : (i.tile D c.shade).cell c.x p = some k) :
    c.x ≤ p.1 ∧ p.1 < (c.next D i).x ∧ 1 ≤ p.2 ∧ p.2 < laneRow + i.bottom D :=
  (i.sound D h.palette).bounds (i.bottom_pos D) hk

private theorem Ready.spared_next (h : c.Ready D st) (hf : c.Fits D i)
    (ha : c.Draws D i st st')
    {l : OpenLoop} (hl : l ∈ c.loops) (hl' : l ∈ (c.next D i).loops) :
    l.Spared D st'.grid (c.next D i).x := by
  obtain ⟨hdepth, turn, hbranch, hanchor, hturn, ⟨k, hk⟩, ⟨k', hk'⟩, hfree⟩ := h.spared l hl
  have hpos := (i.sound D h.palette).width_pos
  have hx : (c.next D i).x = c.x + (i.tile D c.shade).width := rfl
  have hbelow := h.bottom_le hf hl hl'
  -- what was painted stays painted
  have hsome {p : Pos} {k : Rgb} (hp : st.grid.get? p = some k) :
      ∃ k, st'.grid.get? p = some k := by
    rw [ha.get, hp]
    cases c.cell D i p with
    | none => exact ⟨k, rfl⟩
    | some k' => exact ⟨k', rfl⟩
  refine ⟨hdepth, turn, hbranch, hanchor, by omega, hsome hk, hsome hk', ?_⟩
  intro z hz hne hlt
  have htile : (i.tile D c.shade).cell c.x (z, returnRow D l.depth) = none := by
    rw [Option.eq_none_iff_forall_ne_some]
    intro k hk
    have := (h.tile_spec hk).2.2.2
    simp only at this
    omega
  have hspan : c.span D i (z, returnRow D l.depth) = none := by
    rw [Option.eq_none_iff_forall_ne_some]
    intro k hk
    obtain ⟨-, -, -, l₀, ls, hloops, hnext, hrow, -, -⟩ := h.span_spec hk
    have hnested := h.nested
    rw [hloops] at hnested
    rw [hnext] at hl'
    have hd := hnested.2.depth_le hl'
    have hd₀ := hnested.1
    simp only [returnRow] at hrow
    omega
  have hgrid : st.grid.get? (z, returnRow D l.depth) = none := by
    by_cases hzx : z < c.x
    · exact hfree z hz hne hzx
    · exact h.blank _ (by simp only; omega)
  rw [ha.get, cell, htile, hspan, hgrid]
  rfl

/-- A session that was ready is ready again behind a tile. -/
theorem Ready.behind (h : c.Ready D st) (hf : c.Fits D i)
    (ha : c.Draws D i st st')
    (hnested : OpenLoop.Nested (c.next D i).loops)
    (hnew : ∀ l ∈ (c.next D i).loops, l ∉ c.loops → l.Spared D st'.grid (c.next D i).x) :
    (c.next D i).Ready D st' := by
  have hsound := i.sound D h.palette
  have hx : st'.x = (c.next D i).x := by
    rw [ha.x, h.x]
    rfl
  -- from the last column of the tile on, only the tile shows
  have hget (p : Pos) (hp : (c.next D i).x - 1 ≤ p.1) :
      st'.grid.get? p = (i.tile D c.shade).cell c.x p := by
    have hpos := hsound.width_pos
    have hstep : (c.next D i).x = c.x + (i.tile D c.shade).width := rfl
    have hspan : c.span D i p = none := by
      rw [Option.eq_none_iff_forall_ne_some]
      intro k hk
      have := (h.span_spec hk).2.1
      omega
    rw [ha.get, cell, hspan, h.blank p (by omega), Option.or_none, Option.or_none]
  refine ⟨hx, ha.y.trans h.y, ha.shade, ha.maxDepth.trans h.maxDepth, ha.loops, hsound.finish,
    ha.bounded h.bounded, ?_, ?_, ?_, hnested, ?_⟩
  · intro p hp
    rw [hget p (by omega), Option.eq_none_iff_forall_ne_some]
    intro k hk
    have hlt : p.1 < (c.next D i).x := (hsound.bounds (i.bottom_pos D) hk).2.1
    omega
  · intro z hz
    rw [hget _ (Int.le_refl _), Option.eq_none_iff_forall_ne_some]
    intro k hk
    have hlane := (hsound.last_column hk rfl).1
    simp only at hlane
    omega
  · intro z k hk
    rw [hget _ (Int.le_refl _)] at hk
    exact (hsound.last_column hk rfl).2
  · intro l hl
    by_cases hold : l ∈ c.loops
    · exact h.spared_next hf ha hold hl
    · exact hnew l hl hold

/-- A tile keeps what is to the left of the cursor. -/
theorem Ready.keeps (h : c.Ready D st)
    (ha : c.Draws D i st st') :
    c.Keeps D st.grid st'.grid := by
  have htile (p : Pos) (hp : p.1 < c.x) : (i.tile D c.shade).cell c.x p = none := by
    rw [Option.eq_none_iff_forall_ne_some]
    intro k hk
    have := (h.tile_spec hk).1
    omega
  refine ⟨?_, ?_, ?_⟩
  · intro p k hp hk
    have hspan : c.span D i p = none := by
      rw [Option.eq_none_iff_forall_ne_some]
      intro k' hk'
      rw [(h.span_spec hk').2.2.1] at hk
      cases hk
    rw [ha.get, cell, htile p hp, hspan, hk]
    rfl
  · intro p k hp hnone hk
    rw [ha.get, cell, htile p hp, hnone, Option.none_or, Option.or_none] at hk
    obtain ⟨hwhite, -, -, l, ls, hloops, -, hrow, hanchor, hdepth⟩ := h.span_spec hk
    refine ⟨hwhite, ?_, l, ?_, hrow, hanchor⟩
    · rw [hrow, returnRow]
      omega
    · rw [hloops]
      exact List.mem_cons_self
  · intro p k hp hk
    rw [ha.get, cell, h.blank p hp, Option.or_none, Option.or_eq_some_iff] at hk
    rcases hk with hk | ⟨-, hk⟩
    · exact (h.tile_spec hk).2.2.1
    · obtain ⟨-, -, -, l, -, -, -, hrow, -, hdepth⟩ := h.span_spec hk
      rw [hrow, returnRow, laneRow]
      omega

private theorem mem_loops_next {l : OpenLoop} (hl : l ∈ (c.next D i).loops) :
    l ∈ c.loops ∨ l.anchor = c.x := by
  cases hsym : i.symbol with
  | loopOpen =>
    rw [next, hsym] at hl
    rcases List.mem_cons.mp hl with rfl | hl
    · exact .inr rfl
    · exact .inl hl
  | loopClose =>
    rw [next, hsym] at hl
    exact .inl (List.mem_of_mem_tail hl)
  | _ =>
    rw [next, hsym] at hl
    exact .inl hl

/-- What is kept by an instruction and then behind it is kept. -/
theorem Keeps.trans {g g' g'' : Grid} (h : c.Keeps D g g') (h' : (c.next D i).Keeps D g' g'') :
    c.Keeps D g g'' := by
  have hx : c.x ≤ (c.next D i).x := by
    simp only [next]
    omega
  refine ⟨?_, ?_, ?_⟩
  · intro p k hp hk
    exact h'.painted p k (by omega) (h.painted p k hp hk)
  · intro p k hp hnone hk
    cases hmid : g'.get? p with
    | some k' =>
      rw [h'.painted p k' (by omega) hmid, Option.some.injEq] at hk
      subst hk
      exact h.spared p k' hp hnone hmid
    | none =>
      obtain ⟨hwhite, hlow, l, hl, hrow, hanchor⟩ := h'.spared p k (by omega) hmid hk
      refine ⟨hwhite, hlow, l, ?_, hrow, hanchor⟩
      rcases mem_loops_next hl with hl | hl
      · exact hl
      · omega
  · intro p k hp hk
    by_cases hlt : p.1 < (c.next D i).x
    · cases hmid : g'.get? p with
      | some k' => exact h.rows p k' hp hmid
      | none =>
        have := (h'.spared p k hlt hmid hk).2.1
        rw [laneRow] at this
        omega
    · exact h'.rows p k (by omega) hk

private theorem Ready.keeps_self (h : c.Ready D st) : c.Keeps D st.grid st.grid := by
  refine ⟨fun _ _ _ hk ↦ hk, ?_, ?_⟩
  · intro p k _ hnone hk
    rw [hnone] at hk
    cases hk
  · intro p k hp hk
    rw [h.blank p hp] at hk
    cases hk

private theorem cell_eq_tile (h : i.symbol ≠ .loopClose) :
    c.cell D i = (i.tile D c.shade).cell c.x := by
  funext p
  rw [cell, span_eq_none h, Option.or_none]

/-- An action leaves the pending loops alone. -/
theorem loops_next (ha : i.symbol.IsAction) : (c.next D i).loops = c.loops := by
  unfold next
  split
  · next hsym => exact absurd hsym ha.1
  · next hsym => exact absurd hsym ha.2
  · rfl

private theorem Ready.draws_action (h : c.Ready D st) (haction : i.symbol.IsAction)
    {other : Session} (ho : st.Recolours other) :
    ∃ last, Drawing.instruction i.symbol i.depth other = .ok () last ∧ c.Draws D i other last := by
  have hshade := ho.shade.trans h.shade
  have hpal : other.shade.InPalette := by
    rw [hshade]
    exact h.palette
  obtain ⟨last, hdraw, hadds⟩ :=
    Drawing.adds_action haction (loopRows D i.depth) i.depth hpal (ho.y.trans h.y)
  rw [hshade, ho.x, h.x, ho.loops, h.loops] at hadds
  refine ⟨last, hdraw, ?_⟩
  rw [Draws, cell_eq_tile haction.2, loops_next haction]
  exact hadds

private theorem Ready.draws_open (h : c.Ready D st) (hf : c.Fits D i)
    (hsym : i.symbol = .loopOpen) {other : Session} (ho : st.Recolours other) :
    ∃ last, Drawing.instruction i.symbol i.depth other = .ok () last ∧ c.Draws D i other last := by
  have hshade := ho.shade.trans h.shade
  have hpal : other.shade.InPalette := by
    rw [hshade]
    exact h.palette
  have hD : i.depth ≤ D := by
    rw [Fits, hsym] at hf
    exact hf.2
  have hrows : (loopRows D i.depth : Int) = (other.maxDepth - i.depth) * 2 + 4 := by
    rw [ho.maxDepth, h.maxDepth, loopRows]
    omega
  have hpos : 1 ≤ loopRows D i.depth := Nat.le_add_left 1 _
  obtain ⟨last, hdraw, hadds⟩ := Drawing.adds_open hpal (ho.y.trans h.y) hrows hpos
  rw [hshade, ho.x, h.x, ho.loops, h.loops] at hadds
  refine ⟨last, by rw [hsym]; exact hdraw, ?_⟩
  rw [Draws, cell_eq_tile (by rw [hsym]; decide), next, Instruction.tile, hsym]
  exact hadds

private theorem Ready.draws_close (h : c.Ready D st) (hf : c.Fits D i)
    (hsym : i.symbol = .loopClose) {other : Session} (ho : st.Recolours other) :
    ∃ last, Drawing.instruction i.symbol i.depth other = .ok () last ∧ c.Draws D i other last := by
  have hshade := ho.shade.trans h.shade
  have hpal : other.shade.InPalette := by
    rw [hshade]
    exact h.palette
  obtain ⟨hpos, hdepth⟩ : 0 < c.loops.length ∧ i.depth = c.loops.length := by
    rw [Fits, hsym] at hf
    exact hf
  obtain ⟨⟨anchor, depth, branch⟩, ls, hloops⟩ :=
    List.exists_cons_of_ne_nil (List.length_pos_iff.mp hpos)
  obtain ⟨hD, turn, hbranch, hanchor, hturn, ⟨k, hk⟩, ⟨k', hk'⟩, hfree⟩ :=
    h.spared ⟨anchor, depth, branch⟩ (by rw [hloops]; exact List.mem_cons_self)
  simp only at hD hbranch hanchor hk hk' hfree
  subst hbranch
  obtain rfl : depth = i.depth := by
    have hhead := h.nested
    rw [hloops] at hhead hdepth
    have hlen : depth = ls.length + 1 := hhead.1
    rw [hlen, hdepth, List.length_cons]
    omega
  have hi : i.depth ≤ D := by omega
  have hrows : (loopRows D i.depth : Int) = (other.maxDepth - i.depth) * 2 + 4 := by
    rw [ho.maxDepth, h.maxDepth, loopRows]
    omega
  have hfour : 4 ≤ loopRows D i.depth := Nat.le_add_left 4 _
  obtain ⟨l, hl⟩ := ho.exists_some hk
  obtain ⟨l', hl'⟩ := ho.exists_some hk'
  have hfree' : ∀ z, anchor < z → z ≠ turn → z < other.x + 2 →
      other.grid.get? (z, returnRow D i.depth) = none := by
    intro z hz hne _
    apply ho.eq_none
    by_cases hzx : z < c.x
    · exact hfree z hz hne hzx
    · exact h.blank _ (by simp only; omega)
  obtain ⟨last, hdraw, hadds⟩ := Drawing.adds_close hpal (ho.y.trans h.y)
    ((ho.loops.trans h.loops).trans hloops) hrows hfour (returnRow_eq hi)
    (by rw [ho.x, h.x]; exact hturn) hanchor hl hl' hfree'
  rw [hshade, ho.x, h.x] at hadds
  have hcell : c.cell D i = fun p ↦
      ((Symbol.loopClose.tile (loopRows D i.depth) c.shade).cell c.x p).or
        ((spanCell (returnRow D i.depth) turn (c.x + 2) p).or
          (spanCell (returnRow D i.depth) anchor turn p)) := by
    funext p
    rw [cell, span, Instruction.tile, hsym, hloops]
  refine ⟨last, by rw [hsym]; exact hdraw, ?_⟩
  rw [Draws, hcell, next, Instruction.tile, hsym, hloops]
  exact hadds

/-- An instruction that fits is drawn, whatever colours the painted cells have. -/
theorem Ready.draws (h : c.Ready D st) (hf : c.Fits D i) {other : Session}
    (ho : st.Recolours other) :
    ∃ last, Drawing.instruction i.symbol i.depth other = .ok () last ∧ c.Draws D i other last := by
  by_cases haction : i.symbol.IsAction
  · exact h.draws_action haction ho
  · cases hsym : i.symbol with
    | loopOpen =>
      rw [← hsym]
      exact h.draws_open hf hsym ho
    | loopClose =>
      rw [← hsym]
      exact h.draws_close hf hsym ho
    | _ => exact absurd (by rw [hsym]; decide) haction

private theorem Ready.spared_open (h : c.Ready D st) (hf : c.Fits D i)
    (hsym : i.symbol = .loopOpen) (ha : c.Draws D i st st') :
    OpenLoop.Spared D st'.grid (c.next D i).x ⟨c.x, i.depth, some (c.x + 9)⟩ := by
  have hD : i.depth ≤ D := by
    rw [Fits, hsym] at hf
    exact hf.2
  have htile : i.tile D c.shade = Symbol.loopOpen.tile (loopRows D i.depth) c.shade := by
    rw [Instruction.tile, hsym]
  have hfour : 4 ≤ loopRows D i.depth := Nat.le_add_left 4 _
  obtain ⟨hfoot, hbranch, hfree⟩ := Symbol.cell_loopOpen hfour c.shade c.x (returnRow_eq hD)
  have hget (p : Pos) : st'.grid.get? p =
      ((Symbol.loopOpen.tile (loopRows D i.depth) c.shade).cell c.x p).or (st.grid.get? p) := by
    rw [ha.get, cell_eq_tile (by rw [hsym]; decide), htile]
  have hx : (c.next D i).x = c.x + 11 := by
    rw [next, htile]
    rfl
  rw [hx]
  refine ⟨by simp only; omega, c.x + 9, rfl, by simp only; omega, by omega, ?_, ?_, ?_⟩
  · exact ⟨_, by rw [hget, hfoot]; rfl⟩
  · exact ⟨_, by rw [hget, hbranch]; rfl⟩
  · intro z hz hne _
    rw [hget, hfree z hz hne]
    exact h.blank _ (by simp only at hz ⊢; omega)

private theorem Ready.nested_next (h : c.Ready D st) (hf : c.Fits D i) :
    OpenLoop.Nested (c.next D i).loops := by
  have hnested := h.nested
  cases hsym : i.symbol with
  | loopOpen =>
    rw [Fits, hsym] at hf
    rw [next, hsym]
    exact ⟨by simp only [hf.1]; omega, hnested⟩
  | loopClose =>
    rw [next, hsym]
    cases hloops : c.loops with
    | nil => trivial
    | cons l ls =>
      rw [hloops] at hnested
      exact hnested.2
  | _ =>
    rw [next, hsym]
    exact hnested

/-- An instruction that fits is drawn, and the session is ready behind it. -/
theorem Ready.step (h : c.Ready D st) (hf : c.Fits D i) :
    ∃ st', Drawing.instruction i.symbol i.depth st = .ok () st' ∧ (c.next D i).Ready D st' ∧
      c.Draws D i st st' := by
  obtain ⟨st', hdraw, ha⟩ := h.draws hf (.refl st)
  refine ⟨st', hdraw, h.behind hf ha (h.nested_next hf) ?_, ha⟩
  intro l hl hnot
  cases hsym : i.symbol with
  | loopOpen =>
    rw [next, hsym] at hl
    obtain rfl := (List.mem_cons.mp hl).resolve_right hnot
    exact h.spared_open hf hsym ha
  | loopClose =>
    rw [next, hsym] at hl
    exact absurd (List.mem_of_mem_tail hl) hnot
  | _ =>
    rw [next, hsym] at hl
    exact absurd hl hnot

/-- The cursor behind some instructions. -/
def run (deepest : Nat) (c : Cursor) (code : List Instruction) : Cursor :=
  code.foldl (next deepest) c

/-- Each instruction fits the cursor behind those before. -/
def FitsAll (deepest : Nat) (c : Cursor) : List Instruction → Prop
  | [] => True
  | i :: code => c.Fits deepest i ∧ (c.next deepest i).FitsAll deepest code

theorem run_append (deepest : Nat) (c : Cursor) (pre post : List Instruction) :
    c.run deepest (pre ++ post) = (c.run deepest pre).run deepest post := List.foldl_append

/-- Instructions fit one after the other. -/
theorem fitsAll_append {pre post : List Instruction} :
    c.FitsAll D (pre ++ post) ↔ c.FitsAll D pre ∧ (c.run D pre).FitsAll D post := by
  induction pre generalizing c with
  | nil => simp [FitsAll, run]
  | cons i pre ih =>
    rw [List.cons_append, FitsAll, FitsAll, ih, and_assoc]
    rfl

/-- Instructions that fit are drawn one after the other. -/
theorem Ready.run {code : List Instruction} (h : c.Ready D st) (hf : c.FitsAll D code) :
    ∃ st', code.forM (fun i ↦ Drawing.instruction i.symbol i.depth) st = .ok () st' ∧
      (c.run D code).Ready D st' ∧ c.Keeps D st.grid st'.grid := by
  induction code generalizing c st with
  | nil => exact ⟨st, rfl, h, h.keeps_self⟩
  | cons i code ih =>
    obtain ⟨mid, hstep, hmid, hdraws⟩ := h.step hf.1
    obtain ⟨st', hrest, hready, hkeeps⟩ := ih hmid hf.2
    refine ⟨st', ?_, hready, (h.keeps hdraws).trans hkeeps⟩
    exact (forM_cons_of_ok (f := fun i : Instruction ↦ Drawing.instruction i.symbol i.depth)
      hstep).trans hrest

/-- A drawing can be looked at before and behind each of its instructions. -/
theorem Ready.split {pre post : List Instruction} (h : c.Ready D st)
    (hf : c.FitsAll D (pre ++ i :: post)) {last : Session}
    (hdraw : (pre ++ i :: post).forM (fun i ↦ Drawing.instruction i.symbol i.depth) st =
      .ok () last) :
    ∃ st₁ st₂, pre.forM (fun i ↦ Drawing.instruction i.symbol i.depth) st = .ok () st₁ ∧
      (c.run D pre).Ready D st₁ ∧ (c.run D pre).Fits D i ∧ (c.run D pre).Draws D i st₁ st₂ ∧
      ((c.run D pre).next D i).Ready D st₂ ∧
      ((c.run D pre).next D i).Keeps D st₂.grid last.grid := by
  obtain ⟨hpre, hi, hpost⟩ := fitsAll_append.mp hf
  obtain ⟨st₁, hdraw₁, hready₁, -⟩ := h.run hpre
  obtain ⟨st₂, hdraw₂, hready₂, hdraws⟩ := hready₁.step hi
  obtain ⟨st₃, hdraw₃, -, hkeeps⟩ := hready₂.run hpost
  have hall := (forM_append_of_ok hdraw₁).trans ((forM_cons_of_ok
    (f := fun i : Instruction ↦ Drawing.instruction i.symbol i.depth) hdraw₂).trans hdraw₃)
  obtain rfl : st₃ = last := by
    rw [hall] at hdraw
    cases hdraw
    rfl
  exact ⟨st₁, st₂, hdraw₁, hready₁, hi, hdraws, hready₂, hkeeps⟩

end Cursor

end BrainPiet
