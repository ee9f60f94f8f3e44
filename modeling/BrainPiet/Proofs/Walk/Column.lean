import BrainPiet.Proofs.Walk.Lane

/-!
# Ways out of a column

A walk leaves a single column at one of its ends. Where black blocks the way it tries the other end,
and after that it turns. What it crosses is white, so it executes nothing on its way.
-/

namespace BrainPiet

namespace Pos

variable (x y : Int) (k : Nat)

private theorem ahead_right : ahead (x, y) .right k = (x + k, y) := by
  simp [ahead, Direction.dx, Direction.dy]

private theorem ahead_left : ahead (x, y) .left k = (x - k, y) := by
  simp only [ahead, Direction.dx, Direction.dy, Prod.mk.injEq]
  omega

private theorem ahead_up : ahead (x, y) .up k = (x, y - k) := by
  simp only [ahead, Direction.dx, Direction.dy, Prod.mk.injEq]
  omega

end Pos

namespace Picture

variable {p : Picture} {view : Pos → Codel} {s t : Shade} {block : List Pos} {least : Nat}

/-- Black at the first attempt: the walk tries the other side. -/
theorem Renders.opening?_flip (hr : p.Renders view) {d : Direction} {side : Side} {e e' : Pos}
    (he : Edge block d side e) (hv : view (e.toward d) = .black)
    (he' : Edge block d side.other e') (hv' : view (e'.toward d) ≠ .black) (m : Machine) :
    p.opening? block Adjustment.attempts (m.facing d side) =
      some (e'.toward d, m.facing d side.other) := by
  rw [Adjustment.attempts, hr.opening?_black he hv, Adjustment.apply_flip,
    hr.opening?_open he' hv']

/-- Black on both sides: the walk turns. -/
theorem Renders.opening?_turn (hr : p.Renders view) {d : Direction} {side : Side} {e e' e'' : Pos}
    (he : Edge block d side e) (hv : view (e.toward d) = .black)
    (he' : Edge block d side.other e') (hv' : view (e'.toward d) = .black)
    (he'' : Edge block d.next side.other e'') (hv'' : view (e''.toward d.next) ≠ .black)
    (m : Machine) :
    p.opening? block Adjustment.attempts (m.facing d side) =
      some (e''.toward d.next, m.facing d.next side.other) := by
  rw [Adjustment.attempts, hr.opening?_black he hv, Adjustment.apply_flip,
    hr.opening?_black he' hv', Adjustment.apply_turn, hr.opening?_open he'' hv'']

variable {x y : Int} {h n : Nat} {d : Direction} {side : Side} {q : Pos} {m : Machine}

/-- The way from the end of a column over some white codels to a codel of a shade. -/
structure Passage (view : Pos → Codel) (e : Pos) (d : Direction) (n : Nat) (t : Shade) : Prop where
  white : ∀ k ≤ n, view (e.ahead d (k + 1)) = .white
  shade : view (e.ahead d (n + 2)) = .shade t
  clear : ∀ k ≤ n, Clear (e.ahead d (k + 1))

private theorem Passage.ne_black {e : Pos} (h : Passage view e d n t) : view (e.toward d) ≠ .black := by
  have hfirst := h.white 0 (Nat.zero_le n)
  rw [← Pos.toward_ahead, Pos.ahead_zero] at hfirst
  rw [hfirst]
  exact Codel.noConfusion

/-- White codels along a row are a passage to the right. -/
theorem exists_passage_right (x : Int) {x' : Int} (hlt : x + 1 < x')
    (hwhite : ∀ z, x < z → z < x' → view (z, y) = .white) (hshade : view (x', y) = .shade t)
    (hy : 4 ≤ y) : ∃ n, Pos.ahead (x, y) .right (n + 2) = (x', y) ∧
      Passage view (x, y) .right n t := by
  obtain ⟨n, rfl⟩ : ∃ n : Nat, x' = x + (n + 2 : Nat) := ⟨(x' - x - 2).toNat, by omega⟩
  refine ⟨n, Pos.ahead_right x y _, ?_, ?_, ?_⟩
  · intro k hk
    rw [Pos.ahead_right]
    exact hwhite _ (by omega) (by omega)
  · rw [Pos.ahead_right]
    exact hshade
  · intro k _
    rw [Pos.ahead_right]
    exact clear_of_row hy

/-- White codels along a row are a passage to the left. -/
theorem exists_passage_left (x : Int) {x' : Int} (hlt : x' + 1 < x)
    (hwhite : ∀ z, x' < z → z < x → view (z, y) = .white) (hshade : view (x', y) = .shade t)
    (hy : 4 ≤ y) : ∃ n, Pos.ahead (x, y) .left (n + 2) = (x', y) ∧
      Passage view (x, y) .left n t := by
  obtain ⟨n, rfl⟩ : ∃ n : Nat, x' = x - (n + 2 : Nat) := ⟨(x - x' - 2).toNat, by omega⟩
  refine ⟨n, Pos.ahead_left x y _, ?_, ?_, ?_⟩
  · intro k hk
    rw [Pos.ahead_left]
    exact hwhite _ (by omega) (by omega)
  · rw [Pos.ahead_left]
    exact hshade
  · intro k _
    rw [Pos.ahead_left]
    exact clear_of_row hy

/-- White codels along a column are a passage upwards. -/
theorem exists_passage_up (y : Int) {y' : Int} (hlt : y' + 1 < y)
    (hwhite : ∀ z, y' < z → z < y → view (x, z) = .white) (hshade : view (x, y') = .shade t)
    (hy : 4 ≤ y') : ∃ n, Pos.ahead (x, y) .up (n + 2) = (x, y') ∧
      Passage view (x, y) .up n t := by
  obtain ⟨n, rfl⟩ : ∃ n : Nat, y' = y - (n + 2 : Nat) := ⟨(y - y' - 2).toNat, by omega⟩
  refine ⟨n, Pos.ahead_up x y _, ?_, ?_, ?_⟩
  · intro k hk
    rw [Pos.ahead_up]
    exact hwhite _ (by omega) (by omega)
  · rw [Pos.ahead_up]
    exact hshade
  · intro k hk
    rw [Pos.ahead_up]
    exact clear_of_row (by simp only; omega)

/-- A walk leaves a column by a passage. -/
theorem Renders.treads_column (hr : p.Renders view) (hb : Patch view s (comb x y [h]))
    (hh : 0 < h) (hq : q ∈ comb x y [h]) (hclear : Clear q) (hheight : least ≤ m.stack.length)
    (hpass : Passage view (x, endRow y h d side) d n t) :
    p.Treads least ⟨m.facing d side, q⟩ none
      ⟨m.facing d side, Pos.ahead (x, endRow y h d side) d (n + 2)⟩ :=
  hr.treads_slide (m := m.facing d side) hb hq hclear hheight
    (hr.opening?_open (edge_column hh d side) hpass.ne_black .flip _ m) hpass.white hpass.shade
    hpass.clear

/-- A walk leaves a column at one of its ends and goes right over white. -/
theorem Renders.treads_right (hr : p.Renders view) (hb : Patch view s (comb x y [h]))
    (hh : 0 < h) (hy : 4 ≤ y) (hq : q ∈ comb x y [h]) (hheight : least ≤ m.stack.length)
    {x' y' : Int} (hrow : endRow y h .right side = y') (hlt : x + 1 < x')
    (hwhite : ∀ z, x < z → z < x' → view (z, y') = .white) (hshade : view (x', y') = .shade t) :
    p.Treads least ⟨m.facing .right side, q⟩ none ⟨m.facing .right side, (x', y')⟩ := by
  have hq' := mem_comb_singleton.mp hq
  have hy' : 4 ≤ y' := by
    rw [← hrow]
    cases side <;> simp only [endRow] <;> omega
  obtain ⟨n, hend, hpass⟩ := exists_passage_right x hlt hwhite hshade hy'
  rw [← hrow] at hpass hend ⊢
  rw [← hend]
  exact hr.treads_column hb hh hq (clear_of_row (by omega)) hheight hpass

/-- A walk that meets black at one end of a column leaves it by a passage at the other. -/
theorem Renders.treads_column_flip (hr : p.Renders view) (hb : Patch view s (comb x y [h]))
    (hh : 0 < h) (hq : q ∈ comb x y [h]) (hclear : Clear q) (hheight : least ≤ m.stack.length)
    (hblack : view (Pos.toward (x, endRow y h d side) d) = .black)
    (hpass : Passage view (x, endRow y h d side.other) d n t) :
    p.Treads least ⟨m.facing d side, q⟩ none
      ⟨m.facing d side.other, Pos.ahead (x, endRow y h d side.other) d (n + 2)⟩ :=
  hr.treads_slide (m := m.facing d side) hb hq hclear hheight
    (hr.opening?_flip (edge_column hh d side) hblack (edge_column hh d side.other) hpass.ne_black m)
    hpass.white hpass.shade hpass.clear

/-- A walk that meets black at both ends of a column leaves it by a passage after a turn. -/
theorem Renders.treads_column_turn (hr : p.Renders view) (hb : Patch view s (comb x y [h]))
    (hh : 0 < h) (hq : q ∈ comb x y [h]) (hclear : Clear q) (hheight : least ≤ m.stack.length)
    (hblack : view (Pos.toward (x, endRow y h d side) d) = .black)
    (hblack' : view (Pos.toward (x, endRow y h d side.other) d) = .black)
    (hpass : Passage view (x, endRow y h d.next side.other) d.next n t) :
    p.Treads least ⟨m.facing d side, q⟩ none
      ⟨m.facing d.next side.other, Pos.ahead (x, endRow y h d.next side.other) d.next (n + 2)⟩ :=
  hr.treads_slide (m := m.facing d side) hb hq hclear hheight
    (hr.opening?_turn (edge_column hh d side) hblack (edge_column hh d side.other) hblack'
      (edge_column hh d.next side.other) hpass.ne_black m)
    hpass.white hpass.shade hpass.clear

/-- A walk leaves a column at one of its ends straight to another shade. -/
theorem Renders.treads_end (hr : p.Renders view) (hb : Patch view s (comb x y [h]))
    (hh : 0 < h) (hy : 4 ≤ y) (hq : q ∈ comb x y [h]) (hheight : least ≤ m.stack.length) {y' : Int}
    (hrow : endRow y h .right side = y') {op : Operation}
    (hv : view (x + 1, y') = .shade (s.step op)) {m' : Machine}
    (hex : Machine.execute op h (m.facing .right side) = .ok () m') :
    p.Treads least ⟨m.facing .right side, q⟩ (some op) ⟨m', (x + 1, y')⟩ := by
  have hq' := mem_comb_singleton.mp hq
  have hnext : Pos.toward (x, endRow y h .right side) .right = (x + 1, y') := by
    rw [hrow]
    exact Prod.ext rfl (Int.add_zero _)
  have hopen := hr.opening?_open (edge_column (x := x) (y := y) hh .right side)
    (by rw [hnext, hv]; exact Codel.noConfusion) .flip Adjustment.attempts.tail m
  rw [hnext] at hopen
  have hlen : (comb x y [h]).length = h := by
    rw [length_comb]
    exact List.sum_singleton
  rw [← hlen] at hex
  exact hr.treads_shade (m := m.facing .right side) hb hq (clear_of_row (by omega)) hheight hopen hv
    (Shade.between_step s op) hex

/-- A walk that heads for the lower end of a column, where black blocks it, goes from the upper end
straight to another shade. -/
theorem Renders.treads_column_op (hr : p.Renders view) (hb : Patch view s (comb x y [h]))
    (hh : 0 < h) (hq : q ∈ comb x y [h]) (hclear : Clear q) (hheight : least ≤ m.stack.length)
    (hblack : view (x + 1, y + h - 1) = .black) {op : Operation}
    (hv : view (x + 1, y) = .shade (s.step op)) {m' : Machine}
    (hex : Machine.execute op h (m.facing .right .left) = .ok () m') :
    p.Treads least ⟨m.facing .right .right, q⟩ (some op) ⟨m', (x + 1, y)⟩ := by
  have hnext (z : Int) : Pos.toward (x, z) .right = (x + 1, z) := by
    simp [Pos.toward, Direction.dx, Direction.dy]
  have hopen := hr.opening?_flip (edge_column (x := x) (y := y) hh .right .right)
    (by rw [hnext]; exact hblack) (edge_column hh .right .left)
    (by rw [hnext, endRow, hv]; exact Codel.noConfusion) m
  rw [hnext] at hopen
  have hlen : (comb x y [h]).length = h := by
    rw [length_comb]
    exact List.sum_singleton
  rw [← hlen] at hex
  exact hr.treads_shade (m := m.facing .right .right) hb hq hclear hheight hopen hv
    (Shade.between_step s op) hex

end Picture

end BrainPiet
