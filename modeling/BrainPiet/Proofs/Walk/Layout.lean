import BrainPiet.Proofs.Nesting
import BrainPiet.Proofs.Walk.Advance
import BrainPiet.Proofs.Walk.Loop
import BrainPiet.Proofs.Walk.Read

/-!
# Programs along the lane

A program is laid out along the lane as the tree it is: an action is a tile, and a loop is a pair of
brackets with its body in between. A walk that comes along the lane passes an action, enters or skips
a loop as the test tells, and is sent back to the anchor behind the body.
-/

namespace BrainPiet

open Template (laneRow)

/-- The program, inside some loops, is seen between two cursors. -/
def TapeProgram.Laid (D : Nat) (view : Pos → Codel) :
    (depth : Nat) → Cursor → TapeProgram → Cursor → Prop
  | _, c, done, e => c = e
  | depth, c, act a next, e =>
    a.IsAction ∧ c.Shown D view ⟨a, 0⟩ ∧ next.Laid D view depth (c.next D ⟨a, 0⟩) e
  | depth, c, loop body next, e =>
    ∃ z, body.Laid D view (depth + 1) (c.next D ⟨.loopOpen, depth + 1⟩) z ∧
      LoopShown D view c z (depth + 1) ∧
        next.Laid D view depth (z.next D ⟨.loopClose, depth + 1⟩) e

private theorem TapeProgram.openLevel_instructions {q : TapeProgram} (hq : q.Plain) (depth n : Nat)
    (more : List Instruction) :
    openLevel n (q.instructions depth ++ more) = openLevel n more := by
  induction q generalizing depth n more with
  | done => rfl
  | act a next ih =>
    obtain ⟨h1, h2, hnext⟩ := hq
    rw [instructions, List.cons_append, openLevel_action ⟨h1, h2⟩, ih hnext]
  | loop body next ihb ih =>
    obtain ⟨hbody, hnext⟩ := hq
    have hsplit : (loop body next).instructions depth ++ more = ⟨.loopOpen, depth + 1⟩ ::
        (body.instructions (depth + 1) ++ ⟨.loopClose, depth + 1⟩ ::
          (next.instructions depth ++ more)) := by
      simp [instructions]
    rw [hsplit]
    show openLevel (n + 1) _ = _
    rw [ihb hbody]
    exact ih hnext depth n more

/-- A finished grid shows the program that it was drawn for. -/
theorem Drawn.laid {D : Nat} {code : List Instruction} {g : Grid} (h : Drawn D code g)
    {q : TapeProgram} (hq : q.Plain) (depth : Nat) (pre post : List Instruction)
    (hcode : code = pre ++ (q.instructions depth ++ post)) :
    q.Laid D g.codel depth ((Cursor.start code).run D pre)
      ((Cursor.start code).run D (pre ++ q.instructions depth)) := by
  induction q generalizing depth pre post with
  | done =>
    rw [TapeProgram.instructions, List.append_nil]
    rfl
  | act a next ih =>
    obtain ⟨h1, h2, hnext⟩ := hq
    have hsplit (more : List Instruction) : pre ++ ((TapeProgram.act a next).instructions depth ++
        more) = pre ++ [⟨a, 0⟩] ++ (next.instructions depth ++ more) := by
      simp [TapeProgram.instructions]
    have hrest := ih hnext depth (pre ++ [⟨a, 0⟩]) post (hcode.trans (hsplit post))
    have hend := hsplit []
    rw [List.append_nil, List.append_nil] at hend
    rw [← hend, Cursor.run_append] at hrest
    exact ⟨⟨h1, h2⟩, h.shown hcode, hrest⟩
  | loop body next ihb ih =>
    obtain ⟨hbody, hnext⟩ := hq
    have hbalanced : Balanced (body.instructions (depth + 1)) := by
      have hlevel := TapeProgram.openLevel_instructions hbody (depth + 1) 0 []
      rw [List.append_nil] at hlevel
      exact hlevel
    have hopen : code = pre ++ ⟨.loopOpen, depth + 1⟩ :: (body.instructions (depth + 1) ++
        ⟨.loopClose, depth + 1⟩ :: (next.instructions depth ++ post)) := by
      rw [hcode]
      simp [TapeProgram.instructions]
    have hbody' : code = pre ++ [⟨.loopOpen, depth + 1⟩] ++ (body.instructions (depth + 1) ++
        ⟨.loopClose, depth + 1⟩ :: (next.instructions depth ++ post)) := by
      rw [hopen]
      simp
    have hclose (more : List Instruction) : pre ++ ((TapeProgram.loop body next).instructions depth ++
        more) = pre ++ [⟨.loopOpen, depth + 1⟩] ++ body.instructions (depth + 1) ++
          [⟨.loopClose, depth + 1⟩] ++ (next.instructions depth ++ more) := by
      simp [TapeProgram.instructions]
    have hinner := ihb hbody (depth + 1) _ _ hbody'
    have hrest := ih hnext depth _ post (hcode.trans (hclose post))
    have hloop := (h.loop hbalanced hopen).2
    have hend := hclose []
    rw [List.append_nil, List.append_nil] at hend
    rw [← hend, Cursor.run_append D _ _ [⟨.loopClose, depth + 1⟩]] at hrest
    rw [Cursor.run_append D _ pre [⟨.loopOpen, depth + 1⟩]] at hinner
    rw [List.append_cons] at hloop
    exact ⟨_, hinner, hloop, hrest⟩

/-- Before an instruction a walk comes along the lane. -/
def Cursor.station (c : Cursor) (m : Machine) : Walker := ⟨m.facing .right .left, (c.x, laneRow)⟩

/-- A walk that comes along the lane keeps clear of the glyphs. -/
theorem Cursor.clear_station (c : Cursor) (m : Machine) : Clear (c.station m).pos :=
  clear_of_row (show (4 : Int) ≤ laneRow by decide)

namespace Picture

/-- Some steps lead from one place to another. -/
def Leads (p : Picture) (a b : Walker) : Prop := ∃ ops, ops ≠ [] ∧ p.Path 2 ops a b

variable {p : Picture} {D : Nat} {view : Pos → Codel} {m : Machine}

/-- Places that are alike lead to the same places. -/
theorem Alike.leads {a b w : Walker} (h : p.Alike a b) (hb : p.Leads b w) : p.Leads a w := by
  obtain ⟨ops, hne, hpath⟩ := hb
  exact ⟨ops, hne, h.path hpath hne⟩

/-- A walk passes an action. -/
theorem Renders.leads_act (hr : p.Renders view) {c : Cursor} {a : Symbol} {n : Nat}
    (ha : a.IsAction) (h : c.Shown D view ⟨a, n⟩) (hm : 3 ≤ m.stack.length) :
    p.Leads (c.station m) ((c.next D ⟨a, n⟩).station (m.act a)) := by
  by_cases hadvance : a = .advance
  · subst hadvance
    exact hr.path_advance h hm
  · by_cases hread : a = .read
    · subst hread
      exact hr.path_read h hm
    · have hturn : a.turn = [] := by
        cases a <;> first | rfl | exact absurd rfl hadvance | exact absurd rfl hread |
          exact absurd rfl ha.1 | exact absurd rfl ha.2
      have hne : a.lane.map (some ·.op) ≠ [] := by
        cases a <;> exact List.cons_ne_nil _ _
      rw [Machine.act_eq_afterAll hadvance hread]
      exact ⟨_, hne, hr.path_straight h hturn hm⟩

private theorem x_next_bracket {c : Cursor} {d : Nat} :
    (c.next D ⟨.loopOpen, d⟩).x = c.x + 11 ∧ (c.next D ⟨.loopClose, d⟩).x = c.x + 4 := by
  rw [Cursor.x_next, Cursor.x_next]
  exact ⟨Int.add_assoc _ 9 2, Int.add_assoc _ 2 2⟩

/-- The test of a loop leads to its body, with the stack as it was, if the value is not zero. -/
theorem Renders.leads_body (hr : p.Renders view) {a z : Cursor} {d : Nat}
    (h : LoopShown D view a z d) (hm : 3 ≤ m.stack.length) {v : Int} {s : List Int}
    (hs : m.stack = v :: s) (hv : v ≠ 0) :
    p.Leads (a.station m) ((a.next D ⟨.loopOpen, d⟩).station m) := by
  have hswitch := Machine.execute_loopOpen hs 1
  rw [if_neg hv] at hswitch
  have htest := hr.path_blocks h.opening rfl hm hswitch
  have hpos : 0 < loopRows D d := Nat.lt_of_lt_of_le (by decide) (Nat.le_add_left 4 _)
  have hx := (x_next_bracket (D := D) (c := a) (d := d)).1
  have hnext := h.opening.after
  have hwhite : view (a.x + 9 + 1, laneRow) = .white := (h.opening.column fun ha ↦ ha.1 rfl).2
  have hleave : p.Treads 2 ⟨m.facing .right .left, (a.x + 9, laneRow)⟩ none
      ⟨m.facing .right .left, ((a.next D ⟨.loopOpen, d⟩).x, laneRow)⟩ := by
    apply hr.treads_right h.branch hpos (by decide) (mem_comb_top _ _ hpos) (by omega) rfl
      (by omega) _ hnext
    intro w hw hw'
    rw [show w = a.x + 9 + 1 by omega]
    exact hwhite
  exact ⟨_, List.append_ne_nil_of_right_ne_nil _ (List.cons_ne_nil _ _), htest.trans hleave.path⟩

/-- It leads behind the loop if the value is zero. -/
theorem Renders.leads_behind (hr : p.Renders view) {a z : Cursor} {d : Nat}
    (h : LoopShown D view a z d) (hm : 3 ≤ m.stack.length) {s : List Int}
    (hs : m.stack = 0 :: s) :
    p.Leads (a.station m) ((z.next D ⟨.loopClose, d⟩).station m) := by
  have hswitch := Machine.execute_loopOpen hs 1
  rw [if_pos rfl] at hswitch
  have htest := hr.path_blocks h.opening rfl hm hswitch
  have hpos : 0 < loopRows D d := Nat.lt_of_lt_of_le (by decide) (Nat.le_add_left 4 _)
  have hskip : p.Path 2 [none, none] ⟨m.facing .right .right, (a.x + 9, laneRow)⟩
      ((z.next D ⟨.loopClose, d⟩).station m) := by
    rw [Cursor.station, x_next_bracket.2]
    exact hr.path_skip h (mem_comb_top _ _ hpos) (by omega)
  exact ⟨_, List.append_ne_nil_of_right_ne_nil _ (List.cons_ne_nil _ _), htest.trans hskip⟩

/-- Behind the body the walk is sent back to the test. -/
theorem Renders.leads_back (hr : p.Renders view) {a z : Cursor} {d : Nat}
    (h : LoopShown D view a z d) (hm : 3 ≤ m.stack.length) :
    ∃ w, p.Leads (z.station m) w ∧ p.Alike w (a.station m) := by
  have hturn := hr.path_blocks h.closing rfl hm (Machine.execute_loopClose m 1)
  have hpos : 0 < loopRows D d := Nat.lt_of_lt_of_le (by decide) (Nat.le_add_left 4 _)
  have hreturn : p.Path 2 [none, none, none] ⟨m.facing .left .left, (z.x + 2, laneRow)⟩
      ⟨m.facing .up .right, (a.x, laneRow)⟩ :=
    hr.path_return h (mem_comb_top _ _ hpos) (by omega)
  exact ⟨_, ⟨_, List.append_ne_nil_of_right_ne_nil _ (List.cons_ne_nil _ _), hturn.trans hreturn⟩,
    hr.alike_anchor h m⟩

end Picture

end BrainPiet
