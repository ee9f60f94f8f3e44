import BrainPiet.Proofs.Walk.Loop

/-!
# Loops lead where they should

In the picture of a program each pair of brackets has an anchor, a branch column and a closing
column. From the branch column a walk comes behind the loop, and from the closing column back to the
anchor, whatever stands inside and outside of the loop.
-/

namespace BrainPiet

open Template (laneRow)

/-- Each loop of a program, with its columns where it was drawn: the branch column leads behind the
closing column, and the closing column leads back to the anchor, where the next step executes `dup`
to the right. Nothing else is executed on either way. -/
theorem loop_routes {text : String} {code : List Instruction}
    (hparse : Source.parse text = .ok code) :
    ∃ grid picture, translate text = .ok grid ∧
      Picture.load grid.normalize {} = .ok () picture ∧
      ∀ pre body post (d e : Nat),
        code = pre ++ ⟨.loopOpen, d⟩ :: (body ++ ⟨.loopClose, e⟩ :: post) → Balanced body →
        ∃ st anchor branch outer,
          Drawing.upToColumn code (pre ++ ⟨.loopOpen, d⟩ :: body) e
            { maxDepth := Source.maxDepth code } = .ok () st ∧
          st.loops = ⟨anchor, d, some branch⟩ :: outer ∧
          ∀ (m : Machine) (row : Int), laneRow ≤ row →
            row < laneRow + Session.loopRows { maxDepth := Source.maxDepth code } d →
            picture.Path 0 [none, none] ⟨m.facing .right .right, (branch, row)⟩
              ⟨m.facing .right .left, (st.x + 2, laneRow)⟩ ∧
            ∃ back : Machine,
              picture.Path 0 [none, none, none] ⟨m.facing .left .left, (st.x, row)⟩
                ⟨back, (anchor, laneRow)⟩ ∧
              back.stack = m.stack ∧ back.input = m.input ∧ back.output = m.output ∧
              picture.step (anchor, laneRow) back = .ok ⟨some (anchor + 1, laneRow), some .dup⟩
                ((m.after .dup 1).facing .right .left) := by
  obtain ⟨grid, picture, htranslate, hload, hrenders, hdrawn⟩ := exists_picture hparse
  refine ⟨grid, picture, htranslate, hload, ?_⟩
  intro pre body post d e hcode hbody
  obtain ⟨rfl, hloop⟩ := hdrawn.loop hbody hcode
  have hclose : code = pre ++ ⟨.loopOpen, e⟩ :: body ++ ⟨.loopClose, e⟩ :: post := by
    rw [hcode, List.append_assoc]
    rfl
  obtain ⟨st, turned, hready, -, hturned, hx, -, -, hloops, -⟩ := hdrawn.exists_column hclose
  have hrun : (Cursor.start code).run (Source.maxDepth code) (pre ++ ⟨.loopOpen, e⟩ :: body) =
      (((Cursor.start code).run (Source.maxDepth code) pre).next (Source.maxDepth code)
        ⟨.loopOpen, e⟩).run (Source.maxDepth code) body := Cursor.run_append _ _ _ _
  have hpending := hready.loops
  rw [hrun, hbody.loops_run] at hpending
  have hcolumn : turned.x = ((Cursor.start code).run (Source.maxDepth code)
      (pre ++ ⟨.loopOpen, e⟩ :: body)).x + 2 := by
    rw [hx, hready.x]
  have hrows : Session.loopRows { maxDepth := Source.maxDepth code } e =
      loopRows (Source.maxDepth code) e := by
    have hdepth := hloop.depth
    simp only [Session.loopRows, loopRows]
    omega
  generalize (Cursor.start code).run (Source.maxDepth code) pre = a at *
  generalize (Cursor.start code).run (Source.maxDepth code) (pre ++ ⟨.loopOpen, e⟩ :: body) = z at *
  refine ⟨turned, a.x, a.x + 9, a.loops, hturned, hloops.trans hpending, ?_⟩
  intro m row hrow hrow'
  rw [hrows] at hrow'
  have hin (x : Int) : (x, row) ∈ comb x laneRow [loopRows (Source.maxDepth code) e] :=
    mem_comb_singleton.mpr ⟨rfl, hrow, hrow'⟩
  have hbehind : turned.x + 2 = z.x + 4 := by omega
  rw [hbehind, hcolumn]
  refine ⟨hrenders.path_skip hloop (hin _) (Nat.zero_le _), m.facing .up .right,
    hrenders.path_return hloop (hin _) (Nat.zero_le _), rfl, rfl, rfl, ?_⟩
  exact (hrenders.alike_anchor hloop m).step.trans
    (hrenders.treads_dup hloop (Nat.zero_le _)).step

/-- The inner loop of a nested program leads where it should. -/
theorem loop_routes_nested :
    ∃ code grid picture st anchor branch outer, Source.parse "+[>[-]<]" = .ok code ∧
      translate "+[>[-]<]" = .ok grid ∧ Picture.load grid.normalize {} = .ok () picture ∧
      Drawing.upToColumn code (code.take 5) 2 { maxDepth := 2 } = .ok () st ∧
      st.loops = ⟨anchor, 2, some branch⟩ :: outer ∧
      picture.Path 0 [none, none] ⟨Machine.facing {} .right .right, (branch, laneRow)⟩
        ⟨Machine.facing {} .right .left, (st.x + 2, laneRow)⟩ ∧
      ∃ back : Machine, picture.Path 0 [none, none, none]
        ⟨Machine.facing {} .left .left, (st.x, laneRow)⟩ ⟨back, (anchor, laneRow)⟩ := by
  have hparse : Source.parse "+[>[-]<]" = .ok [⟨.increment, 0⟩, ⟨.loopOpen, 1⟩, ⟨.advance, 0⟩,
    ⟨.loopOpen, 2⟩, ⟨.decrement, 0⟩, ⟨.loopClose, 2⟩, ⟨.retreat, 0⟩, ⟨.loopClose, 1⟩] := by rfl
  obtain ⟨grid, picture, htranslate, hload, hloops⟩ := loop_routes hparse
  obtain ⟨st, anchor, branch, outer, hdraw, hpending, hroutes⟩ :=
    hloops [⟨.increment, 0⟩, ⟨.loopOpen, 1⟩, ⟨.advance, 0⟩] [⟨.decrement, 0⟩]
      [⟨.retreat, 0⟩, ⟨.loopClose, 1⟩] 2 2 rfl (by decide)
  obtain ⟨hskip, back, hreturn, -⟩ := hroutes {} laneRow (by decide) (by decide)
  exact ⟨_, grid, picture, st, anchor, branch, outer, hparse, htranslate, hload, hdraw, hpending,
    hskip, back, hreturn⟩

end BrainPiet
