import BrainPiet.Proofs.Drawing.Loop

/-!
# Every balanced program has a picture

Drawing fails for no program that can be parsed: when a loop is closed, its return row is still free
between its columns, and something is painted to the left of each of the two spans.
-/

namespace BrainPiet

open Template (laneRow)

/-- The innermost loop has a given depth. On its return row the codels of its anchor and of its
branch column are painted, and all others up to the cursor are not. -/
def Session.SpansFree (st : Session) (depth : Int) : Prop :=
  ∃ anchor turn outer, st.loops = ⟨anchor, depth, some turn⟩ :: outer ∧ anchor < turn ∧ turn < st.x ∧
    (st.grid.get? (anchor, st.y + st.loopRows depth - 1)).isSome ∧
    (st.grid.get? (turn, st.y + st.loopRows depth - 1)).isSome ∧
    ∀ z, anchor < z → z < st.x → z ≠ turn →
      st.grid.get? (z, st.y + st.loopRows depth - 1) = none

private theorem Drawn.exists_spansFree {deepest : Nat} {code : List Instruction} {g : Grid}
    (h : Drawn deepest code g) {pre post : List Instruction} {d : Nat}
    (hcode : code = pre ++ ⟨.loopClose, d⟩ :: post) :
    ∃ st, Drawing.upToColumn code pre d { maxDepth := deepest } = .ok () st ∧ st.SpansFree d := by
  obtain ⟨st, turned, hready, ⟨hpos, hdepth⟩, hturned, hx, hy, hmax, hloops, hsame⟩ :=
    h.exists_column hcode
  obtain ⟨⟨anchor, depth, branch⟩, outer, hcons⟩ :=
    List.exists_cons_of_ne_nil (List.length_pos_iff.mp hpos)
  obtain ⟨hD, turn, rfl, hanchor, hturn, ⟨k, hk⟩, ⟨k', hk'⟩, hfree⟩ :=
    hready.spared ⟨anchor, depth, branch⟩ (by rw [hcons]; exact List.mem_cons_self)
  simp only at hD hanchor hk hk' hfree
  obtain rfl : depth = d := by
    have hhead := hready.nested
    rw [hcons] at hhead hdepth
    rw [List.length_cons] at hdepth
    have := hhead.1
    simp only at this hdepth
    omega
  have hrow : turned.y + turned.loopRows d - 1 = returnRow deepest d := by
    rw [hy, hready.y, Session.loopRows, hmax, hready.maxDepth, returnRow]
    omega
  have hlow : laneRow + 2 ≤ returnRow deepest d := by
    rw [returnRow]
    omega
  refine ⟨turned, hturned, anchor, turn, outer, ?_, hanchor, ?_, ?_, ?_, ?_⟩
  · rw [hloops, hready.loops, hcons]
  · rw [hx, hready.x]
    omega
  · rw [hrow, hsame _ (by rw [hready.x]; simp only; omega) hlow, hk]
    rfl
  · rw [hrow, hsame _ (by rw [hready.x]; simp only; omega) hlow, hk']
    rfl
  · intro z hz hlt hne
    rw [hrow, hsame _ (by omega) hlow]
    by_cases hzx : z < ((Cursor.start code).run deepest pre).x
    · exact hfree z hz hne hzx
    · exact hready.blank _ (by simp only; omega)

/-- A text is refused exactly when it cannot be parsed. Otherwise there is a grid; no loop is pending
at the end, and when a loop is closed the spans of its return row are free. -/
theorem translate_total (src : String) :
    (∀ reason, translate src = .error (.malformed reason) ↔ Source.parse src = .error reason) ∧
    ∀ code, Source.parse src = .ok code → ∃ grid last,
      translate src = .ok grid ∧
      Drawing.program code { maxDepth := Source.maxDepth code } = .ok grid last ∧
      last.loops = [] ∧
      ∀ pre (d : Nat) post, code = pre ++ ⟨.loopClose, d⟩ :: post → ∃ st,
        Drawing.upToColumn code pre d { maxDepth := Source.maxDepth code } = .ok () st ∧
        st.SpansFree d := by
  cases hparse : Source.parse src with
  | error reason =>
    have htranslate : translate src = .error (.malformed reason) := by
      rw [translate, hparse]
    rw [htranslate]
    refine ⟨fun r ↦ ?_, by rintro _ ⟨⟩⟩
    constructor
    · intro h
      cases h
      rfl
    · intro h
      cases h
      rfl
  | ok code =>
    obtain ⟨grid, last, htranslate, hprogram, hloops, hdrawn⟩ := exists_translate hparse
    rw [htranslate]
    refine ⟨fun reason ↦ ⟨by rintro ⟨⟩, by rintro ⟨⟩⟩, ?_⟩
    intro code' hcode'
    cases hcode'
    exact ⟨grid, last, rfl, hprogram, hloops, fun pre d post hcode ↦ hdrawn.exists_spansFree hcode⟩

/-- A program with two nested loops has a grid, and the spans of its inner loop are free. -/
theorem translate_total_nested :
    ∃ code grid st, Source.parse "+[>[-]<]" = .ok code ∧ translate "+[>[-]<]" = .ok grid ∧
      Drawing.upToColumn code (code.take 5) 2 { maxDepth := 2 } = .ok () st ∧ st.SpansFree 2 := by
  have hparse : Source.parse "+[>[-]<]" = .ok [⟨.increment, 0⟩, ⟨.loopOpen, 1⟩, ⟨.advance, 0⟩,
    ⟨.loopOpen, 2⟩, ⟨.decrement, 0⟩, ⟨.loopClose, 2⟩, ⟨.retreat, 0⟩, ⟨.loopClose, 1⟩] := by rfl
  obtain ⟨grid, -, htranslate, -, -, hclose⟩ := (translate_total "+[>[-]<]").2 _ hparse
  obtain ⟨st, hdraw, hfree⟩ := hclose [⟨.increment, 0⟩, ⟨.loopOpen, 1⟩, ⟨.advance, 0⟩,
    ⟨.loopOpen, 2⟩, ⟨.decrement, 0⟩] 2 [⟨.retreat, 0⟩, ⟨.loopClose, 1⟩] rfl
  exact ⟨_, grid, st, hparse, htranslate, hdraw, hfree⟩

end BrainPiet
