import BrainPiet.Proofs.Drawing.View

/-!
# Loops in a finished grid

A pair of brackets that belong together shares a loop. In the finished grid the return row of the
loop is white between its columns, and black lies beside its outer columns, whatever was painted
before, between and after the brackets.
-/

namespace BrainPiet

open Template (laneRow)

/-- The number of loops that are open behind some instructions; none when one is closed that is not
open. -/
def openLevel : Nat → List Instruction → Option Nat
  | n, [] => some n
  | n, i :: code =>
    match i.symbol, n with
    | .loopOpen, n => openLevel (n + 1) code
    | .loopClose, 0 => none
    | .loopClose, n + 1 => openLevel n code
    | _, n => openLevel n code

/-- Every bracket among the instructions has its partner among them. -/
def Balanced (code : List Instruction) : Prop := openLevel 0 code = some 0

instance (code : List Instruction) : Decidable (Balanced code) :=
  inferInstanceAs (Decidable (_ = _))

theorem openLevel_action {a : Symbol} (ha : a.IsAction) (n d : Nat) (code : List Instruction) :
    openLevel n (⟨a, d⟩ :: code) = openLevel n code := by
  cases a <;> first | rfl | exact absurd rfl ha.1 | exact absurd rfl ha.2

/-- Loops that are open count off the pending loops of the cursor. -/
theorem Cursor.loops_run {D n : Nat} {c : Cursor} (inner : List OpenLoop) {outer : List OpenLoop}
    {code : List Instruction} (h : openLevel n code = some 0) (hn : inner.length = n)
    (hc : c.loops = inner ++ outer) : (c.run D code).loops = outer := by
  induction code generalizing n c inner with
  | nil =>
    cases h
    rw [List.length_eq_zero_iff.mp hn] at hc
    exact hc
  | cons i code ih =>
    obtain ⟨a, d⟩ := i
    rcases a.action_or_bracket with ha | rfl | rfl
    · rw [openLevel_action ha] at h
      exact ih inner h hn ((Cursor.loops_next ha).trans hc)
    · exact ih (c := c.next D ⟨.loopOpen, d⟩) (⟨c.x, d, some (c.x + 9)⟩ :: inner) h
        (congrArg (· + 1) hn) (congrArg (_ :: ·) hc)
    · cases n with
      | zero => cases h
      | succ n =>
        obtain ⟨l, inner, rfl⟩ := List.exists_cons_of_length_eq_add_one hn
        exact ih (c := c.next D ⟨.loopClose, d⟩) inner h (Nat.succ.inj hn) (congrArg List.tail hc)

/-- Behind balanced instructions the pending loops are those from before. -/
theorem Balanced.loops_run {D : Nat} {c : Cursor} {code : List Instruction} (h : Balanced code) :
    (c.run D code).loops = c.loops :=
  Cursor.loops_run [] h rfl (List.nil_append c.loops).symm

/-- Draws all that comes before the column of a closing bracket. -/
def Drawing.upToColumn (code pre : List Instruction) (depth : Int) : Drawing Unit := do
  upTo code pre
  (Template.loopClose depth).dropLast.forM Stroke.draw

/-- A closing bracket comes to its column two columns behind the cursor, with everything further down
as it was. -/
theorem Drawn.exists_column {D : Nat} {code pre post : List Instruction} {d : Nat} {g : Grid}
    (h : Drawn D code g) (hcode : code = pre ++ ⟨.loopClose, d⟩ :: post) :
    ∃ st turned, ((Cursor.start code).run D pre).Ready D st ∧
      ((Cursor.start code).run D pre).Fits D ⟨.loopClose, d⟩ ∧
      Drawing.upToColumn code pre d { maxDepth := D } = .ok () turned ∧
      turned.x = st.x + 2 ∧ turned.y = st.y ∧ turned.maxDepth = st.maxDepth ∧
      turned.loops = st.loops ∧
      ∀ p : Pos, p.1 < st.x + 2 → laneRow + 2 ≤ p.2 → turned.grid.get? p = st.grid.get? p := by
  obtain ⟨st, -, hdraw, hready, hfits, -⟩ := h.tile pre _ post hcode
  have hpal : st.shade.InPalette := by
    rw [hready.shade]
    exact hready.palette
  obtain ⟨turned, hturned, hrest⟩ := Drawing.exists_turned st hpal hready.y d
  exact ⟨st, turned, hready, hfits, (bind_of_ok hdraw).trans hturned, hrest⟩

/-- What is seen of a loop whose brackets are at two cursors. -/
structure LoopShown (deepest : Nat) (view : Pos → Codel) (a z : Cursor) (d : Nat) : Prop where
  opening : a.Shown deepest view ⟨.loopOpen, d⟩
  closing : z.Shown deepest view ⟨.loopClose, d⟩
  depth : d ≤ deepest
  order : a.x + 11 ≤ z.x
  left : view (a.x - 1, returnRow deepest d) = .black
  right : view (z.x + 3, returnRow deepest d) = .black
  span : ∀ x, a.x < x → x < z.x + 2 → x ≠ a.x + 9 → view (x, returnRow deepest d) = .white

private theorem returnRow_ne {deepest : Nat} {d e : Int} (h : d ≠ e) :
    returnRow deepest d ≠ returnRow deepest e := by
  simp only [returnRow]
  omega

/-- The brackets of a loop have one depth, and a finished grid shows their loop. -/
theorem Drawn.loop {D : Nat} {code pre body post : List Instruction} {d e : Nat} {g : Grid}
    (h : Drawn D code g) (hbody : Balanced body)
    (hcode : code = pre ++ ⟨.loopOpen, d⟩ :: (body ++ ⟨.loopClose, e⟩ :: post)) :
    e = d ∧ LoopShown D g.codel ((Cursor.start code).run D pre)
      ((Cursor.start code).run D (pre ++ ⟨.loopOpen, d⟩ :: body)) d := by
  have hcode' : code = pre ++ ⟨.loopOpen, d⟩ :: body ++ ⟨.loopClose, e⟩ :: post := by
    rw [hcode, List.append_assoc]
    rfl
  have hopening := h.shown hcode
  have hclosing := h.shown hcode'
  obtain ⟨st₁, st₁', -, hready₁, ⟨hdepth, hD⟩, hdraws₁, -, hkeeps₁⟩ := h.tile _ _ _ hcode
  obtain ⟨st₂, st₂', -, hready₂, ⟨-, hdepth'⟩, hdraws₂, hready₂', hkeeps₂⟩ := h.tile _ _ _ hcode'
  have hrun : (Cursor.start code).run D (pre ++ ⟨.loopOpen, d⟩ :: body) =
      (((Cursor.start code).run D pre).next D ⟨.loopOpen, d⟩).run D body := Cursor.run_append _ _ _ _
  have hloops := hbody.loops_run (D := D) (c := ((Cursor.start code).run D pre).next D ⟨.loopOpen, d⟩)
  have hle := Cursor.le_run D (((Cursor.start code).run D pre).next D ⟨.loopOpen, d⟩) body
  rw [← hrun] at hle hloops
  generalize (Cursor.start code).run D pre = a at *
  generalize (Cursor.start code).run D (pre ++ ⟨.loopOpen, d⟩ :: body) = z at *
  simp only at hdepth hD hdepth'
  have hzloops : z.loops = ⟨a.x, d, some (a.x + 9)⟩ :: a.loops := hloops
  obtain rfl : e = d := by
    rw [hdepth', hdepth, hzloops]
    rfl
  have hax : (a.next D ⟨.loopOpen, e⟩).x = a.x + 11 := rfl
  have hzx : (z.next D ⟨.loopClose, e⟩).x = z.x + 4 := rfl
  have hlow : laneRow + 1 < returnRow D e := by
    rw [returnRow]
    omega
  -- a loop that is pending beside these brackets is not as deep
  have houter {l : OpenLoop} (hl : l ∈ a.loops) : returnRow D e ≠ returnRow D l.depth := by
    have := hready₁.nested.depth_le hl
    apply returnRow_ne
    omega
  have hleft := (hready₁.keeps hdraws₁).trans hkeeps₁
  refine ⟨rfl, hopening, hclosing, hD, by omega, ?_, ?_, ?_⟩
  · rcases hleft.codel (by simp only; omega) (hready₁.margin _ hlow) with
      hblack | ⟨-, -, l, hl, hrow⟩
    · exact hblack
    · exact absurd hrow (houter hl)
  · have hnone := hready₂'.margin _ hlow
    rw [hzx, show z.x + 4 - 1 = z.x + 3 by omega] at hnone
    rcases hkeeps₂.codel (by simp only; omega) hnone with hblack | ⟨-, -, l, hl, hrow⟩
    · exact hblack
    · have hmem : l ∈ z.loops.tail := hl
      rw [hzloops] at hmem
      exact absurd hrow (houter hmem)
  · intro x hx hx' hne
    have hspan : z.span D ⟨.loopClose, e⟩ (x, returnRow D e) = some .white := by
      rw [Cursor.span, hzloops]
      simp only [spanCell, true_and]
      by_cases hturn : x < a.x + 9
      · rw [if_neg (by omega), if_pos ⟨hx, hturn⟩]
        rfl
      · rw [if_pos (by omega)]
        rfl
    have hnone : (Instruction.tile D z.shade ⟨.loopClose, e⟩).cell z.x (x, returnRow D e) = none := by
      apply Drawing.cell_loopClose
      · exact hx'
      · simp only
        omega
    rw [show Codel.white = Codel.ofColour .white from rfl]
    apply Grid.codel_of_some
    apply hkeeps₂.painted _ _ (by simp only; omega)
    rw [hdraws₂.get, Cursor.cell, hnone, hspan]
    rfl

end BrainPiet
