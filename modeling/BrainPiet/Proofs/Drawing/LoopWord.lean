import BrainPiet.Proofs.Drawing.Lasting
import BrainPiet.Proofs.Drawing.Program

/-!
# The loops of a session

A session can be led by any steps, not only by those of the templates. Whatever is painted between
them, the strokes that open, branch and close loops form a nested word if no step fails and the
session can be finished at the end.
-/

namespace BrainPiet

/-- Words in which every loop is opened, branched and closed once with the same depth, and in which
other loops lie before a loop, behind it or on one side of its branch. -/
inductive WellNested : List Stroke → Prop
  | nil : WellNested []
  | loop {before after rest : List Stroke} (depth : Int) (hbefore : WellNested before)
      (hafter : WellNested after) (hrest : WellNested rest) :
      WellNested (.openLoop depth :: before ++ .branch depth :: after ++ .closeLoop depth :: rest)

theorem WellNested.append {u v : List Stroke} (hu : WellNested u) (hv : WellNested v) :
    WellNested (u ++ v) := by
  induction hu with
  | nil => exact hv
  | loop depth hbefore hafter _ _ _ ih =>
    have hloop := WellNested.loop depth hbefore hafter ih
    simpa only [List.append_assoc, List.cons_append] using hloop

/-- What the loop strokes up to now say about the loops that are open: each of them was opened with
its depth, and branched since if it has a branch column. All other loops were closed. -/
inductive Pending : List OpenLoop → List Stroke → Prop
  | closed {word : List Stroke} (h : WellNested word) : Pending [] word
  | opened {loops : List OpenLoop} {outer before : List Stroke} (anchor depth : Int)
      (houter : Pending loops outer) (hbefore : WellNested before) :
      Pending (⟨anchor, depth, none⟩ :: loops) (outer ++ .openLoop depth :: before)
  | branched {loops : List OpenLoop} {outer before after : List Stroke} (anchor depth turn : Int)
      (houter : Pending loops outer) (hbefore : WellNested before) (hafter : WellNested after) :
      Pending (⟨anchor, depth, some turn⟩ :: loops)
        (outer ++ .openLoop depth :: before ++ .branch depth :: after)

namespace Pending

variable {loops : List OpenLoop} {word : List Stroke} {depth anchor turn : Int}

/-- Loops that are opened and closed leave those alone that are open. -/
theorem append {whole : List Stroke} (h : Pending loops word) (hwhole : WellNested whole) :
    Pending loops (word ++ whole) := by
  cases h with
  | closed h => exact closed (h.append hwhole)
  | opened anchor depth houter hbefore =>
    have hnew := opened anchor depth houter (hbefore.append hwhole)
    simpa only [List.append_assoc, List.cons_append] using hnew
  | branched anchor depth turn houter hbefore hafter =>
    have hnew := branched anchor depth turn houter hbefore (hafter.append hwhole)
    simpa only [List.append_assoc, List.cons_append] using hnew

theorem openLoop (h : Pending loops word) :
    Pending (⟨anchor, depth, none⟩ :: loops) (word ++ [.openLoop depth]) :=
  opened anchor depth h .nil

theorem branch (h : Pending (⟨anchor, depth, none⟩ :: loops) word) :
    Pending (⟨anchor, depth, some turn⟩ :: loops) (word ++ [.branch depth]) := by
  cases h with
  | opened _ _ houter hbefore => exact branched anchor depth turn houter hbefore .nil

/-- With the loop that is closed, a nested word comes to an end. -/
theorem closeLoop (h : Pending (⟨anchor, depth, some turn⟩ :: loops) word) :
    Pending loops (word ++ [.closeLoop depth]) := by
  cases h with
  | branched _ _ _ houter hbefore hafter =>
    have hloop := houter.append (.loop depth hbefore hafter .nil)
    simpa only [List.append_assoc, List.cons_append] using hloop

end Pending

/-- Painting and moving leave the open loops alone. -/
theorem lasting_loops : Session.Lasting fun st st' ↦ st'.loops = st.loops where
  refl _ := rfl
  trans h h' := h'.trans h
  paint _ _ _ _ _ _ := rfl
  move _ _ _ := rfl
  recolour _ _ := rfl

private theorem Stroke.pending_draw {stroke : Stroke} {word : List Stroke} {st st' : Session}
    (h : Pending st.loops word) (hdraw : stroke.draw st = .ok () st') :
    Pending st'.loops (word ++ [stroke].filter marksLoop) := by
  cases hmark : stroke.marksLoop with
  | false =>
    have hsame : st'.loops = st.loops := Drawing.within_painting lasting_loops hmark _ _ _ hdraw
    rw [List.filter_cons_of_neg (by rw [hmark]; decide), List.filter_nil, List.append_nil, hsame]
    exact h
  | true =>
    rw [List.filter_cons_of_pos hmark, List.filter_nil]
    cases stroke with
    | openLoop depth =>
      obtain ⟨mid, hmid, rfl⟩ := Drawing.exists_of_openLoop lasting_loops hdraw
      rw [← hmid] at h
      exact h.openLoop
    | branch depth =>
      obtain ⟨anchor, outer, hst, hrest⟩ := Drawing.exists_of_branch lasting_loops hdraw
      rw [hst] at h
      rw [hrest]
      exact h.branch
    | closeLoop depth =>
      obtain ⟨anchor, turn, outer, hst, hrest⟩ := Drawing.exists_of_closeLoop lasting_loops hdraw
      rw [hst] at h
      rw [hrest]
      exact h.closeLoop
    | _ => cases hmark

namespace Session

/-- What can be done with a session before it is finished. -/
inductive Step
  | stroke (k : Stroke)
  /-- A rectangle of any colour, anywhere. -/
  | rect (w h : Int) (x y : Option Int) (colour : Option Rgb)
  /-- An operation given by its name. -/
  | emit (name : String) (size : Int)
  /-- Sets the shade without reducing it to the palette. -/
  | tint (shade : Shade)
  /-- Whitens a part of a row. -/
  | span (row first last : Int)
  /-- Steps behind which cursor and shade are those from before. -/
  | aside (steps : List Step)

namespace Step

mutual

/-- Takes a step. -/
def draw : Step → Drawing Unit
  | stroke k => k.draw
  | rect w h x y colour => Drawing.rect w h x y colour
  | emit name size => Drawing.emitNamed name size
  | tint shade => modify fun s ↦ { s with shade }
  | span row first last => Drawing.returnSpan row first last
  | aside steps => Drawing.aside (drawAll steps)

/-- Takes steps one after the other. -/
def drawAll : List Step → Drawing Unit
  | [] => pure ()
  | step :: steps => do
    draw step
    drawAll steps

end

mutual

/-- The loop strokes of a step. -/
def word : Step → List Stroke
  | stroke k => [k].filter Stroke.marksLoop
  | aside steps => wordAll steps
  | _ => []

/-- The loop strokes of steps, in order. -/
def wordAll : List Step → List Stroke
  | [] => []
  | step :: steps => word step ++ wordAll steps

end

mutual

private theorem pending_draw {word : List Stroke} {st st' : Session} (step : Step)
    (h : Pending st.loops word) (hdraw : step.draw st = .ok () st') :
    Pending st'.loops (word ++ step.word) := by
  have hpaint (hsame : st'.loops = st.loops) : Pending st'.loops (word ++ []) := by
    rw [List.append_nil, hsame]
    exact h
  cases step with
  | stroke k => exact Stroke.pending_draw h hdraw
  | rect w h x y colour =>
    exact hpaint (Drawing.within_rect lasting_loops w h x y colour _ _ _ hdraw)
  | emit name size =>
    exact hpaint (Drawing.within_written lasting_loops (·.emitNamed name size) _ _ _ hdraw)
  | tint shade =>
    cases hdraw
    exact hpaint rfl
  | span row first last =>
    exact hpaint (Drawing.within_returnSpan lasting_loops row first last _ _ _ hdraw)
  | aside steps =>
    obtain ⟨after, hbody, rfl⟩ := Drawing.exists_of_aside hdraw
    have hafter := pending_drawAll steps h hbody
    exact hafter

/-- Steps continue it one after the other. -/
theorem pending_drawAll {word : List Stroke} {st st' : Session} (steps : List Step)
    (h : Pending st.loops word) (hdraw : drawAll steps st = .ok () st') :
    Pending st'.loops (word ++ wordAll steps) := by
  cases steps with
  | nil =>
    cases hdraw
    rw [wordAll, List.append_nil]
    exact h
  | cons step steps =>
    obtain ⟨_, mid, hstep, hsteps⟩ := exists_of_bind_ok hdraw
    have hmid := pending_draw step h hstep
    rw [wordAll, ← List.append_assoc]
    exact pending_drawAll steps hmid hsteps

end

private theorem drawAll_strokes (ks : List Stroke) : drawAll (ks.map .stroke) = ks.forM Stroke.draw := by
  induction ks with
  | nil => rw [List.map_nil, drawAll]; rfl
  | cons k ks ih => rw [List.map_cons, drawAll, draw, ih]; rfl

end Step

end Session

/-- If no step of a session fails and it can be finished, its loop strokes form a nested word,
whatever the depths are and whatever is painted between them. -/
theorem finished_session_nests {deepest : Int} {steps : List Session.Step} {grid : Grid}
    {last : Session}
    (h : (do Session.Step.drawAll steps; Drawing.finish) { maxDepth := deepest } = .ok grid last) :
    WellNested (Session.Step.wordAll steps) := by
  obtain ⟨_, st, hdraw, hfinish⟩ := exists_of_bind_ok h
  obtain ⟨hclosed, -, -⟩ := Drawing.eq_of_finish hfinish
  have hpending := Session.Step.pending_drawAll steps (.closed .nil) hdraw
  rw [hclosed] at hpending
  cases hpending with
  | closed hnested => exact hnested

/-- The strokes of a picture with a loop inside of another one. -/
theorem finished_session_nests_pair :
    ∃ grid last, (do
        Session.Step.drawAll (.map .stroke (Template.prologue ++ Template.spacer ++
          Template.loopOpen 1 ++ Template.loopOpen 2 ++ Template.loopClose 2 ++
          Template.loopClose 1 ++ Template.epilogue))
        Drawing.finish) { maxDepth := 2 } = .ok grid last ∧
      WellNested [.openLoop 1, .branch 1, .openLoop 2, .branch 2, .closeLoop 2, .closeLoop 1] := by
  let code : List Instruction := [⟨.loopOpen, 1⟩, ⟨.loopOpen, 2⟩, ⟨.loopClose, 2⟩, ⟨.loopClose, 1⟩]
  have hnests : Nests 0 code := by simp [code, Nests]
  have hdepth : ∀ i ∈ code, i.depth ≤ 2 := by decide
  obtain ⟨grid, last, hprogram, -⟩ := exists_drawing hnests hdepth
  have hrun : (do
      Session.Step.drawAll (.map .stroke (Template.prologue ++ Template.spacer ++
        Template.loopOpen 1 ++ Template.loopOpen 2 ++ Template.loopClose 2 ++
        Template.loopClose 1 ++ Template.epilogue))
      Drawing.finish) { maxDepth := 2 } = .ok grid last := by
    rw [← hprogram, Session.Step.drawAll_strokes]
    simp only [code, Drawing.program, Drawing.instruction, Drawing.prologue, Drawing.epilogue,
      Piece.drawAll, Template.pieces, List.forM_eq_forM, List.forM_append, List.forM_cons,
      List.forM_nil, bind_assoc, pure_bind]
    rfl
  exact ⟨grid, last, hrun, finished_session_nests hrun⟩

end BrainPiet
