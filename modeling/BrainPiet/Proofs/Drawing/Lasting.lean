import BrainPiet.Proofs.Sequence
import BrainPiet.Translate

/-!
# What drawing cannot undo

A drawing paints rectangles, moves the cursor, changes the shade and keeps a list of open loops.
Whatever holds across these steps holds across every drawing, so that a fact about all drawings needs
no look at the templates.
-/

namespace BrainPiet

/-- A relation that a session keeps to later ones across painting, moves of the cursor and changes of
the shade. -/
structure Session.Lasting (R : Session → Session → Prop) : Prop where
  refl (st : Session) : R st st
  trans {st mid st' : Session} : R st mid → R mid st' → R st st'
  paint (st : Session) (x y : Int) (c : Rgb) (w h : Int) :
    R st { st with grid := st.grid.paint x y c w h }
  move (st : Session) (x y : Int) : R st { st with x, y }
  recolour (st : Session) (shade : Shade) : R st { st with shade }

/-- The strokes that open, branch and close loops. -/
def Stroke.marksLoop : Stroke → Bool
  | openLoop _ | branch _ | closeLoop _ => true
  | _ => false

namespace Drawing

variable {R : Session → Session → Prop} {α β : Type}

/-- Where the drawing succeeds, the relation leads from the session before it to the one behind. -/
def Within (R : Session → Session → Prop) (drawing : Drawing α) : Prop :=
  ∀ st a st', drawing st = .ok a st' → R st st'

theorem within_throw (fault : DrawFault) : Within R (throw fault : Drawing α) := by
  rintro st _ _ ⟨⟩

theorem within_modify {f : Session → Session} (h : ∀ st, R st (f st)) :
    Within R (modify f : Drawing Unit) := by
  rintro st _ _ ⟨⟩
  exact h st

/-- What is drawn aside succeeds with what its body has drawn. -/
theorem exists_of_aside {body : Drawing α} {st st' : Session} {a : α}
    (h : aside body st = .ok a st') :
    ∃ after, body st = .ok a after ∧ st' = after.resume st := by
  simp only [aside] at h
  split at h
  · next after hbody =>
    cases h
    exact ⟨after, hbody, rfl⟩
  · cases h

/-- A session that is finished has no open loop, and its grid is the result. -/
theorem eq_of_finish {st st' : Session} {g : Grid} (h : finish st = .ok g st') :
    st.loops = [] ∧ g = st.grid ∧ st' = st := by
  rw [finish, get_bind] at h
  cases hst : st.loops with
  | nil =>
    simp only [hst, List.isEmpty_nil, if_true] at h
    cases h
    exact ⟨rfl, rfl, rfl⟩
  | cons loop outer =>
    simp only [hst, List.isEmpty_cons, Bool.false_eq_true, if_false] at h
    cases h

variable (hR : Session.Lasting R)

include hR

theorem within_bind {drawing : Drawing α} {next : α → Drawing β} (h : Within R drawing)
    (hnext : ∀ a, Within R (next a)) : Within R (drawing >>= next) := by
  intro st b st' hrun
  obtain ⟨a, mid, hfirst, hsecond⟩ := exists_of_bind_ok hrun
  exact hR.trans (h st a mid hfirst) (hnext a mid b st' hsecond)

theorem within_pure (a : α) : Within R (pure a) := by
  rintro st _ _ ⟨⟩
  exact hR.refl st

theorem within_get : Within R get := by
  rintro st _ _ ⟨⟩
  exact hR.refl st

theorem within_forM {f : β → Drawing Unit} (h : ∀ b, Within R (f b)) (bs : List β) :
    Within R (bs.forM f) := by
  induction bs with
  | nil => exact within_pure hR ()
  | cons b bs ih => exact within_bind hR (h b) fun _ ↦ ih

theorem within_ofExcept (result : Except DrawFault α) : Within R (ofExcept result) := by
  cases result with
  | ok a => exact within_pure hR a
  | error fault => exact within_throw fault

theorem within_ink : Within R ink :=
  within_bind hR (within_get hR) fun s ↦ within_ofExcept hR s.shade.colour

theorem within_fill (x y : Int) (c : Rgb) (w h : Int) : Within R (fill x y c w h) :=
  within_modify fun st ↦ hR.paint st x y c w h

theorem within_rect (w h : Int) (x y : Option Int) (c : Option Rgb) :
    Within R (rect w h x y c) := by
  apply within_bind hR (within_get hR)
  intro s
  cases c with
  | some c => exact within_bind hR (within_pure hR c) fun c ↦ within_fill hR _ _ c w h
  | none => exact within_bind hR (within_ink hR) fun c ↦ within_fill hR _ _ c w h

theorem within_column (c : Rgb) (height : Int) : Within R (column c height) := by
  apply within_bind hR (within_get hR)
  intro s
  apply within_bind hR (within_fill hR s.x s.y c 1 height)
  intro _
  exact within_modify fun st ↦ hR.move st (st.x + 1) st.y

theorem within_paint (height : Int) : Within R (paint height) :=
  within_bind hR (within_ink hR) fun c ↦ within_column hR c height

theorem within_white (height : Int) : Within R (white height) :=
  within_column hR .white height

/-- Every way to write an operation: columns that depend on the shade are painted. -/
theorem within_written (written : Shade → Except DrawFault (List Column × Shade)) :
    Within R (do columns (← ofExcept (written (← get).shade))) := by
  apply within_bind hR (within_get hR)
  intro s
  apply within_bind hR (within_ofExcept hR _)
  intro result
  apply within_bind hR (within_modify fun st ↦ hR.recolour st result.2)
  intro _
  exact within_forM hR (fun c ↦ within_column hR c.colour c.height) result.1

theorem within_glyph (lines : List String) : Within R (glyph lines) :=
  within_bind hR (within_get hR) fun s ↦
    within_forM hR (fun (p : Pos) ↦ within_fill hR (s.x + p.1) (Session.glyphTop + p.2) .white 1 1) _

theorem within_returnSpan (row first last : Int) : Within R (returnSpan row first last) := by
  apply within_bind hR (within_get hR)
  intro s
  dsimp only
  split
  · rintro _ _ _ ⟨⟩
  · split
    · exact within_throw _
    · exact within_fill hR first row .white (last - first + 1) 1

theorem within_aside {body : Drawing α} (h : Within R body) : Within R (aside body) := by
  intro st a st' hrun
  obtain ⟨after, hbody, rfl⟩ := exists_of_aside hrun
  exact hR.trans (h st a after hbody)
    (hR.trans (hR.move after st.x st.y) (hR.recolour _ st.shade.wrap))

/-- All strokes but those of a loop paint, move the cursor or change the shade. -/
theorem within_painting {stroke : Stroke} (h : stroke.marksLoop = false) :
    Within R stroke.draw := by
  cases stroke with
  | glyph lines => exact within_glyph hR lines
  | emit op size => exact within_written hR (·.emit op size)
  | paint height => exact within_paint hR height
  | white height => exact within_white hR height
  | recolour shade => exact within_modify fun st ↦ hR.recolour st shade.wrap
  | move x y => exact within_modify fun st ↦ hR.move st x y
  | down rows => exact within_modify fun st ↦ hR.move st st.x (st.y + rows)
  | block x y w height =>
    exact within_bind hR (within_ink hR) fun c ↦ within_fill hR x y c w height
  | pillar above height colour =>
    exact within_bind hR (within_get hR) fun s ↦
      within_fill hR s.x (s.y - above) colour 1 height
  | openLoop depth => cases h
  | branch depth => cases h
  | closeLoop depth => cases h

/-! ### Drawings that open and close loops -/

/-- Besides painting, opening a loop makes it the innermost one. -/
theorem exists_of_openLoop {depth : Int} {st st' : Session}
    (h : openLoop depth st = .ok () st') :
    ∃ mid, R st mid ∧ st' = { mid with loops := ⟨mid.x, depth, none⟩ :: mid.loops } := by
  rw [openLoop, get_bind] at h
  obtain ⟨_, shaft, hshaft, h⟩ := exists_of_bind_ok h
  obtain ⟨c, inked, hink, h⟩ := exists_of_bind_ok h
  obtain ⟨_, foot, hfoot, ⟨⟩⟩ := exists_of_bind_ok h
  have hfirst := within_fill hR _ _ _ _ _ _ _ _ hshaft
  have hlast := within_fill hR _ _ _ _ _ _ _ _ hfoot
  exact ⟨foot, hR.trans hfirst (hR.trans (within_ink hR _ _ _ hink) hlast), rfl⟩

/-- A branch column belongs to the innermost loop, which has its depth and no such column yet. -/
theorem exists_of_branch {depth : Int} {st st' : Session}
    (h : branch depth st = .ok () st') :
    ∃ anchor outer, st.loops = ⟨anchor, depth, none⟩ :: outer ∧
      R { st with loops := ⟨anchor, depth, some st.x⟩ :: outer } st' := by
  rw [branch, get_bind] at h
  cases hst : st.loops with
  | nil =>
    simp only [hst] at h
    cases h
  | cons loop outer =>
    obtain ⟨anchor, loopDepth, noted⟩ := loop
    cases noted with
    | some turn =>
      simp only [hst] at h
      cases h
    | none =>
      simp only [hst] at h
      split at h
      · next hdepth =>
        subst hdepth
        have hdraw := within_bind hR (within_paint hR (st.loopRows loopDepth)) fun _ ↦
          within_white hR 1
        exact ⟨anchor, outer, rfl, hdraw _ _ _ h⟩
      · cases h

/-- The loop that is closed is the innermost one, which has this depth and a branch column. -/
theorem exists_of_closeLoop {depth : Int} {st st' : Session}
    (h : closeLoop depth st = .ok () st') :
    ∃ anchor turn outer, st.loops = ⟨anchor, depth, some turn⟩ :: outer ∧
      R { st with loops := outer } st' := by
  rw [closeLoop, get_bind] at h
  cases hst : st.loops with
  | nil =>
    simp only [hst] at h
    cases h
  | cons loop outer =>
    obtain ⟨anchor, loopDepth, noted⟩ := loop
    cases noted with
    | none =>
      simp only [hst] at h
      cases h
    | some turn =>
      simp only [hst, set_bind] at h
      split at h
      · cases h
      · next hdepth =>
        obtain rfl := Decidable.of_not_not hdepth
        have hspans (row first last first' last' : Int) :=
          within_bind hR (within_returnSpan hR row first last) fun _ ↦
            within_returnSpan hR row first' last'
        have hdraw (rows row first last first' last' : Int) :=
          within_bind hR (within_paint hR rows) fun _ ↦
            within_bind hR (within_white hR 1) fun _ ↦ hspans row first last first' last'
        exact ⟨anchor, turn, outer, rfl, hdraw _ _ _ _ _ _ _ _ _ h⟩

section Loops

variable (hloops : ∀ (st : Session) loops, R st { st with loops })

include hloops

theorem within_stroke (stroke : Stroke) : Within R stroke.draw := by
  cases stroke with
  | openLoop depth =>
    intro st _ _ hrun
    obtain ⟨mid, hmid, rfl⟩ := exists_of_openLoop hR hrun
    exact hR.trans hmid (hloops mid _)
  | branch depth =>
    intro st _ _ hrun
    obtain ⟨_, _, -, hrest⟩ := exists_of_branch hR hrun
    exact hR.trans (hloops st _) hrest
  | closeLoop depth =>
    intro st _ _ hrun
    obtain ⟨_, _, outer, -, hrest⟩ := exists_of_closeLoop hR hrun
    exact hR.trans (hloops st outer) hrest
  | _ => exact within_painting hR rfl

theorem within_piece (piece : Piece) : Within R piece.draw := by
  cases piece with
  | lane stroke => exact within_stroke hR hloops stroke
  | aside strokes => exact within_aside hR (within_forM hR (within_stroke hR hloops) strokes)

/-- Drawing a whole program keeps whatever lasts. -/
theorem within_program (code : List Instruction) : Within R (program code) := by
  have hstrokes := within_forM hR (within_stroke hR hloops)
  have hrest : Within R (do
      code.forM fun i ↦ instruction i.symbol i.depth
      epilogue
      finish) := by
    apply within_bind hR (within_forM hR (fun i ↦ within_forM hR (within_piece hR hloops) _) code)
    intro _
    apply within_bind hR (hstrokes Template.epilogue)
    rintro _ st g st' hrun
    obtain ⟨-, -, rfl⟩ := eq_of_finish hrun
    exact hR.refl st'
  apply within_bind hR (hstrokes Template.prologue)
  intro _
  split
  · exact within_bind hR (hstrokes Template.spacer) fun _ ↦ hrest
  · exact hrest

end Loops

end Drawing

end BrainPiet
