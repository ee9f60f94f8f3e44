import BrainPiet.Proofs.Drawing.Program

/-!
# Painting appends

Painting overwrites what was there, yet nothing that one instruction has painted is painted again by
a later one. This is more than that the colours stay: a drawing goes the same way whatever colours the
painted cells have, and each of these colours is still there in the end.
-/

namespace BrainPiet

namespace Grid

/-- What is painted in a grid is painted alike in another one. -/
def Extends (g g' : Grid) : Prop := ∀ p k, g.get? p = some k → g'.get? p = some k

theorem Extends.refl (g : Grid) : g.Extends g := fun _ _ hk ↦ hk

theorem Extends.trans {g g' g'' : Grid} (h : g.Extends g') (h' : g'.Extends g'') :
    g.Extends g'' := fun p k hk ↦ h' p k (h p k hk)

end Grid

namespace Drawing

/-- Draws some instructions and the end of a program. -/
def onward (rest : List Instruction) : Drawing Grid := do
  rest.forM fun i ↦ instruction i.symbol i.depth
  epilogue
  finish

/-- The drawing succeeds and paints no cell that is painted already: in whatever colours these cells
are, they keep them. -/
def Appends {α : Type} (drawing : Drawing α) (st : Session) : Prop :=
  ∀ other, st.Recolours other →
    ∃ a last, drawing other = .ok a last ∧ other.grid.Extends last.grid

/-- A drawing that appends keeps the colours from before. -/
theorem Appends.extends {α : Type} {drawing : Drawing α} {st last : Session} {a : α}
    (h : drawing.Appends st) (hdraw : drawing st = .ok a last) : st.grid.Extends last.grid := by
  obtain ⟨a', last', hdraw', hext⟩ := h st (.refl st)
  rw [hdraw] at hdraw'
  cases hdraw'
  exact hext

private theorem program_eq_onward (code : List Instruction) (st : Session) :
    program code st = (opening code >>= fun _ ↦ onward code) st := program_eq code st

private theorem onward_append {pre rest : List Instruction} {st st' : Session}
    (h : pre.forM (fun i ↦ instruction i.symbol i.depth) st = .ok () st') :
    onward (pre ++ rest) st = onward rest st' := by
  unfold onward
  change EStateM.bind _ _ st = EStateM.bind _ _ st'
  rw [EStateM.bind, EStateM.bind, forM_append_of_ok h]

end Drawing

namespace Cursor

variable {D : Nat} {c : Cursor} {i : Instruction} {st st' other last : Session}

private theorem Ready.cell_free (h : c.Ready D st) {p : Pos} {k : Rgb} (hk : c.cell D i p = some k) :
    st.grid.get? p = none := by
  rw [cell, Option.or_eq_some_iff] at hk
  rcases hk with hk | ⟨-, hk⟩
  · apply h.blank
    exact (h.tile_spec hk).1
  · exact (h.span_spec hk).2.2.1

/-- An instruction keeps what is painted, in whatever colours it is. -/
theorem Ready.extends (h : c.Ready D st) (ho : st.Recolours other)
    (ha : c.Draws D i other last) : other.grid.Extends last.grid := by
  intro p k hk
  have hcell : c.cell D i p = none := by
    rw [Option.eq_none_iff_forall_ne_some]
    intro k' hk'
    rw [ho.eq_none (h.cell_free hk')] at hk
    cases hk
  rw [ha.get, hcell, hk]
  rfl

private theorem Draws.recolours (ha : c.Draws D i st st') (ho : st.Recolours other)
    (hb : c.Draws D i other last) : st'.Recolours last := by
  refine ⟨?_, ?_, hb.shade.trans ha.shade.symm, ?_, hb.loops.trans ha.loops.symm, ?_⟩
  · rw [hb.x, ha.x, ho.x]
  · rw [hb.y, ha.y, ho.y]
  · rw [hb.maxDepth, ha.maxDepth, ho.maxDepth]
  · intro p
    rw [hb.get, ha.get]
    cases c.cell D i p with
    | none => exact ho.painted p
    | some k => rfl

private theorem Ready.run_recoloured {code : List Instruction} (h : c.Ready D st) (hf : c.FitsAll D code)
    (ho : st.Recolours other) :
    ∃ st' last, code.forM (fun i ↦ Drawing.instruction i.symbol i.depth) st = .ok () st' ∧
      code.forM (fun i ↦ Drawing.instruction i.symbol i.depth) other = .ok () last ∧
      (c.run D code).Ready D st' ∧ st'.Recolours last ∧ other.grid.Extends last.grid := by
  induction code generalizing c st other with
  | nil => exact ⟨st, other, rfl, rfl, h, ho, .refl other.grid⟩
  | cons i code ih =>
    obtain ⟨mid, hstep, hmid, hdraws⟩ := h.step hf.1
    obtain ⟨mid', hstep', hdraws'⟩ := h.draws hf.1 ho
    obtain ⟨st', last, hrest, hrest', hready, hlast, hext⟩ :=
      ih hmid hf.2 (hdraws.recolours ho hdraws')
    refine ⟨st', last, ?_, ?_, hready, hlast, (h.extends ho hdraws').trans hext⟩
    · exact (forM_cons_of_ok (f := fun i : Instruction ↦ Drawing.instruction i.symbol i.depth)
        hstep).trans hrest
    · exact (forM_cons_of_ok (f := fun i : Instruction ↦ Drawing.instruction i.symbol i.depth)
        hstep').trans hrest'

/-- Instructions that fit append. -/
theorem Ready.appends {code : List Instruction} (h : c.Ready D st) (hf : c.FitsAll D code) :
    Drawing.Appends (code.forM fun i ↦ Drawing.instruction i.symbol i.depth) st := by
  intro other ho
  obtain ⟨-, last, -, hdraw, -, -, hext⟩ := h.run_recoloured hf ho
  exact ⟨(), last, hdraw, hext⟩

private theorem Ready.epilogue_extends (h : c.Ready D st) (ho : st.Recolours other) :
    ∃ last, Drawing.epilogue other = .ok () last ∧ last.loops = c.loops ∧
      other.grid.Extends last.grid := by
  have hpal : other.shade.InPalette := by
    rw [ho.shade, h.shade]
    exact h.palette
  obtain ⟨last, hdraw, hloops, -, hget⟩ := Drawing.draw_epilogue hpal (ho.y.trans h.y)
  refine ⟨last, hdraw, hloops.trans (ho.loops.trans h.loops), ?_⟩
  intro p k hk
  rw [hget, Option.or_eq_some_iff]
  refine .inr ⟨?_, hk⟩
  rw [Option.eq_none_iff_forall_ne_some]
  intro k' hk'
  have hright := (epilogueCell_bounds hk').1
  rw [ho.x, h.x] at hright
  rw [ho.eq_none (h.blank p hright)] at hk
  cases hk

private theorem Ready.exists_onward {rest : List Instruction} (h : c.Ready D st) (hf : c.FitsAll D rest)
    (hclosed : (c.run D rest).loops = []) (ho : st.Recolours other) :
    ∃ last, Drawing.onward rest other = .ok last.grid last ∧ other.grid.Extends last.grid := by
  obtain ⟨st', mid, -, hdraw, hready, hmid, hext⟩ := h.run_recoloured hf ho
  obtain ⟨last, hepilogue, hloops, hext'⟩ := hready.epilogue_extends hmid
  refine ⟨last, ?_, hext.trans hext'⟩
  rw [Drawing.onward, bind_of_ok hdraw, bind_of_ok hepilogue,
    Drawing.finish_eq (hloops.trans hclosed)]

/-- A drawing that closes all loops can be cut in three, and what is drawn behind a cut appends. -/
theorem Ready.cut {pre mid post : List Instruction} (h : c.Ready D st)
    (hf : c.FitsAll D (pre ++ mid ++ post)) (hclosed : (c.run D (pre ++ mid ++ post)).loops = []) :
    ∃ st₁ st₂ last, pre.forM (fun i ↦ Drawing.instruction i.symbol i.depth) st = .ok () st₁ ∧
      mid.forM (fun i ↦ Drawing.instruction i.symbol i.depth) st₁ = .ok () st₂ ∧
      Drawing.onward post st₂ = .ok last.grid last ∧ st₂.grid.Extends last.grid ∧
      Drawing.Appends (mid.forM fun i ↦ Drawing.instruction i.symbol i.depth) st₁ ∧
      Drawing.Appends (Drawing.onward post) st₂ := by
  obtain ⟨hfront, hpost⟩ := fitsAll_append.mp hf
  obtain ⟨hpre, hmid⟩ := fitsAll_append.mp hfront
  rw [run_append, run_append] at hclosed
  rw [run_append] at hpost
  obtain ⟨st₁, hdraw₁, hready₁, -⟩ := h.run hpre
  obtain ⟨st₂, hdraw₂, hready₂, -⟩ := hready₁.run hmid
  obtain ⟨last, honward, hext⟩ := hready₂.exists_onward hpost hclosed (.refl st₂)
  refine ⟨st₁, st₂, last, hdraw₁, hdraw₂, honward, hext, hready₁.appends hmid, ?_⟩
  intro other ho
  obtain ⟨last', honward', hext'⟩ := hready₂.exists_onward hpost hclosed ho
  exact ⟨last'.grid, last', honward', hext'⟩

end Cursor

private theorem fitsAll_of_parse {text : String} {code : List Instruction}
    (hparse : Source.parse text = .ok code) :
    (Cursor.start code).FitsAll (Source.maxDepth code) code ∧
      ((Cursor.start code).run (Source.maxDepth code) code).loops = [] := by
  apply (nests_of_parse hparse).fitsAll
  · intro i hi
    exact depth_le_maxDepth hi
  · rw [Cursor.start]
    split <;> rfl

/-- Painting is append-only across instructions. What is painted once the opening and the first
instructions are drawn is painted alike behind any number of further instructions and in the finished
grid, and neither these instructions nor the rest of the program paint any of these cells. -/
theorem painting_appends {text : String} {code : List Instruction}
    (hparse : Source.parse text = .ok code) :
    ∃ grid, translate text = .ok grid ∧ ∀ k k', k ≤ k' → ∃ st st' last,
      Drawing.upTo code (code.take k) { maxDepth := Source.maxDepth code } = .ok () st ∧
      Drawing.upTo code (code.take k') { maxDepth := Source.maxDepth code } = .ok () st' ∧
      Drawing.onward (code.drop k') st' = .ok grid last ∧
      st.grid.Extends st'.grid ∧ st'.grid.Extends grid ∧
      Drawing.Appends
        (((code.take k').drop k).forM fun i ↦ Drawing.instruction i.symbol i.depth) st ∧
      Drawing.Appends (Drawing.onward (code.drop k')) st' := by
  obtain ⟨grid, last, htranslate, hprogram, -⟩ := exists_translate hparse
  obtain ⟨hfits, hclosed⟩ := fitsAll_of_parse hparse
  obtain ⟨first, hopening, hready, -⟩ := Drawing.exists_opening code (Source.maxDepth code)
  refine ⟨grid, htranslate, ?_⟩
  intro k k' hk
  have htake := List.take_append_drop k (code.take k')
  rw [List.take_take, Nat.min_eq_left hk] at htake
  have hcode : code.take k ++ (code.take k').drop k ++ code.drop k' = code := by
    rw [htake, List.take_append_drop]
  obtain ⟨st, st', last', hdraw, hdraw', honward, hext, happends, happends'⟩ :=
    hready.cut (by rw [hcode]; exact hfits) (by rw [hcode]; exact hclosed)
  have hboth := (forM_append_of_ok hdraw).trans hdraw'
  rw [htake] at hboth
  -- the three parts together are the program that was drawn
  have hwhole : Drawing.onward (code.drop k') st' = .ok grid last := by
    rw [← Drawing.onward_append hboth, List.take_append_drop, ← hprogram,
      Drawing.program_eq_onward, bind_of_ok hopening]
  rw [hwhole] at honward
  cases honward
  exact ⟨st, st', last, (bind_of_ok hopening).trans hdraw, (bind_of_ok hopening).trans hboth, hwhole,
    happends.extends hdraw', hext, happends, happends'⟩

/-- The inner loop of a nested program is closed under columns that were painted before, and nothing
is painted again. -/
theorem painting_appends_nested :
    ∃ code grid st st' last, Source.parse "+[>[-]<]" = .ok code ∧ translate "+[>[-]<]" = .ok grid ∧
      Drawing.upTo code (code.take 5) { maxDepth := 2 } = .ok () st ∧
      Drawing.upTo code (code.take 6) { maxDepth := 2 } = .ok () st' ∧
      Drawing.onward (code.drop 6) st' = .ok grid last ∧
      st.grid.Extends st'.grid ∧ st'.grid.Extends grid ∧
      Drawing.Appends (Drawing.onward (code.drop 6)) st' := by
  have hparse : Source.parse "+[>[-]<]" = .ok [⟨.increment, 0⟩, ⟨.loopOpen, 1⟩, ⟨.advance, 0⟩,
    ⟨.loopOpen, 2⟩, ⟨.decrement, 0⟩, ⟨.loopClose, 2⟩, ⟨.retreat, 0⟩, ⟨.loopClose, 1⟩] := by rfl
  obtain ⟨grid, htranslate, happends⟩ := painting_appends hparse
  obtain ⟨st, st', last, hst, hst', honward, hext, hext', -, hrest⟩ := happends 5 6 (by decide)
  exact ⟨_, grid, st, st', last, hparse, htranslate, hst, hst', honward, hext, hext', hrest⟩

end BrainPiet
