import BrainPiet.Proofs.Picture.Blocks
import BrainPiet.Run

/-!
# Rows of different lengths

The first row sets the width of a picture. A row that is shorter lacks a codel, and the rows are
refused, whether the scan comes to the gap first or a flood from another row. Of a row that is
longer the codels beyond the width are never looked at. So the blocks and the runs of a picture are
those of its rows cut to the width.
-/

namespace BrainPiet

namespace Canvas

/-- Two canvases have the same rectangle and show the same codels. -/
structure Matches (c c' : Canvas) : Prop where
  width : c.width = c'.width
  height : c.height = c'.height
  look : ∀ p, c.look p = c'.look p

namespace Matches

variable {c c' : Canvas} (h : c.Matches c')

include h

private theorem positions_eq : c.positions = c'.positions := by
  rw [positions, positions, h.width, h.height]

private theorem enterAll_eq (s : Shade) (id : Nat) (p : Pos) (f : Flood) :
    c.enterAll s id p f = c'.enterAll s id p f := by
  have henter : c.enter s id p = c'.enter s id p := by
    funext f d
    simp only [enter, h.look]
  rw [enterAll, enterAll, henter]

private theorem flood_eq (s : Shade) (id : Nat) (f : Flood) : c.flood s id f = c'.flood s id f := by
  induction f using flood.induct c s id with
  | case1 f htodo => rw [flood_of_done htodo, flood_of_done htodo]
  | case2 f p rest htodo labels henter =>
    rw [flood_of_todo htodo, flood_of_todo htodo, ← h.enterAll_eq, henter]
    rfl
  | case3 f p rest htodo g henter ih =>
    rw [flood_of_todo htodo, flood_of_todo htodo, ← h.enterAll_eq, henter]
    exact ih

private theorem partition_eq : c.partition = c'.partition := by
  have hseed : c.seed = c'.seed := by
    funext p part
    simp only [seed, h.look, h.flood_eq]
  rw [partition, partition, hseed, h.positions_eq]

private theorem glide_eq {start g : Glide} (seen : Std.HashSet Glide) (hg : c.ReachedFrom start g)
    (hg' : c'.ReachedFrom start g) : c.glide start seen g hg = c'.glide start seen g hg' := by
  have hnext (g : Glide) : c.glideNext? g = c'.glideNext? g := by simp only [glideNext?, h.look]
  have stop {seen g} (hg hg') (hs : seen.contains g = false) (hend : c.glideNext? g = none) :
      c.glide start seen g hg = c'.glide start seen g hg' := by
    rw [glide_of_end hg hs hend, glide_of_end hg' hs (hnext g ▸ hend)]
    simp only [glideEnd, h.look]
  have go {seen g next} (hg hg') (hs : seen.contains g = false) (hgo : c.glideNext? g = some next)
      (ih : ∀ hb hb', c.glide start (seen.insert g) next hb =
        c'.glide start (seen.insert g) next hb') :
      c.glide start seen g hg = c'.glide start seen g hg' := by
    obtain ⟨hb, heq⟩ := glide_of_next hg hs hgo
    obtain ⟨hb', heq'⟩ := glide_of_next hg' hs (hnext g ▸ hgo)
    rw [heq, heq', ih hb hb']
  induction seen, g, hg using glide.induct c start with
  | case1 seen g hg hs => rw [glide_of_seen hg hs, glide_of_seen hg' hs]
  | case2 seen g hg hs hd => exact stop hg hg' hs (by simp [glideNext?, hd])
  | case3 seen g hg hs d hd hl => exact stop hg hg' hs (by simp [glideNext?, hd, hl])
  | case4 seen g hg hs d hd hl ih => exact go hg hg' hs (by simp [glideNext?, hd, hl]) fun _ ↦ ih
  | case5 seen g hg hs d hd hl ih => exact go hg hg' hs (by simp [glideNext?, hd, hl]) fun _ ↦ ih
  | case6 seen g hg hs d hd t hl => exact stop hg hg' hs (by simp [glideNext?, hd, hl])

private theorem slide_eq (p : Pos) : c.slide p = c'.slide p := by
  funext m
  have hglide := h.glide_eq ∅ (c.reachedFrom_self ⟨p, m.pointer, m.chooser⟩)
    (c'.reachedFrom_self ⟨p, m.pointer, m.chooser⟩)
  simp only [slide, hglide]

end Matches

end Canvas

namespace Picture

/-- Two pictures have the same blocks on canvases that show the same. -/
structure Matches (p q : Picture) : Prop where
  canvas : p.canvas.Matches q.canvas
  parts : p.parts = q.parts

namespace Matches

variable {p q : Picture} (h : p.Matches q)

include h

private theorem leave_eq (members : List Pos) (s : Shade) (as : List Adjustment) :
    p.leave members s as = q.leave members s as := by
  induction as with
  | nil => rfl
  | cons a rest ih =>
    funext m
    simp only [leave, h.canvas.look, h.canvas.slide_eq, ih]

theorem step_eq (pos : Pos) : p.step pos = q.step pos := by
  funext m
  simp only [step, h.parts, h.canvas.look, h.leave_eq]

private theorem walk_eq (fuel : Nat) (m : Machine) (pos : Pos) : p.walk fuel m pos = q.walk fuel m pos := by
  induction fuel generalizing m pos with
  | zero => rfl
  | succ fuel ih => simp only [walk, h.step_eq, ih]

theorem traceWalk_eq (count : Nat) (lines : List String) (fuel : Nat) (m : Machine) (pos : Pos) :
    p.traceWalk count lines fuel m pos = q.traceWalk count lines fuel m pos := by
  induction fuel generalizing count lines m pos with
  | zero => rfl
  | succ fuel ih => simp only [traceWalk, h.step_eq, ih]

theorem run_eq (input : List UInt8) (limit : Int) : p.run input limit = q.run input limit := by
  simp only [run, start?, h.parts, h.walk_eq]

theorem traceRun_eq (input : List UInt8) (limit : Int) :
    p.traceRun input limit = q.traceRun input limit := by
  simp only [traceRun, start?, h.parts, h.traceWalk_eq]

end Matches

end Picture

namespace Rows

/-- The rows, cut to the length of the first one. -/
def trim (rows : List (List Rgb)) : List (List Rgb) := rows.map (List.take (width rows))

private theorem width_trim (rows : List (List Rgb)) : width (trim rows) = width rows := by
  cases rows with
  | nil => rfl
  | cons first rest => simp [trim, width]

end Rows

namespace Canvas

private theorem matches_trim (rows : List (List Rgb)) :
    (ofRows rows).Matches (ofRows (Rows.trim rows)) := by
  have hlength : (Rows.trim rows).length = rows.length := List.length_map _
  refine ⟨(Rows.width_trim rows).symm, hlength.symm, ?_⟩
  intro p
  have hinside : (ofRows (Rows.trim rows)).Inside p ↔ (ofRows rows).Inside p := by
    rw [inside_ofRows, inside_ofRows, Rows.width_trim, hlength]
  by_cases hp : (ofRows rows).Inside p
  · obtain ⟨-, hx, -⟩ := inside_ofRows.mp hp
    rw [look_of_inside hp, look_of_inside (hinside.mpr hp), Rows.trim, List.getElem?_map]
    cases rows[p.2.toNat]? with
    | none => rfl
    | some row =>
      rw [Option.map_some, Option.bind_some, Option.bind_some, List.getElem?_take_of_lt hx]
  · rw [look, look, if_neg hp, if_neg fun h ↦ hp (hinside.mp h)]

end Canvas

namespace Picture

variable {rows : List (List Rgb)} {init : Picture}

/-- Rows are refused when a codel is missing, wherever the gap is found. -/
theorem exists_load_error_iff :
    (∃ p, load rows init = .error .short p) ↔ ¬(Canvas.ofRows rows).Full := by
  constructor
  · rintro ⟨p, hload⟩ hfull
    obtain ⟨part, hpart, -⟩ := Canvas.exists_scanned hfull
    simp [load, hpart] at hload
  · intro hgap
    cases hpart : (Canvas.ofRows rows).partition {} with
    | ok _ part => exact absurd (Canvas.full_of_partition hpart) hgap
    | error fault part =>
      cases fault
      exact ⟨⟨Canvas.ofRows rows, part⟩, by simp [load, hpart]⟩

private theorem exists_matches_of_full (h : (Canvas.ofRows rows).Full) (init' : Picture) :
    ∃ p q, load rows init = .ok () p ∧ load (Rows.trim rows) init' = .ok () q ∧ p.Matches q := by
  obtain ⟨part, hpart, -⟩ := Canvas.exists_scanned h
  have hmatch := Canvas.matches_trim rows
  have hpart' := hpart
  rw [hmatch.partition_eq] at hpart'
  exact ⟨⟨Canvas.ofRows rows, part⟩, ⟨Canvas.ofRows (Rows.trim rows), part⟩,
    by simp [load, hpart], by simp [load, hpart'], hmatch, rfl⟩

end Picture

/-- Rows are refused exactly when one of them is shorter than the first. All others give the picture
of the rows cut to the length of the first: it has the same width and height, the same blocks and
the same labels, and every run of it, traced or not, has the same result. -/
theorem ragged_rows_load_as_trimmed (rows : List (List Rgb)) (init init' : Picture) :
    ((∃ p, Picture.load rows init = .error .short p) ↔
      ∃ row ∈ rows, row.length < Rows.width rows) ∧
    ((∀ row ∈ rows, Rows.width rows ≤ row.length) →
      ∃ p q, Picture.load rows init = .ok () p ∧
        Picture.load (Rows.trim rows) init' = .ok () q ∧
        p.canvas.width = q.canvas.width ∧ p.canvas.height = q.canvas.height ∧
        p.parts.blocks = q.parts.blocks ∧ p.parts.labels = q.parts.labels ∧
        ∀ input limit, p.run input limit = q.run input limit ∧
          p.traceRun input limit = q.traceRun input limit) := by
  constructor
  · rw [Picture.exists_load_error_iff, Canvas.full_ofRows_iff]
    simp only [not_forall, Nat.not_le, exists_prop]
  · intro hlong
    obtain ⟨p, q, hload, hload', hmatch⟩ :=
      Picture.exists_matches_of_full (Canvas.full_ofRows_iff.mpr hlong) init'
    refine ⟨p, q, hload, hload', hmatch.canvas.width, hmatch.canvas.height, ?_, ?_, ?_⟩
    · rw [hmatch.parts]
    · rw [hmatch.parts]
    · exact fun input limit ↦ ⟨hmatch.run_eq input limit, hmatch.traceRun_eq input limit⟩

/-- The flood of a red block comes to a gap in its second row; and a green codel beyond the width
does not count, neither for the blocks nor for a run that bounces between them. -/
theorem ragged_rows_load_as_trimmed_both :
    let red : Rgb := ⟨0xFF, 0x00, 0x00⟩
    let green : Rgb := ⟨0x00, 0xFF, 0x00⟩
    let rows := [[red, green], [red, red, green]]
    (∃ p, Picture.load [[red, red], [red]] {} = .error .short p) ∧
    (∀ row ∈ rows, Rows.width rows ≤ row.length) ∧
    ∃ p q, Picture.load rows {} = .ok () p ∧
      Picture.load [[red, green], [red, red]] {} = .ok () q ∧
      p.canvas.width = q.canvas.width ∧ p.parts.blocks = q.parts.blocks ∧
      p.parts.labels = q.parts.labels ∧ p.run [] 50 = q.run [] 50 := by
  intro red green rows
  have hshort := (ragged_rows_load_as_trimmed [[red, red], [red]] {} {}).1.mpr (by decide)
  have hlong : ∀ row ∈ rows, Rows.width rows ≤ row.length := by decide
  obtain ⟨p, q, hload, hload', hwidth, -, hblocks, hlabels, hrun⟩ :=
    (ragged_rows_load_as_trimmed rows {} {}).2 hlong
  exact ⟨hshort, hlong, p, q, hload, hload', hwidth, hblocks, hlabels, (hrun [] 50).1⟩

end BrainPiet
