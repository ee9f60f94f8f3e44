import BrainPiet.Proofs.Picture.Exits
import BrainPiet.Proofs.Shade

/-!
# Straight moves

A walk leaves its block by the one codel that lies farthest along its direction and, of those as far,
farthest to its side. What lies past that codel is not in the block, and a block takes in every
neighbour of its shade. So a walk that comes straight to a codel of a shade has come to another shade,
and exactly one operation is written between the two. Nothing is executed only where the walk slides
over white or halts.
-/

namespace BrainPiet

private theorem Canvas.inPalette_of_look {rows : List (List Rgb)} {p : Pos} {s : Shade}
    (h : (ofRows rows).look p = some (.shade s)) : s.InPalette := by
  rw [look] at h
  split at h
  · obtain ⟨row, hrow, hcodel⟩ := Option.bind_eq_some_iff.mp h
    simp only [ofRows, List.getElem?_toArray, List.getElem?_map, Option.map_eq_some_iff] at hrow
    obtain ⟨colours, -, rfl⟩ := hrow
    rw [List.getElem?_toArray, List.getElem?_map, Option.map_eq_some_iff] at hcodel
    obtain ⟨k, -, hk⟩ := hcodel
    exact Shade.inPalette_of_ofColour? (Codel.ofColour_eq_shade.mp hk)
  · cases h

namespace Pos

/-- How far a position lies to a side of a direction. Rows are counted downwards, so what is left of
the step `(dx, dy)` is `(dy, -dx)`. -/
def beside (p : Pos) (d : Direction) : Side → Int
  | .left => p.1 * d.dy - p.2 * d.dx
  | .right => p.2 * d.dx - p.1 * d.dy

private theorem along_of (p : Pos) (d : Direction) (s : Side) : p.along (s.of d) = p.beside d s := by
  cases d <;> cases s <;>
    simp [along, beside, Side.of, Direction.next, Direction.dx, Direction.dy]

private theorem along_toward (p : Pos) (d : Direction) : (p.toward d).along d = p.along d + 1 := by
  cases d <;> simp only [along, toward, Direction.dx, Direction.dy] <;> omega

end Pos

/-- The codel of a block that lies farthest along a direction and, of those as far along, farthest to
a side. -/
def Farthest (block : List Pos) (d : Direction) (s : Side) (e : Pos) : Prop :=
  e ∈ block ∧ (∀ q ∈ block, q.along d ≤ e.along d) ∧
    ∀ q ∈ block, q.along d = e.along d → q.beside d s ≤ e.beside d s

instance (block : List Pos) (d : Direction) (s : Side) (e : Pos) :
    Decidable (Farthest block d s e) := inferInstanceAs (Decidable (_ ∧ _))

variable {block : List Pos} {d : Direction} {side : Side} {e : Pos}

/-- What lies farthest exceeds all others. -/
theorem edge_iff_farthest : Edge block d side e ↔ Farthest block d side e := by
  constructor
  · rintro ⟨hmem, hall⟩
    have hcase (q : Pos) (hq : q ∈ block) : q.along d < e.along d ∨
        q.along d = e.along d ∧ q.beside d side ≤ e.beside d side := by
      rcases hall q hq with rfl | hgt
      · exact .inr ⟨rfl, Int.le_refl _⟩
      · rw [Pos.exceeds_iff, Pos.along_of, Pos.along_of] at hgt
        omega
    refine ⟨hmem, fun q hq ↦ ?_, fun q hq heq ↦ ?_⟩
    · have := hcase q hq
      omega
    · have := hcase q hq
      omega
  · rintro ⟨hmem, hfar, hside⟩
    refine ⟨hmem, fun q hq ↦ ?_⟩
    by_cases hqe : q = e
    · exact .inl hqe
    · rcases Pos.exceeds_total d side hqe with hgt | hgt
      · -- nothing exceeds the codel that lies farthest
        rw [Pos.exceeds_iff, Pos.along_of, Pos.along_of] at hgt
        have hle := hfar q hq
        have hle' := hside q hq
        omega
      · exact .inr hgt

private theorem edgeCodel?_eq_some_iff : edgeCodel? block d side = some e ↔ Farthest block d side e := by
  rw [← edge_iff_farthest]
  refine ⟨fun h ↦ ?_, edgeCodel?_eq_some⟩
  have hne : block ≠ [] := by
    rintro rfl
    cases h
  obtain ⟨e', he'⟩ := exists_edge d side hne
  rw [edgeCodel?_eq_some he', Option.some.injEq] at h
  exact h ▸ he'

private theorem Farthest.toward_not_mem (h : Farthest block d side e) : e.toward d ∉ block := by
  intro hmem
  have := h.2.1 _ hmem
  rw [Pos.along_toward] at this
  omega

/-- An exit leads past the codel that lies farthest. -/
theorem farthest_of_exit? {p : Pointer} {c : Chooser} (h : exit? block p c = some (e, d)) :
    p.direction? = some d ∧ Farthest block d c.side e := by
  obtain ⟨d', hd, h⟩ := Option.bind_eq_some_iff.mp h
  obtain ⟨e', he, h⟩ := Option.bind_eq_some_iff.mp h
  cases h
  exact ⟨hd, edgeCodel?_eq_some_iff.mp he⟩

private theorem Patch.ne_of_farthest {view : Pos → Codel} {s t : Shade} (hb : Patch view s block)
    (he : Farthest block d side e) (ht : view (e.toward d) = .shade t) : t ≠ s := by
  rintro rfl
  exact he.toward_not_mem (hb.closed e he.1 d ht)

namespace Picture

variable {p : Picture} {view : Pos → Codel} {s t : Shade} {pos next : Pos} {m m' : Machine}
  {as : List Adjustment}

private theorem opening?_heading (h : p.opening? block as m = some (next, m')) :
    m' = { m with pointer := m'.pointer, chooser := m'.chooser } ∧
      p.canvas.look next ≠ some .black := by
  induction as generalizing m with
  | nil => cases h
  | cons a rest ih =>
    rw [opening?] at h
    cases hexit : exit? block m.pointer m.chooser with
    | none =>
      rw [hexit] at h
      cases h
    | some found =>
      rw [hexit, Option.bind_some] at h
      dsimp only at h
      split at h
      · obtain ⟨hm, hblack⟩ := ih h
        refine ⟨?_, hblack⟩
        rw [hm]
        cases a <;> rfl
      · next hblack =>
        cases h
        exact ⟨rfl, hblack⟩

private theorem eq_of_leave_of_none (hopen : p.opening? block as m = none) {arrival : Arrival}
    (h : p.leave block s as m = .ok arrival m') : arrival = ⟨none, none⟩ := by
  induction as generalizing m with
  | nil =>
    cases h
    rfl
  | cons a rest ih =>
    rw [opening?] at hopen
    rw [leave] at h
    cases hexit : exit? block m.pointer m.chooser with
    | none =>
      rw [hexit] at h
      cases h
    | some found =>
      rw [hexit, Option.bind_some] at hopen
      rw [hexit] at h
      dsimp only at hopen h
      split at hopen
      · next hblack =>
        rw [hblack] at h
        exact ih hopen h
      · cases hopen

/-- Blocks that do not share a codel have different numbers. -/
theorem Renders.exists_label_ne (hr : p.Renders view) {id : Nat}
    (hblock : p.parts.blocks[id]? = some block) (hout : next ∉ block) (ht : view next = .shade t) :
    ∃ id', p.parts.labels[next]? = some id' ∧ id' ≠ id := by
  obtain ⟨id', other, hid', hother, -, hiff⟩ := hr.block next t ht
  refine ⟨id', hid', ?_⟩
  rintro rfl
  rw [hother, Option.some.injEq] at hblock
  exact hout (hblock ▸ (hiff next).mpr .refl)

/-- A walk that leaves its block without an operation has halted or slid over white, if an operation
stands between its shade and each of those that it may come to. -/
theorem Renders.halted_or_slid (hr : p.Renders view) (hb : Patch view s block) (hpos : pos ∈ block)
    (hop : ∀ next m₁ t, p.doorway? pos m = some (next, m₁) → view next = .shade t →
      Shade.between s t ≠ none) {found : Option Pos}
    (h : p.step pos m = .ok ⟨found, none⟩ m') :
    (found = none ∧ p.doorway? pos m = none) ∨
      ∃ next m₁, p.doorway? pos m = some (next, m₁) ∧ p.canvas.look next = some .white ∧
        p.canvas.slide next m₁ = .ok found m' := by
  rw [hr.doorway?_eq hb hpos] at hop ⊢
  cases hopen : p.opening? block Adjustment.attempts m with
  | none =>
    obtain ⟨members, hperm, hstep⟩ := hr.step_eq_leave hb hpos m
    rw [← opening?_perm hperm] at hopen
    rw [hstep] at h
    have := eq_of_leave_of_none hopen h
    cases this
    exact .inl ⟨rfl, rfl⟩
  | some opening =>
    obtain ⟨next, m₁⟩ := opening
    have hblack := (opening?_heading hopen).2
    rw [hr.look, ne_eq, Option.some.injEq] at hblack
    rw [hr.step_eq_beyond hb hpos hopen hblack, beyond, hr.look] at h
    refine .inr ⟨next, m₁, rfl, ?_⟩
    rw [hr.look_iff]
    cases hview : view next with
    | black => exact absurd hview hblack
    | white =>
      rw [hview] at h
      dsimp only at h
      split at h
      · next found' m₂ hslide =>
        cases h
        exact ⟨rfl, hslide⟩
      · cases h
    | shade t =>
      rw [hview] at h
      dsimp only at h
      split at h
      · next hnone => exact absurd hnone (hop next m₁ t hopen hview)
      · split at h
        · cases h
        · cases h

end Picture

/-- In a picture that was loaded, a block has one codel for each bearing that lies farthest, and the
block is left by this one in whatever order its codels are listed. A walk with any heading that comes
straight to a codel of a shade has come to another block and another shade. The one operation whose
step leads from shade to shade is then executed with the number of codels of the block that was left.
No operation is returned only where the walk halted or slid over white. -/
theorem straight_move_executes_once {rows : List (List Rgb)} {init picture : Picture}
    (hload : Picture.load rows init = .ok () picture) {pos : Pos} {s : Shade}
    (hpos : picture.canvas.look pos = some (.shade s)) :
    ∃ (id : Nat) (block : List Pos), picture.parts.labels[pos]? = some id ∧
      picture.parts.blocks[id]? = some block ∧ block.Nodup ∧
      (∀ q, q ∈ block ↔ picture.canvas.Joined s pos q) ∧
      (∀ other, other.Perm block → ∀ d side, ∃ e, edgeCodel? other d side = some e ∧
        ∀ q, Farthest block d side q ↔ q = e) ∧
      ∀ m : Machine,
        (∀ next m', picture.doorway? pos m = some (next, m') →
          m' = { m with pointer := m'.pointer, chooser := m'.chooser } ∧
          (∃ d e, m'.pointer.direction? = some d ∧ Farthest block d m'.chooser.side e ∧
            next = e.toward d) ∧
          ∀ t, picture.canvas.look next = some (.shade t) →
            t ≠ s ∧ (∃ id', picture.parts.labels[next]? = some id' ∧ id' ≠ id) ∧
            ∃ op : Operation, op.delta =
                ((t.hue - s.hue) % Shade.hues, (t.lightness - s.lightness) % Shade.levels) ∧
              (∀ m'', Machine.execute op block.length m' = .ok () m'' →
                picture.step pos m = .ok ⟨some next, some op⟩ m'') ∧
              ∀ fault m'', Machine.execute op block.length m' = .error fault m'' →
                picture.step pos m = .error (.number fault) m'') ∧
        ∀ found m', picture.step pos m = .ok ⟨found, none⟩ m' →
          (found = none ∧ picture.doorway? pos m = none) ∨
          ∃ next m₁, picture.doorway? pos m = some (next, m₁) ∧
            picture.canvas.look next = some .white ∧
            picture.canvas.slide next m₁ = .ok found m' := by
  obtain ⟨view, hr⟩ := Picture.renders_of_load hload
  obtain ⟨id, block, hid, hblock, hpatch, hiff⟩ := hr.exists_block (hr.look_iff.mp hpos)
  have hin : pos ∈ block := (hiff pos).mpr .refl
  have hpalette {q : Pos} {t : Shade} (hq : picture.canvas.look q = some (.shade t)) :
      t.InPalette := by
    rw [Picture.canvas_of_load hload] at hq
    exact Canvas.inPalette_of_look hq
  have hdoor (m : Machine) := hr.doorway?_eq hpatch hin m
  refine ⟨id, block, hid, hblock, hpatch.nodup, hiff, ?_, ?_⟩
  · intro other hperm d side
    obtain ⟨e, he⟩ := exists_edge d side (List.ne_nil_of_mem hin)
    refine ⟨e, edgeCodel?_eq_some (he.perm hperm), fun q ↦ ?_⟩
    rw [← edgeCodel?_eq_some_iff, edgeCodel?_eq_some he, Option.some.injEq, eq_comm]
  · intro m
    -- past the edge of the block there is another shade, and an operation between the two
    have hstraight {next : Pos} {m' : Machine}
        (hopen : picture.opening? block Adjustment.attempts m = some (next, m')) {t : Shade}
        (ht : picture.canvas.look next = some (.shade t)) :
        t ≠ s ∧ next ∉ block ∧ ∃ op : Operation, op.delta =
            ((t.hue - s.hue) % Shade.hues, (t.lightness - s.lightness) % Shade.levels) ∧
          Shade.between s t = some op := by
      obtain ⟨-, -, e, d, hexit, rfl, -⟩ := Picture.leave_of_opening (s := s) hopen
      have hfar := (farthest_of_exit? hexit).2
      have hne := hpatch.ne_of_farthest hfar (hr.look_iff.mp ht)
      exact ⟨hne, hfar.toward_not_mem, Shade.exists_between (hpalette hpos) (hpalette ht) hne⟩
    refine ⟨?_, ?_⟩
    · intro next m' hopen
      rw [hdoor] at hopen
      obtain ⟨-, -, e, d, hexit, hnext, -⟩ := Picture.leave_of_opening (s := s) hopen
      obtain ⟨hd, hfar⟩ := farthest_of_exit? hexit
      refine ⟨(Picture.opening?_heading hopen).1, ⟨d, e, hd, hfar, hnext⟩, fun t ht ↦ ?_⟩
      obtain ⟨hne, hout, op, hdelta, hop⟩ := hstraight hopen ht
      have hview := hr.look_iff.mp ht
      exact ⟨hne, hr.exists_label_ne hblock hout hview, op, hdelta,
        fun m'' hex ↦ hr.step_shade hpatch hin hopen hview hop hex,
        fun fault m'' hex ↦ hr.step_fault hpatch hin hopen hview hop hex⟩
    · intro found m' hstep
      refine hr.halted_or_slid hpatch hin ?_ hstep
      intro next m₁ t hopen ht hnone
      rw [hdoor] at hopen
      obtain ⟨-, -, op, -, hop⟩ := hstraight hopen (hr.look_iff.mpr ht)
      rw [hnone] at hop
      cases hop

/-- A red cup around a green codel, with dark red past its right rim: the walk goes straight from one
rim of the cup to the dark red codel, and the five codels of the cup are pushed. -/
theorem straight_move_executes_once_cup :
    ∃ picture, Picture.load [[⟨0xFF, 0x00, 0x00⟩, ⟨0x00, 0xFF, 0x00⟩, ⟨0xFF, 0x00, 0x00⟩,
        ⟨0xC0, 0x00, 0x00⟩], [⟨0xFF, 0x00, 0x00⟩, ⟨0xFF, 0x00, 0x00⟩, ⟨0xFF, 0x00, 0x00⟩, .white]] {} =
          .ok () picture ∧
      picture.canvas.look (0, 0) = some (.shade ⟨0, 1⟩) ∧
      picture.doorway? (0, 0) {} = some ((3, 0), {}) ∧
      picture.canvas.look (3, 0) = some (.shade ⟨0, 2⟩) ∧
      picture.step (0, 0) {} = .ok ⟨some (3, 0), some .push⟩ { stack := [5] } := by
  have hrows : Rows.Rectangular [[⟨0xFF, 0x00, 0x00⟩, ⟨0x00, 0xFF, 0x00⟩, ⟨0xFF, 0x00, 0x00⟩,
      ⟨0xC0, 0x00, 0x00⟩], [⟨0xFF, 0x00, 0x00⟩, ⟨0xFF, 0x00, 0x00⟩, ⟨0xFF, 0x00, 0x00⟩, .white]] :=
    ⟨4, by decide⟩
  obtain ⟨picture, hload, -⟩ := Picture.exists_renders hrows {}
  have hcanvas := Picture.canvas_of_load hload
  have hred : picture.canvas.look (0, 0) = some (.shade ⟨0, 1⟩) := by
    rw [hcanvas]
    decide
  have hdark : picture.canvas.look (3, 0) = some (.shade ⟨0, 2⟩) := by
    rw [hcanvas]
    decide
  obtain ⟨id, block, hid, hblock, hnodup, hiff, -, hwalk⟩ := straight_move_executes_once hload hred
  let cup : List Pos := [(0, 0), (0, 1), (1, 1), (2, 1), (2, 0)]
  have hcup (q : Pos) : q ∈ block ↔ q ∈ cup := by
    rw [hiff]
    constructor
    · intro hjoin
      have hclosed : ∀ a ∈ cup, ∀ d ∈ Direction.all,
          picture.canvas.look (a.toward d) = some (.shade ⟨0, 1⟩) → a.toward d ∈ cup := by
        rw [hcanvas]
        decide
      induction hjoin with
      | refl => exact List.mem_cons_self
      | tail _ hlast ih =>
        obtain ⟨hlook, d, rfl⟩ := hlast
        exact hclosed _ ih d (by cases d <;> decide) hlook
    · intro hq
      have hlook : ∀ a ∈ cup, picture.canvas.look a = some (.shade ⟨0, 1⟩) := by
        rw [hcanvas]
        decide
      -- down the left side, along the bottom and up the right side
      have h₁ : picture.canvas.Joined ⟨0, 1⟩ (0, 0) (0, 1) :=
        .single ⟨hlook _ (by decide), .down, rfl⟩
      have h₂ := h₁.tail ⟨hlook (1, 1) (by decide), .right, rfl⟩
      have h₃ := h₂.tail ⟨hlook (2, 1) (by decide), .right, rfl⟩
      have h₄ := h₃.tail ⟨hlook (2, 0) (by decide), .up, rfl⟩
      simp only [cup, List.mem_cons, List.not_mem_nil, or_false] at hq
      rcases hq with rfl | rfl | rfl | rfl | rfl
      · exact .refl
      · exact h₁
      · exact h₂
      · exact h₃
      · exact h₄
  have hlength : block.length = 5 :=
    ((List.perm_ext_iff_of_nodup hnodup (by decide)).mpr hcup).length_eq
  have hfar : Farthest block .right .left (2, 0) := by
    have hfar : Farthest cup .right .left (2, 0) := by decide
    exact ⟨(hcup _).mpr hfar.1, fun q hq ↦ hfar.2.1 q ((hcup q).mp hq),
      fun q hq ↦ hfar.2.2 q ((hcup q).mp hq)⟩
  have hdoor : picture.doorway? (0, 0) {} = some ((3, 0), {}) := by
    have hexit : exit? block (Pointer.mk 0) (Chooser.mk 0) = some ((2, 0), .right) :=
      exit?_eq_some (d := .right) (s := .left) (edge_iff_farthest.mpr hfar)
    rw [Picture.doorway?, hid, Option.bind_some, hblock, Option.bind_some, Adjustment.attempts,
      Picture.opening?, hexit, Option.bind_some]
    exact if_neg (by rw [hcanvas]; decide)
  obtain ⟨-, -, hstraight⟩ := (hwalk {}).1 _ _ hdoor
  obtain ⟨-, -, op, hdelta, hok, -⟩ := hstraight _ hdark
  obtain rfl : op = .push := by
    cases op <;> first | rfl | cases hdelta
  rw [hlength] at hok
  exact ⟨picture, hload, hred, hdoor, hdark, hok _ rfl⟩

end BrainPiet
