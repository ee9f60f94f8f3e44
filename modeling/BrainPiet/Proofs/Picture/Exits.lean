import BrainPiet.Proofs.Picture.Slide

/-!
# The eight exits of a block

A block has an exit for each direction and each side. A walk tries them one after the other: it
flips to the other side and turns to the next direction in alternation. Eight attempts lead through
all exits and back to the first heading. So the walk leaves by the first exit that is not black, and
if all are black it halts as it came.
-/

namespace BrainPiet

/-- A direction and a side. -/
abbrev Bearing := Direction × Side

namespace Adjustment

/-- The bearing after an adjustment. -/
def adjust : Adjustment → Bearing → Bearing
  | flip, (d, s) => (d, s.other)
  | turn, (d, s) => (d.next, s)

/-- The bearings of attempts with some adjustments between them. -/
def trail (b : Bearing) : List Adjustment → List Bearing
  | [] => []
  | a :: rest => b :: trail (a.adjust b) rest

private theorem apply_facing (a : Adjustment) (m : Machine) (b : Bearing) :
    a.apply (m.facing b.1 b.2) = m.facing (a.adjust b).1 (a.adjust b).2 := by
  cases a with
  | flip => exact apply_flip m b.1 b.2
  | turn => exact apply_turn m b.1 b.2

end Adjustment

/-- The bearings in the order in which a walk tries them. -/
def bearings (d : Direction) (s : Side) : List Bearing :=
  [(d, s), (d, s.other), (d.next, s.other), (d.next, s), (d.next.next, s), (d.next.next, s.other),
    (d.next.next.next, s.other), (d.next.next.next, s)]

private theorem trail_attempts (d : Direction) (s : Side) :
    Adjustment.trail (d, s) Adjustment.attempts = bearings d s := by
  cases s <;> rfl

private theorem mem_bearings (d : Direction) (s : Side) (b : Bearing) : b ∈ bearings d s := by
  obtain ⟨e, t⟩ := b
  cases d <;> cases s <;> cases e <;> cases t <;> decide

namespace Picture

/-- What happens behind an exit of a block of some shade and size: white is slid over, and between
two shades an operation is executed. -/
def beyond (p : Picture) (s : Shade) (size : Nat) (next : Pos) :
    EStateM WalkFault Machine Arrival := fun m ↦
  match p.canvas.look next with
  | some (.shade t) =>
    match Shade.between s t with
    | none => .ok ⟨some next, none⟩ m
    | some op =>
      match Machine.execute op size m with
      | .ok _ m => .ok ⟨some next, some op⟩ m
      | .error fault m => .error (.number fault) m
  | some .white =>
    match p.canvas.slide next m with
    | .ok pos m => .ok ⟨pos, none⟩ m
    | .error fault m => .error fault m
  | _ => .error .missing m

/-- The codel behind an exit is black, or lies outside. -/
def Blocked (p : Picture) (edge : Bearing → Pos) (b : Bearing) : Prop :=
  p.canvas.look ((edge b).toward b.1) = some .black

instance (p : Picture) (edge : Bearing → Pos) : DecidablePred (p.Blocked edge) :=
  fun _ ↦ inferInstanceAs (Decidable (_ = _))

variable {p : Picture} {view : Pos → Codel} {s : Shade} {block : List Pos} {pos next : Pos}
  {m m' : Machine} {edge : Bearing → Pos}

/-- The picture shows a codel where the view has it. -/
theorem Renders.look_iff (hr : p.Renders view) {q : Pos} {k : Codel} :
    p.canvas.look q = some k ↔ view q = k := by
  rw [hr.look, Option.some.injEq]

/-- The codels of the block at a position of a shade are a patch. -/
theorem Renders.exists_block (hr : p.Renders view) (hs : view pos = .shade s) :
    ∃ (id : Nat) (block : List Pos), p.parts.labels[pos]? = some id ∧
      p.parts.blocks[id]? = some block ∧ Patch view s block ∧
      ∀ q, q ∈ block ↔ p.canvas.Joined s pos q := by
  obtain ⟨id, block, hid, hblock, hnodup, hiff⟩ := hr.block pos s hs
  refine ⟨id, block, hid, hblock, ⟨?_, ?_, hnodup, pos, (hiff pos).mpr .refl, ?_⟩, hiff⟩
  · intro q hq
    exact hr.look_iff.mp (((hiff q).mp hq).look (hr.look_iff.mpr hs))
  · intro q hq d hd
    rw [hiff] at hq ⊢
    exact hq.tail ⟨hr.look_iff.mpr hd, d, rfl⟩
  · intro q hq
    have hjoin := (hiff q).mp hq
    clear hq
    induction hjoin with
    | refl => exact .refl
    | @tail a b hab hb ih => exact ih.tail ⟨(hiff b).mpr (hab.tail hb), hb.2⟩

/-- The codels that are joined to one are a patch. -/
theorem Renders.exists_patch (hr : p.Renders view) (hs : view pos = .shade s) :
    ∃ block, Patch view s block ∧ ∀ q, q ∈ block ↔ p.canvas.Joined s pos q := by
  obtain ⟨-, block, -, -, hpatch, hiff⟩ := hr.exists_block hs
  exact ⟨block, hpatch, hiff⟩

/-- A picture that was loaded renders what it shows. -/
theorem renders_of_load {rows : List (List Rgb)} {init : Picture}
    (h : load rows init = .ok () p) : ∃ view, p.Renders view := by
  have hfull := (whole_of_load h).full
  rw [canvas_of_load h] at hfull
  choose view hview using hfull
  obtain ⟨p', hload, hrenders⟩ := exists_load hview init
  rw [h] at hload
  cases hload
  exact ⟨view, hrenders⟩

/-- A step through an opening does what happens behind it. -/
theorem Renders.step_eq_beyond (hr : p.Renders view) (hb : Patch view s block) (hpos : pos ∈ block)
    (hopen : p.opening? block Adjustment.attempts m = some (next, m')) (hv : view next ≠ .black) :
    p.step pos m = p.beyond s block.length next m' := by
  obtain ⟨members, a, rest, e, d, hperm, rfl, hexit, hstep⟩ := hr.step_eq_opening hb hpos hopen
  rw [hstep, ← hperm.length_eq]
  simp only [leave, hexit, beyond, hr.look]
  cases hview : view (e.toward d) with
  | black => exact absurd hview hv
  | white => rfl
  | shade t => rfl

private theorem opening?_blocked (hedge : ∀ b : Bearing, Edge block b.1 b.2 (edge b)) {b : Bearing}
    (hb : p.Blocked edge b) (a : Adjustment) (rest : List Adjustment) (m : Machine) :
    p.opening? block (a :: rest) (m.facing b.1 b.2) =
      p.opening? block rest (m.facing (a.adjust b).1 (a.adjust b).2) := by
  have hlook : p.canvas.look ((edge b).toward b.1) = some .black := hb
  rw [← a.apply_facing]
  simp [opening?, exit?_eq_some (hedge b), hlook]

/-- Blocked exits are passed over until one is open. -/
theorem opening?_of_trail (hedge : ∀ b : Bearing, Edge block b.1 b.2 (edge b))
    {as : List Adjustment} {first b : Bearing} {before after : List Bearing}
    (htrail : Adjustment.trail first as = before ++ b :: after)
    (hbefore : ∀ x ∈ before, p.Blocked edge x) (hb : ¬p.Blocked edge b) (m : Machine) :
    p.opening? block as (m.facing first.1 first.2) =
      some ((edge b).toward b.1, m.facing b.1 b.2) := by
  induction as generalizing first before with
  | nil =>
    rw [Adjustment.trail] at htrail
    exact absurd htrail.symm (List.append_ne_nil_of_right_ne_nil _ (List.cons_ne_nil _ _))
  | cons a rest ih =>
    rw [Adjustment.trail] at htrail
    cases before with
    | nil =>
      obtain ⟨rfl, -⟩ := List.cons.inj htrail
      have hlook : p.canvas.look ((edge first).toward first.1) ≠ some .black := hb
      simp [opening?, exit?_eq_some (hedge first), hlook]
    | cons x before =>
      obtain ⟨rfl, hrest⟩ := List.cons.inj htrail
      rw [opening?_blocked hedge (hbefore first List.mem_cons_self)]
      exact ih hrest fun y hy ↦ hbefore y (List.mem_cons_of_mem _ hy)

/-- Where all exits are blocked there is no opening. -/
theorem opening?_eq_none (hedge : ∀ b : Bearing, Edge block b.1 b.2 (edge b))
    (hblocked : ∀ b, p.Blocked edge b) (as : List Adjustment) (first : Bearing) (m : Machine) :
    p.opening? block as (m.facing first.1 first.2) = none := by
  induction as generalizing first with
  | nil => rfl
  | cons a rest ih =>
    rw [opening?_blocked hedge (hblocked first)]
    exact ih _

private theorem exists_first_open {b : Bearing} (hb : ¬p.Blocked edge b) (d : Direction) (side : Side) :
    ∃ before b' after, bearings d side = before ++ b' :: after ∧
      (∀ x ∈ before, p.Blocked edge x) ∧ ¬p.Blocked edge b' := by
  have hfind : ((bearings d side).find? fun x ↦ !decide (p.Blocked edge x)).isSome = true := by
    rw [List.find?_isSome]
    exact ⟨b, mem_bearings d side b, by simpa using hb⟩
  obtain ⟨b', hb'⟩ := Option.isSome_iff_exists.mp hfind
  obtain ⟨hopen, before, after, hsplit, hbefore⟩ := List.find?_eq_some_iff_append.mp hb'
  refine ⟨before, b', after, hsplit, ?_, by simpa using hopen⟩
  intro x hx
  simpa using hbefore x hx

end Picture

private theorem Canvas.Joined.eq_of_alone {c : Canvas} {s : Shade} {pos q : Pos} (h : c.Joined s pos q)
    (halone : ∀ d, c.look (pos.toward d) ≠ some (.shade s)) : q = pos := by
  induction h with
  | refl => rfl
  | tail _ hlast ih =>
    subst ih
    obtain ⟨hlook, d, rfl⟩ := hlast
    exact absurd hlook (halone d)

/-- In a picture that was loaded, a block has one edge codel for each bearing. A walk with a sound
heading finds no opening exactly when the exits of all eight are blocked, and then it halts as it
came. Otherwise it leaves by the first exit in its order that is not blocked, with the heading of
that exit. -/
theorem step_tries_every_exit {rows : List (List Rgb)} {init picture : Picture}
    (hload : Picture.load rows init = .ok () picture) {pos : Pos} {s : Shade}
    (hpos : picture.canvas.look pos = some (.shade s)) :
    ∃ (block : List Pos) (edge : Bearing → Pos),
      block.Nodup ∧ (∀ q, q ∈ block ↔ picture.canvas.Joined s pos q) ∧
      (∀ b : Bearing, Edge block b.1 b.2 (edge b)) ∧
      ∀ (m : Machine) (d : Direction) (side : Side),
        (picture.doorway? pos (m.facing d side) = none ↔ ∀ b, picture.Blocked edge b) ∧
        ((∀ b, picture.Blocked edge b) →
          picture.step pos (m.facing d side) = .ok ⟨none, none⟩ (m.facing d side)) ∧
        ((¬∀ b, picture.Blocked edge b) →
          ∃ before b after, bearings d side = before ++ b :: after ∧
            (∀ x ∈ before, picture.Blocked edge x) ∧ ¬picture.Blocked edge b ∧
            picture.doorway? pos (m.facing d side) =
              some ((edge b).toward b.1, m.facing b.1 b.2) ∧
            picture.step pos (m.facing d side) =
              picture.beyond s block.length ((edge b).toward b.1) (m.facing b.1 b.2)) := by
  obtain ⟨view, hrenders⟩ := Picture.renders_of_load hload
  obtain ⟨block, hpatch, hblock⟩ := hrenders.exists_patch (hrenders.look_iff.mp hpos)
  have hin : pos ∈ block := (hblock pos).mpr .refl
  have hne : block ≠ [] := List.ne_nil_of_mem hin
  choose edge hedge using fun b : Bearing ↦ exists_edge b.1 b.2 hne
  refine ⟨block, edge, hpatch.nodup, hblock, hedge, ?_⟩
  intro m d side
  have hdoor := hrenders.doorway?_eq hpatch hin (m.facing d side)
  have hleave (hopen : ¬∀ b, picture.Blocked edge b) :
      ∃ before b after, bearings d side = before ++ b :: after ∧
        (∀ x ∈ before, picture.Blocked edge x) ∧ ¬picture.Blocked edge b ∧
        picture.opening? block Adjustment.attempts (m.facing d side) =
          some ((edge b).toward b.1, m.facing b.1 b.2) := by
    obtain ⟨b₀, hb₀⟩ := not_forall.mp hopen
    obtain ⟨before, b, after, hsplit, hbefore, hb⟩ := Picture.exists_first_open hb₀ d side
    have htrail := (trail_attempts d side).trans hsplit
    exact ⟨before, b, after, hsplit, hbefore, hb,
      Picture.opening?_of_trail hedge htrail hbefore hb m⟩
  refine ⟨⟨?_, ?_⟩, ?_, ?_⟩
  · intro hnone
    by_contra hopen
    obtain ⟨-, b, -, -, -, -, hsome⟩ := hleave hopen
    rw [hdoor, hsome] at hnone
    cases hnone
  · intro hall
    rw [hdoor]
    exact Picture.opening?_eq_none hedge hall Adjustment.attempts (d, side) m
  · intro hall
    refine hrenders.step_halt hpatch hin (fun d side ↦ hedge (d, side)) ?_ m d side
    intro d side
    exact hrenders.look_iff.mp (hall (d, side))
  · intro hopen
    obtain ⟨before, b, after, hsplit, hbefore, hb, hsome⟩ := hleave hopen
    refine ⟨before, b, after, hsplit, hbefore, hb, hdoor.trans hsome,
      hrenders.step_eq_beyond hpatch hin hsome ?_⟩
    intro hblack
    exact hb (hrenders.look_iff.mpr hblack)

/-- A red codel over a green one with black beside them, which is left downwards at the third
attempt; and a blue codel between black ones and the border, which is not left. -/
theorem step_tries_every_exit_corner :
    ∃ picture, Picture.load [[⟨0xFF, 0x00, 0x00⟩, .black, ⟨0x00, 0x00, 0xFF⟩],
        [⟨0x00, 0xFF, 0x00⟩, .black, .black]] {} = .ok () picture ∧
      picture.canvas.look (0, 0) = some (.shade ⟨0, 1⟩) ∧
      picture.canvas.look (2, 0) = some (.shade ⟨4, 1⟩) ∧
      picture.step (0, 0) {} =
        .ok ⟨some (0, 1), some .div⟩ (({} : Machine).facing .down .right) ∧
      picture.step (2, 0) {} = .ok ⟨none, none⟩ {} := by
  have hrows : Rows.Rectangular [[⟨0xFF, 0x00, 0x00⟩, .black, ⟨0x00, 0x00, 0xFF⟩],
    [⟨0x00, 0xFF, 0x00⟩, .black, .black]] := ⟨3, by decide⟩
  obtain ⟨picture, hload, -⟩ := Picture.exists_renders hrows {}
  have hcanvas := Picture.canvas_of_load hload
  have hred : picture.canvas.look (0, 0) = some (.shade ⟨0, 1⟩) := by
    rw [hcanvas]
    decide
  have hblue : picture.canvas.look (2, 0) = some (.shade ⟨4, 1⟩) := by
    rw [hcanvas]
    decide
  have hredAlone (d : Direction) :
      picture.canvas.look (Pos.toward (0, 0) d) ≠ some (.shade ⟨0, 1⟩) := by
    rw [hcanvas]
    cases d <;> decide
  have hblueAlone (d : Direction) : picture.canvas.look (Pos.toward (2, 0) d) = some .black := by
    rw [hcanvas]
    cases d <;> decide
  refine ⟨picture, hload, hred, hblue, ?_, ?_⟩
  · obtain ⟨block, edge, -, hblock, hedge, hstep⟩ := step_tries_every_exit hload hred
    have hexit (b : Bearing) : edge b = (0, 0) :=
      ((hblock _).mp (hedge b).1).eq_of_alone hredAlone
    have hright (side : Side) : picture.Blocked edge (.right, side) := by
      rw [Picture.Blocked, hexit, hcanvas]
      rfl
    have hdown : ¬picture.Blocked edge (.down, .right) := by
      rw [Picture.Blocked, hexit, hcanvas]
      decide
    obtain ⟨before, b, after, hsplit, hbefore, hb, -, heq⟩ :=
      (hstep {} .right .left).2.2 fun hall ↦ hdown (hall _)
    have hfirst : b = (.down, .right) := by
      rcases before with _ | ⟨x, _ | ⟨y, _ | ⟨z, before⟩⟩⟩ <;>
        simp only [bearings, List.nil_append, List.cons_append, List.cons.injEq] at hsplit
      · rw [← hsplit.1] at hb
        exact absurd (hright .left) hb
      · rw [← hsplit.2.1] at hb
        exact absurd (hright .right) hb
      · exact hsplit.2.2.1.symm
      · exact absurd (hbefore z (.tail _ (.tail _ (.head _)))) (hsplit.2.2.1 ▸ hdown)
    rw [hfirst, hexit, Picture.beyond, hcanvas] at heq
    exact heq
  · obtain ⟨block, edge, -, hblock, hedge, hstep⟩ := step_tries_every_exit hload hblue
    refine (hstep {} .right .left).2.1 fun b ↦ ?_
    have halone (d : Direction) :
        picture.canvas.look (Pos.toward (2, 0) d) ≠ some (.shade ⟨4, 1⟩) := by
      rw [hblueAlone]
      decide
    have hexit : edge b = (2, 0) := ((hblock _).mp (hedge b).1).eq_of_alone halone
    rw [Picture.Blocked, hexit, hblueAlone]

end BrainPiet
