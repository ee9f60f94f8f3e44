import BrainPiet.Proofs.Picture.Scan
import BrainPiet.Proofs.Picture.Glide

/-!
# Steps of a walk

A picture renders a view when each position shows the codel of the view and the blocks are the
components of the view. A step of the walk then depends on the view alone: the walk leaves its block
by the first opening, and what lies behind the opening decides where it goes.
-/

namespace BrainPiet

/-- Codels of a block that can be reached from one another inside of it. -/
def Linked (block : List Pos) : Pos → Pos → Prop :=
  Relation.ReflTransGen fun p q ↦ q ∈ block ∧ ∃ d, q = p.toward d

/-- A block of one shade that no neighbour of the same shade extends. -/
structure Patch (view : Pos → Codel) (s : Shade) (block : List Pos) : Prop where
  shade : ∀ q ∈ block, view q = .shade s
  closed : ∀ q ∈ block, ∀ d, view (q.toward d) = .shade s → q.toward d ∈ block
  nodup : block.Nodup
  linked : ∃ root ∈ block, ∀ q ∈ block, Linked block root q

namespace Codel

variable {k : Codel} {s t : Shade}

theorem ne_shade_of_black (h : k = .black) : k ≠ .shade s := by
  rw [h]
  exact Codel.noConfusion

theorem ne_shade_of_white (h : k = .white) : k ≠ .shade s := by
  rw [h]
  exact Codel.noConfusion

theorem ne_shade_of_ne (h : k = .shade t) (hne : t ≠ s) : k ≠ .shade s := by
  rw [h]
  exact fun heq ↦ hne (Codel.shade.inj heq)

end Codel

namespace Picture

/-- The picture shows a view, and its blocks are the components of that view. -/
structure Renders (p : Picture) (view : Pos → Codel) : Prop where
  look : ∀ q, p.canvas.look q = some (view q)
  block : ∀ q s, view q = .shade s → ∃ id members, p.parts.labels[q]? = some id ∧
    p.parts.blocks[id]? = some members ∧ members.Nodup ∧
      ∀ r, r ∈ members ↔ p.canvas.Joined s q r

/-- A picture that was loaded without missing codels renders what it shows. -/
theorem exists_load {rows : List (List Rgb)} {view : Pos → Codel}
    (h : ∀ q, (Canvas.ofRows rows).look q = some (view q)) (init : Picture) :
    ∃ p, load rows init = .ok () p ∧ p.Renders view := by
  obtain ⟨part, hpart, hdiv, hall⟩ :=
    Canvas.partition_spec (c := Canvas.ofRows rows) fun q ↦ ⟨view q, h q⟩
  refine ⟨⟨Canvas.ofRows rows, part⟩, by simp [load, hpart], h, ?_⟩
  intro q s hq
  have hlook : (Canvas.ofRows rows).look q = some (.shade s) := (h q).trans (congrArg some hq)
  obtain ⟨id, hid⟩ := Option.ne_none_iff_exists'.mp (hall q s hlook)
  obtain ⟨members, hmem, hin⟩ := (hdiv.label q id).mp hid
  obtain ⟨t, root, hroot, hiff⟩ := hdiv.component id members hmem
  have hjoin := (hiff q).mp hin
  have hst : s = t := by
    have := hjoin.look hroot
    rw [hlook] at this
    cases this
    rfl
  subst hst
  refine ⟨id, members, hid, hmem, hdiv.nodup id members hmem, ?_⟩
  intro r
  rw [hiff]
  exact ⟨fun hr ↦ (hjoin.symm hroot).trans hr, fun hr ↦ hjoin.trans hr⟩

variable {p : Picture} {view : Pos → Codel} {s t : Shade} {block : List Pos} {pos next : Pos}
  {m m' : Machine}

/-- A walk starts in the corner, if that is in a block. -/
theorem start?_of_block {id : Nat} (hid : p.parts.labels[((0, 0) : Pos)]? = some id)
    (hblock : p.parts.blocks[id]? = some block) : p.start? = some (0, 0) := by
  have hlabel : p.parts.labels.contains (0, 0) = true := by
    rw [Std.HashMap.contains_eq_isSome_getElem?, hid]
    rfl
  have hne : p.parts.blocks.isEmpty = false := by
    rw [Array.isEmpty_eq_false_iff]
    intro hempty
    rw [hempty] at hblock
    cases hblock
  rw [start?, hlabel, hne]
  rfl

/-- A walk starts in the corner where that shows a shade. -/
theorem Renders.start?_eq (hr : p.Renders view) (hs : view (0, 0) = .shade s) :
    p.start? = some (0, 0) := by
  obtain ⟨id, members, hid, hblock, -⟩ := hr.block (0, 0) s hs
  exact start?_of_block hid hblock

/-- The codels of a patch are a block of the picture. -/
theorem Renders.members (hr : p.Renders view) (hb : Patch view s block) (hpos : pos ∈ block) :
    ∃ id members, p.parts.labels[pos]? = some id ∧ p.parts.blocks[id]? = some members ∧
      members.Perm block := by
  obtain ⟨id, members, hid, hmem, hnodup, hiff⟩ := hr.block pos s (hb.shade pos hpos)
  refine ⟨id, members, hid, hmem, (List.perm_ext_iff_of_nodup hnodup hb.nodup).mpr ?_⟩
  have hlook (q : Pos) (hq : q ∈ block) : p.canvas.look q = some (.shade s) :=
    (hr.look q).trans (congrArg some (hb.shade q hq))
  obtain ⟨root, hroot, hlink⟩ := hb.linked
  have hjoin (q : Pos) (hq : q ∈ block) : p.canvas.Joined s root q :=
    Relation.ReflTransGen.mono (fun _ b hab ↦ ⟨hlook b hab.1, hab.2⟩) _ _ (hlink q hq)
  intro q
  rw [hiff]
  constructor
  · intro hq
    induction hq with
    | refl => exact hpos
    | @tail a b _ hb' ih =>
      obtain ⟨hsh, d, rfl⟩ := hb'
      rw [hr.look, Option.some.injEq] at hsh
      exact hb.closed a ih d hsh
  · intro hq
    exact ((hjoin pos hpos).symm (hlook root hroot)).trans (hjoin q hq)

/-- The codel behind the first edge that is not blocked by black, and the machine by then. -/
def opening? (p : Picture) (block : List Pos) :
    List Adjustment → Machine → Option (Pos × Machine)
  | [], _ => none
  | a :: rest, m =>
    (exit? block m.pointer m.chooser).bind fun (edge, d) ↦
      if p.canvas.look (edge.toward d) = some .black then p.opening? block rest (a.apply m)
      else some (edge.toward d, m)

/-- The opening by which the walk leaves the block at a position. -/
def doorway? (p : Picture) (pos : Pos) (m : Machine) : Option (Pos × Machine) :=
  p.parts.labels[pos]?.bind fun id ↦
    p.parts.blocks[id]?.bind fun block ↦ p.opening? block Adjustment.attempts m

/-- The walk slides over a codel in its next step. -/
def Crosses (p : Picture) (pos : Pos) (m : Machine) (q : Pos) : Prop :=
  ∃ next m' g, p.doorway? pos m = some (next, m') ∧ p.canvas.look next = some .white ∧
    p.canvas.Glides ⟨next, m'.pointer, m'.chooser⟩ g ∧ g.pos = q

/-- The order of a block does not matter for its openings. -/
theorem opening?_perm {other : List Pos} (h : other.Perm block) (as : List Adjustment)
    (m : Machine) : p.opening? other as m = p.opening? block as m := by
  induction as generalizing m with
  | nil => rfl
  | cons a rest ih => simp only [opening?, exit?_perm h, ih]

/-- The doorway of a walk in a patch. -/
theorem Renders.doorway?_eq (hr : p.Renders view) (hb : Patch view s block) (hpos : pos ∈ block)
    (m : Machine) : p.doorway? pos m = p.opening? block Adjustment.attempts m := by
  obtain ⟨id, members, hid, hmem, hperm⟩ := hr.members hb hpos
  rw [doorway?, hid, Option.bind_some, hmem, Option.bind_some, opening?_perm hperm]

/-- Black past the edge calls for another attempt. -/
theorem Renders.opening?_black (hr : p.Renders view) {d : Direction} {side : Side} {e : Pos}
    (he : Edge block d side e) (hv : view (e.toward d) = .black) (a : Adjustment)
    (rest : List Adjustment) (m : Machine) :
    p.opening? block (a :: rest) (m.facing d side) =
      p.opening? block rest (a.apply (m.facing d side)) := by
  simp [opening?, exit?_eq_some he, hr.look, hv]

/-- Anything else past the edge is an opening. -/
theorem Renders.opening?_open (hr : p.Renders view) {d : Direction} {side : Side} {e : Pos}
    (he : Edge block d side e) (hv : view (e.toward d) ≠ .black) (a : Adjustment)
    (rest : List Adjustment) (m : Machine) :
    p.opening? block (a :: rest) (m.facing d side) = some (e.toward d, m.facing d side) := by
  simp [opening?, exit?_eq_some he, hr.look, hv]

/-- Blocked attempts lead to the attempt at the opening. -/
theorem leave_of_opening {as : List Adjustment}
    (h : p.opening? block as m = some (next, m')) :
    ∃ a rest e d, exit? block m'.pointer m'.chooser = some (e, d) ∧ next = e.toward d ∧
      p.leave block s as m = p.leave block s (a :: rest) m' := by
  induction as generalizing m with
  | nil => cases h
  | cons a rest ih =>
    rw [opening?] at h
    cases hexit : exit? block m.pointer m.chooser with
    | none => rw [hexit] at h; cases h
    | some found =>
      obtain ⟨e, d⟩ := found
      rw [hexit, Option.bind_some] at h
      dsimp only at h
      split at h
      · next hlook =>
        obtain ⟨a', rest', e', d', hexit', hnext, hleave⟩ := ih h
        refine ⟨a', rest', e', d', hexit', hnext, ?_⟩
        rw [← hleave]
        simp only [leave, hexit, hlook]
      · cases h
        exact ⟨a, rest, e, d, hexit, rfl, rfl⟩

/-- A step in a patch is a way out of it. -/
theorem Renders.step_eq_leave (hr : p.Renders view) (hb : Patch view s block)
    (hpos : pos ∈ block) (m : Machine) :
    ∃ members, members.Perm block ∧
      p.step pos m = p.leave members s Adjustment.attempts m := by
  obtain ⟨id, members, hid, hmem, hperm⟩ := hr.members hb hpos
  refine ⟨members, hperm, ?_⟩
  simp only [step, hid, hmem, hr.look, hb.shade pos hpos]

/-- A step in a patch goes through its opening. -/
theorem Renders.step_eq_opening (hr : p.Renders view) (hb : Patch view s block)
    (hpos : pos ∈ block) (hopen : p.opening? block Adjustment.attempts m = some (next, m')) :
    ∃ members a rest e d, members.Perm block ∧ next = Pos.toward e d ∧
      exit? members m'.pointer m'.chooser = some (e, d) ∧
      p.step pos m = p.leave members s (a :: rest) m' := by
  obtain ⟨members, hperm, hstep⟩ := hr.step_eq_leave hb hpos m
  rw [← opening?_perm hperm] at hopen
  obtain ⟨a, rest, e, d, hexit, hnext, hleave⟩ := leave_of_opening (s := s) hopen
  exact ⟨members, a, rest, e, d, hperm, hnext, hexit, hstep.trans hleave⟩

/-- Straight to another shade: the operation between the two shades is executed. -/
theorem Renders.step_shade (hr : p.Renders view) (hb : Patch view s block) (hpos : pos ∈ block)
    (hopen : p.opening? block Adjustment.attempts m = some (next, m'))
    (hv : view next = .shade t) {op : Operation} (hop : Shade.between s t = some op)
    {m'' : Machine} (hex : Machine.execute op block.length m' = .ok () m'') :
    p.step pos m = .ok ⟨some next, some op⟩ m'' := by
  obtain ⟨members, a, rest, e, d, hperm, rfl, hexit, hstep⟩ := hr.step_eq_opening hb hpos hopen
  rw [← hperm.length_eq] at hex
  rw [hstep]
  simp only [leave, hexit, hr.look, hv, hop, hex]

/-- An operation that fails on a number stops the step. -/
theorem Renders.step_fault (hr : p.Renders view) (hb : Patch view s block) (hpos : pos ∈ block)
    (hopen : p.opening? block Adjustment.attempts m = some (next, m'))
    (hv : view next = .shade t) {op : Operation} (hop : Shade.between s t = some op)
    {fault : NumberFault} {m'' : Machine}
    (hex : Machine.execute op block.length m' = .error fault m'') :
    p.step pos m = .error (.number fault) m'' := by
  obtain ⟨members, a, rest, e, d, hperm, rfl, hexit, hstep⟩ := hr.step_eq_opening hb hpos hopen
  rw [← hperm.length_eq] at hex
  rw [hstep]
  simp only [leave, hexit, hr.look, hv, hop, hex]

/-- Over white: the slide decides where the walk arrives, and nothing is executed. -/
theorem Renders.step_white (hr : p.Renders view) (hb : Patch view s block) (hpos : pos ∈ block)
    (hopen : p.opening? block Adjustment.attempts m = some (next, m'))
    (hv : view next = .white) {q : Pos} {m'' : Machine}
    (hslide : p.canvas.slide next m' = .ok (some q) m'') :
    p.step pos m = .ok ⟨some q, none⟩ m'' := by
  obtain ⟨members, a, rest, e, d, hperm, rfl, hexit, hstep⟩ := hr.step_eq_opening hb hpos hopen
  rw [hstep]
  simp only [leave, hexit, hr.look, hv, hslide]

/-- No way out on any side: the walk halts as it came. -/
theorem Renders.step_halt (hr : p.Renders view) (hb : Patch view s block) (hpos : pos ∈ block)
    {edge : Direction → Side → Pos} (hedge : ∀ d side, Edge block d side (edge d side))
    (hv : ∀ d side, view ((edge d side).toward d) = .black) (m : Machine) (d : Direction)
    (side : Side) :
    p.step pos (m.facing d side) = .ok ⟨none, none⟩ (m.facing d side) := by
  obtain ⟨members, hperm, hstep⟩ := hr.step_eq_leave hb hpos (m.facing d side)
  have hblack (as : List Adjustment) (a : Adjustment) (d : Direction) (side : Side) :
      p.leave members s (a :: as) (m.facing d side) =
        p.leave members s as (a.apply (m.facing d side)) := by
    have hexit := exit?_eq_some ((hedge d side).perm hperm)
    simp only [leave, Machine.facing_pointer, Machine.facing_chooser, hexit, hr.look, hv]
  have hnext : d.next.next.next.next = d := by cases d <;> rfl
  have hother : side.other.other.other.other = side := by cases side <;> rfl
  rw [hstep]
  simp only [Adjustment.attempts, hblack, Adjustment.apply_flip, Adjustment.apply_turn, hnext,
    hother]
  rfl

/-- Without a way out there is no opening, so the walk slides over nothing. -/
theorem Renders.not_crosses_halt (hr : p.Renders view) (hb : Patch view s block)
    (hpos : pos ∈ block) {edge : Direction → Side → Pos}
    (hedge : ∀ d side, Edge block d side (edge d side))
    (hv : ∀ d side, view ((edge d side).toward d) = .black) (m : Machine) (d : Direction)
    (side : Side) (q : Pos) : ¬p.Crosses pos (m.facing d side) q := by
  rintro ⟨next, m', g, hdoor, _⟩
  have hblack (d : Direction) (side : Side) (a : Adjustment) (rest : List Adjustment) :
      p.opening? block (a :: rest) (m.facing d side) =
        p.opening? block rest (a.apply (m.facing d side)) :=
    hr.opening?_black (hedge d side) (hv d side) a rest m
  rw [hr.doorway?_eq hb hpos] at hdoor
  simp only [Adjustment.attempts, hblack, Adjustment.apply_flip, Adjustment.apply_turn] at hdoor
  cases hdoor

/-- A walk that goes straight to another shade slides over nothing. -/
theorem Renders.not_crosses (hr : p.Renders view) (hb : Patch view s block) (hpos : pos ∈ block)
    (hopen : p.opening? block Adjustment.attempts m = some (next, m'))
    (hv : view next = .shade t) (q : Pos) : ¬p.Crosses pos m q := by
  rintro ⟨next', m'', g, hdoor, hwhite, _⟩
  rw [hr.doorway?_eq hb hpos, hopen] at hdoor
  cases hdoor
  rw [hr.look, hv] at hwhite
  cases hwhite

end Picture

end BrainPiet
