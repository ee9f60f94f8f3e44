import BrainPiet.Machine.Basic
import BrainPiet.Picture.Block

/-!
# Walking through a picture

A walk stands in a block and leaves it by the codel at the far edge in its direction, on the side of
its chooser. Black blocks the way: then the chooser flips and the direction turns in alternation, and
after eight attempts the walk halts. White is crossed in a straight line; a walk that comes back to
where it was, with the same heading, is trapped there and halts. Going straight to another block
executes the operation between the two shades.
-/

namespace BrainPiet

/-- Why a walk could not go on. -/
inductive WalkFault
  /-- The position is in no block. -/
  | noBlock (p : Pos)
  /-- A block or a codel is missing, as after a load that failed. -/
  | missing
  /-- A number is too large for anything to be counted by it. -/
  | indexSize
  | number (fault : NumberFault)
  deriving DecidableEq, Repr, Inhabited

/-- The fault when nothing has the given number. -/
def WalkFault.ofIndex (i : Int) : WalkFault := if isIndexSized i then .missing else .indexSize

/-- A position on white, with a heading. -/
structure Glide where
  pos : Pos
  pointer : Pointer
  chooser : Chooser
  deriving DecidableEq, Repr, Inhabited, Hashable

namespace Glide

/-- What black does to a glide. -/
def bounce (g : Glide) : Glide := ⟨g.pos, g.pointer.turn 1, g.chooser.flip⟩

/-- The headings that a glide can come to, at some position. -/
def headings (start : Glide) (p : Pos) : List Glide :=
  (start.pointer :: Pointer.all).flatMap fun d ↦ [⟨p, d, start.chooser⟩, ⟨p, d, start.chooser.flip⟩]

/-- A glide has a heading that the start can come to. -/
def HeadingOf (start g : Glide) : Prop :=
  (g.pointer = start.pointer ∨ g.pointer ∈ Pointer.all) ∧
    (g.chooser = start.chooser ∨ g.chooser = start.chooser.flip)

/-- Every such heading is listed. -/
theorem mem_headings {start g : Glide} (h : start.HeadingOf g) : g ∈ start.headings g.pos := by
  obtain ⟨p, d, c⟩ := g
  refine List.mem_flatMap.mpr ⟨d, List.mem_cons.mpr h.1, ?_⟩
  rcases h.2 with h | h <;> simp_all

/-- Black leads from such a heading to such a heading. -/
theorem HeadingOf.bounce {start g : Glide} (h : start.HeadingOf g) : start.HeadingOf g.bounce := by
  refine ⟨.inr (Pointer.turn_mem_all _ _), ?_⟩
  rcases h.2 with h | h
  · exact .inr (by rw [Glide.bounce, h])
  · exact .inl (by rw [Glide.bounce, h, Chooser.flip_flip])

end Glide

namespace Canvas

/-- A glide is where the start can come to: there or inside the canvas, with one of its headings. -/
def ReachedFrom (c : Canvas) (start g : Glide) : Prop :=
  (g.pos = start.pos ∨ c.Inside g.pos) ∧ start.HeadingOf g

/-- All places that a glide can come to. -/
def glides (c : Canvas) (start : Glide) : List Glide :=
  (start.pos :: c.positions).flatMap start.headings

/-- A glide is reached from itself. -/
theorem reachedFrom_self (c : Canvas) (g : Glide) : c.ReachedFrom g g :=
  ⟨.inl rfl, .inl rfl, .inl rfl⟩

/-- Every place that a glide can come to is listed. -/
theorem mem_glides {c : Canvas} {start g : Glide} (h : c.ReachedFrom start g) :
    g ∈ c.glides start := by
  refine List.mem_flatMap.mpr ⟨g.pos, ?_, Glide.mem_headings h.2⟩
  rcases h.1 with h | h
  · simp [h]
  · exact List.mem_cons_of_mem _ (mem_positions.mpr h)

private theorem unseen_lt {c : Canvas} {start g : Glide} {seen : Std.HashSet Glide}
    (h : c.ReachedFrom start g) (hg : seen.contains g = false) :
    ((c.glides start).filter fun a ↦ !(seen.insert g).contains a).length <
      ((c.glides start).filter fun a ↦ !seen.contains a).length := by
  apply length_filter_lt _ (mem_glides h)
  · simp [hg]
  · simp
  · intro a
    simp only [Std.HashSet.contains_insert, Bool.not_or, Bool.and_eq_true]
    exact fun h ↦ h.2

/-- Glides on until a codel of a shade is met, which is the first result. A glide that was seen
before is a trap; the other result is the glide at the end. -/
def glide (c : Canvas) (start : Glide) (seen : Std.HashSet Glide) (g : Glide)
    (hg : c.ReachedFrom start g) : Except WalkFault (Option Pos × Glide) :=
  match hs : seen.contains g with
  | true => .ok (none, g)
  | false =>
    match g.pointer.direction? with
    | none => .error (.ofIndex g.pointer.quarters)
    | some d =>
      match hl : c.look (g.pos.toward d) with
      | none => .error .missing
      | some .black => c.glide start (seen.insert g) g.bounce ⟨hg.1, hg.2.bounce⟩
      | some .white =>
        c.glide start (seen.insert g) { g with pos := g.pos.toward d }
          ⟨.inr (inside_of_look hl (by decide)), hg.2⟩
      | some (.shade _) => .ok (some (g.pos.toward d), g)
termination_by ((c.glides start).filter fun a ↦ !seen.contains a).length
decreasing_by all_goals exact unseen_lt hg hs

/-- Slides over white from a position. -/
def slide (c : Canvas) (p : Pos) : EStateM WalkFault Machine (Option Pos) := fun m ↦
  let start : Glide := ⟨p, m.pointer, m.chooser⟩
  match c.glide start ∅ start (c.reachedFrom_self start) with
  | .error fault => .error fault m
  | .ok (found, g) => .ok found { m with pointer := g.pointer, chooser := g.chooser }

end Canvas

/-- How far a position lies along a direction. -/
def Pos.along (p : Pos) (d : Direction) : Int := p.1 * d.dx + p.2 * d.dy

/-- The direction to a side: left is a quarter turn back, right one forward. -/
def Side.of (s : Side) (d : Direction) : Direction :=
  match s with
  | .left => d.next.next.next
  | .right => d.next

/-- The position is further along than another, or as far along and further to the side. -/
def Pos.exceeds (d : Direction) (s : Side) (p q : Pos) : Bool :=
  q.along d < p.along d || (q.along d == p.along d && q.along (s.of d) < p.along (s.of d))

/-- The codel by which a block is left. -/
def edgeCodel? (members : List Pos) (d : Direction) (s : Side) : Option Pos :=
  match members with
  | [] => none
  | p :: rest => some (rest.foldl (fun best q ↦ if Pos.exceeds d s q best then q else best) p)

/-- The codel by which a block is left with a heading, and the direction. -/
def exit? (members : List Pos) (p : Pointer) (c : Chooser) : Option (Pos × Direction) := do
  let d ← p.direction?
  return (← edgeCodel? members d c.side, d)

/-- What a blocked walk tries next. -/
inductive Adjustment
  | flip
  | turn
  deriving DecidableEq, Repr, Inhabited

namespace Adjustment

/-- The machine with its heading adjusted. -/
def apply (m : Machine) : Adjustment → Machine
  | flip => { m with chooser := m.chooser.flip }
  | turn => { m with pointer := m.pointer.turn 1 }

/-- The adjustments after each of the eight attempts. -/
def attempts : List Adjustment := [flip, turn, flip, turn, flip, turn, flip, turn]

end Adjustment

/-- Where a step led: no position when the walk halted, no operation when none was executed. -/
structure Arrival where
  pos : Option Pos
  op : Option Operation := none
  deriving DecidableEq, Repr, Inhabited

namespace Picture

/-- Leaves a block of a shade, with the adjustments that are left for blocked attempts. -/
def leave (p : Picture) (members : List Pos) (s : Shade) :
    List Adjustment → EStateM WalkFault Machine Arrival
  | [], m => .ok ⟨none, none⟩ m
  | a :: rest, m =>
    match exit? members m.pointer m.chooser with
    | none => .error (.ofIndex m.pointer.quarters) m
    | some (edge, d) =>
      let next := edge.toward d
      match p.canvas.look next with
      | none => .error .missing m
      | some .black => leave p members s rest (a.apply m)
      | some .white =>
        match p.canvas.slide next m with
        | .ok pos m => .ok ⟨pos, none⟩ m
        | .error fault m => .error fault m
      | some (.shade t) =>
        match Shade.between s t with
        | none => .ok ⟨some next, none⟩ m
        | some op =>
          match Machine.execute op members.length m with
          | .ok _ m => .ok ⟨some next, some op⟩ m
          | .error fault m => .error (.number fault) m

/-- Leaves the block at a position. -/
def step (p : Picture) (pos : Pos) : EStateM WalkFault Machine Arrival := fun m ↦
  match p.parts.labels[pos]? with
  | none => .error (.noBlock pos) m
  | some id =>
    match p.parts.blocks[id]?, p.canvas.look pos with
    | some members, some (.shade s) => p.leave members s Adjustment.attempts m
    | _, _ => .error .missing m

/-- The codel by which the block of some number is left with a heading. Negative numbers count from
the last block. -/
def edge (p : Picture) (id : Int) (pointer : Pointer) (c : Chooser) : Except WalkFault Pos :=
  match signedGet? p.parts.blocks.toList id with
  | none => .error (.ofIndex id)
  | some members =>
    match exit? members pointer c with
    | none => .error (.ofIndex pointer.quarters)
    | some (codel, _) => .ok codel

/-- The walk starts in the corner, if that is in a block. -/
def start? (p : Picture) : Option Pos :=
  if !p.parts.blocks.isEmpty && p.parts.labels.contains (0, 0) then some (0, 0) else none

end Picture

end BrainPiet
