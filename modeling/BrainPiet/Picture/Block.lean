import BrainPiet.Picture.Codel
import BrainPiet.Picture.Fresh

/-!
# Blocks

A block is a maximal connected set of codels of one shade. Blocks are found by scanning the canvas
row by row; at each codel of a shade that has no label yet, its block is flooded. Blocks are
numbered in the order in which they are found.

A canvas with a row that is too short fails where the missing codel is looked at. What was labelled
by then stays, and the block that was being flooded is not recorded.
-/

namespace BrainPiet

/-- Labels of codels by the number of their block. -/
abbrev Labels := Std.HashMap Pos Nat

/-- The blocks that were found, and the label of each codel. -/
structure Partition where
  labels : Labels := ∅
  blocks : Array (List Pos) := #[]
  deriving Inhabited

/-- A row is shorter than the first one. -/
inductive RowFault
  | short
  deriving DecidableEq, Repr, Inhabited

namespace Canvas

/-- The number of positions in the rectangle that have no label. -/
def unlabelled (c : Canvas) (labels : Labels) : Nat :=
  (c.positions.filter fun p ↦ !labels.contains p).length

/-- The state of flooding a block: labels, codels still to be left, codels already left. -/
structure Flood where
  labels : Labels
  todo : List Pos
  members : List Pos := []

/-- Enters the neighbour of a codel in a direction, if it has the same shade and no label yet. When
the neighbour is missing, the labels are the result. -/
def enter (c : Canvas) (s : Shade) (id : Nat) (p : Pos) (f : Flood) (d : Direction) :
    Except Labels Flood :=
  let q := p.toward d
  if f.labels.contains q then .ok f
  else match c.look q with
    | none => .error f.labels
    | some k =>
      if k = .shade s then .ok { f with labels := f.labels.insert q id, todo := q :: f.todo }
      else .ok f

/-- Enters the neighbours of a codel: right, down, left, up. -/
def enterAll (c : Canvas) (s : Shade) (id : Nat) (p : Pos) (f : Flood) : Except Labels Flood :=
  Direction.all.foldlM (c.enter s id p) f

/-- What bounds a flood: codels that may still be entered or left. -/
def pending (c : Canvas) (f : Flood) : Nat := c.unlabelled f.labels + f.todo.length

private theorem unlabelled_insert_lt {c : Canvas} {labels : Labels} {p : Pos} {id : Nat}
    (hin : c.Inside p) (hp : labels.contains p = false) :
    c.unlabelled (labels.insert p id) < c.unlabelled labels := by
  apply length_filter_lt _ (mem_positions.mpr hin)
  · simp [hp]
  · simp
  · intro a
    simp only [Std.HashMap.contains_insert, Bool.not_or, Bool.and_eq_true]
    exact fun h ↦ h.2

/-- Entering a neighbour does not add to what is pending. -/
theorem pending_enter {c : Canvas} {s : Shade} {id : Nat} {p : Pos} {f f' : Flood} {d : Direction}
    (h : c.enter s id p f d = .ok f') : c.pending f' ≤ c.pending f := by
  simp only [enter] at h
  split at h
  · cases h; exact Nat.le_refl _
  · next hc =>
    split at h
    · cases h
    · next k hk =>
      split at h
      · next hs =>
        cases h
        have hin := inside_of_look hk (by simp [hs])
        have : c.unlabelled (f.labels.insert (p.toward d) id) < c.unlabelled f.labels :=
          unlabelled_insert_lt hin (by simpa using hc)
        simp only [pending, List.length_cons]
        omega
      · cases h; exact Nat.le_refl _

/-- Entering all neighbours does not add to what is pending. -/
theorem pending_enterAll {c : Canvas} {s : Shade} {id : Nat} {p : Pos} {f f' : Flood}
    (h : c.enterAll s id p f = .ok f') : c.pending f' ≤ c.pending f := by
  unfold enterAll at h
  generalize Direction.all = ds at h
  induction ds generalizing f with
  | nil => cases h; exact Nat.le_refl _
  | cons d ds ih =>
    rw [List.foldlM_cons] at h
    cases he : c.enter s id p f d with
    | error l => rw [he] at h; cases h
    | ok g =>
      rw [he] at h
      exact Nat.le_trans (ih h) (pending_enter he)

/-- Floods a block to its end: its labels and its codels. -/
def flood (c : Canvas) (s : Shade) (id : Nat) (f : Flood) : Except Labels (Labels × List Pos) :=
  match _htodo : f.todo with
  | [] => .ok (f.labels, f.members)
  | p :: rest =>
    match _henter : c.enterAll s id p { f with todo := rest, members := p :: f.members } with
    | .error labels => .error labels
    | .ok f' => flood c s id f'
termination_by c.pending f
decreasing_by
  have := pending_enterAll _henter
  simp only [pending, _htodo, List.length_cons] at this ⊢
  omega

/-- Looks at one position of the scan and floods the block that starts there, if any. -/
def seed (c : Canvas) (p : Pos) : EStateM RowFault Partition Unit := fun part ↦
  match c.look p with
  | none => .error .short part
  | some (.shade s) =>
    if part.labels.contains p then .ok () part
    else
      let id := part.blocks.size
      match c.flood s id { labels := part.labels.insert p id, todo := [p] } with
      | .ok (labels, members) => .ok () ⟨labels, part.blocks.push members⟩
      | .error labels => .error .short { part with labels }
  | some _ => .ok () part

/-- Finds all blocks. -/
def partition (c : Canvas) : EStateM RowFault Partition Unit := c.positions.forM c.seed

end Canvas

/-- A canvas divided into blocks. -/
structure Picture where
  canvas : Canvas := {}
  parts : Partition := {}
  deriving Inhabited

namespace Picture

/-- Loads rows of colours. After a fault the picture is what had been found by then. -/
def load (rows : List (List Rgb)) : EStateM RowFault Picture Unit := fun _ ↦
  let canvas := Canvas.ofRows rows
  match canvas.partition {} with
  | .ok _ parts => .ok () ⟨canvas, parts⟩
  | .error fault parts => .error fault ⟨canvas, parts⟩

end Picture

end BrainPiet
