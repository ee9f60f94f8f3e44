import BrainPiet.Proofs.Picture.Step
import BrainPiet.Run

/-!
# Paths of a walk

A path is a sequence of steps of a walk, each of which moves on. Along a path the walk keeps clear of
the glyphs, where it stands and where it slides, and the stack keeps a least height. Paths are put
together, and a run follows them.
-/

namespace BrainPiet

/-- A walk at a position. -/
structure Walker where
  machine : Machine
  pos : Pos
  deriving DecidableEq, Repr

/-- The position is none where a glyph can stand. -/
def Clear (q : Pos) : Prop := ¬(3 ≤ q.1 ∧ 1 ≤ q.2 ∧ q.2 ≤ 3)

/-- The rows of the lane and below are clear. -/
theorem clear_of_row {q : Pos} (h : 4 ≤ q.2) : Clear q := by
  rintro ⟨_, _, h3⟩
  omega

/-- The columns before the lane are clear. -/
theorem clear_of_column {q : Pos} (h : q.1 < 3) : Clear q := by
  rintro ⟨h1, _⟩
  omega

namespace Picture

/-- A step from one place to the next that keeps clear of the glyphs, with a stack that has some
least height. -/
structure Treads (p : Picture) (least : Nat) (a : Walker) (op : Option Operation) (b : Walker) :
    Prop where
  step : p.step a.pos a.machine = .ok ⟨some b.pos, op⟩ b.machine
  clear : Clear a.pos
  crosses : ∀ q, p.Crosses a.pos a.machine q → Clear q
  height : least ≤ a.machine.stack.length

/-- Such steps one after the other, with what each of them executes. -/
inductive Path (p : Picture) (least : Nat) : List (Option Operation) → Walker → Walker → Prop
  | nil (a : Walker) : Path p least [] a a
  | cons {ops : List (Option Operation)} {a b c : Walker} {op : Option Operation} :
    p.Treads least a op b → Path p least ops b c → Path p least (op :: ops) a c

variable {p : Picture} {least : Nat} {a b c : Walker} {ops more : List (Option Operation)}

/-- A path goes on where another one ends. -/
theorem Path.trans (hab : p.Path least ops a b) (hbc : p.Path least more b c) :
    p.Path least (ops ++ more) a c := by
  induction hab with
  | nil => exact hbc
  | cons hstep _ ih => exact .cons hstep (ih hbc)

/-- A single step is a path. -/
theorem Treads.path {op : Option Operation} (h : p.Treads least a op b) : p.Path least [op] a b :=
  .cons h (.nil b)

/-- A path of a high stack is one of a lower stack. -/
theorem Path.mono {least' : Nat} (h : p.Path least ops a b) (hl : least' ≤ least) :
    p.Path least' ops a b := by
  induction h with
  | nil => exact .nil _
  | cons hstep _ ih =>
    exact .cons ⟨hstep.step, hstep.clear, hstep.crosses, Nat.le_trans hl hstep.height⟩ ih

/-- A run follows a path. -/
theorem Path.walk_add (h : p.Path least ops a b) (k : Nat) :
    p.walk (ops.length + k) a.machine a.pos = p.walk k b.machine b.pos := by
  induction h with
  | nil => rw [List.length_nil, Nat.zero_add]
  | cons hstep _ ih =>
    rw [List.length_cons, Nat.add_right_comm, walk]
    simp only [hstep.step]
    exact ih

/-- A run with fewer steps than a path has not halted. -/
theorem Path.walk_le (h : p.Path least ops a b) {k : Nat} (hk : k ≤ ops.length) :
    p.walk k a.machine a.pos = .ok none := by
  induction h generalizing k with
  | nil =>
    rw [List.length_nil] at hk
    obtain rfl : k = 0 := by omega
    rfl
  | cons hstep _ ih =>
    rw [List.length_cons] at hk
    cases k with
    | zero => rfl
    | succ k =>
      rw [walk]
      simp only [hstep.step]
      exact ih (by omega)

/-- Two places from which the walk goes on alike. -/
structure Alike (p : Picture) (a b : Walker) : Prop where
  step : p.step a.pos a.machine = p.step b.pos b.machine
  crosses : ∀ q, p.Crosses a.pos a.machine q → p.Crosses b.pos b.machine q
  clear : Clear a.pos
  stack : a.machine.stack = b.machine.stack

/-- A place with a clear position is alike to itself. -/
theorem Alike.refl (h : Clear a.pos) : p.Alike a a := ⟨rfl, fun _ hq ↦ hq, h, rfl⟩

/-- A path can start at any place that is alike. -/
theorem Alike.path (h : p.Alike a b) (hp : p.Path least ops b c) (hne : ops ≠ []) :
    p.Path least ops a c := by
  cases hp with
  | nil => exact absurd rfl hne
  | cons hstep hrest =>
    refine .cons ⟨h.step.trans hstep.step, h.clear, ?_, h.stack ▸ hstep.height⟩ hrest
    exact fun q hq ↦ hstep.crosses q (h.crosses q hq)

variable {view : Pos → Codel} {s : Shade} {block : List Pos}

/-- In one block, places with the same opening are alike. -/
theorem Renders.alike (hr : p.Renders view) (hb : Patch view s block) {q r : Pos} {m m' : Machine}
    (hq : q ∈ block) (hr' : r ∈ block) (hclear : Clear q) (hstack : m.stack = m'.stack)
    {next : Pos} {out : Machine} {t : Shade} {op : Operation} {m'' : Machine}
    (hm : p.opening? block Adjustment.attempts m = some (next, out))
    (hm' : p.opening? block Adjustment.attempts m' = some (next, out))
    (hv : view next = .shade t) (hop : Shade.between s t = some op)
    (hex : Machine.execute op block.length out = .ok () m'') : p.Alike ⟨m, q⟩ ⟨m', r⟩ := by
  refine ⟨?_, ?_, hclear, hstack⟩
  · rw [hr.step_shade hb hq hm hv hop hex, hr.step_shade hb hr' hm' hv hop hex]
  · intro z hz
    exact absurd hz (hr.not_crosses hb hq hm hv z)

/-- A step straight to another shade. -/
theorem Renders.treads_shade (hr : p.Renders view) (hb : Patch view s block) {q next : Pos}
    (hq : q ∈ block) (hclear : Clear q) {m out m' : Machine} (hheight : least ≤ m.stack.length)
    (hopen : p.opening? block Adjustment.attempts m = some (next, out)) {t : Shade}
    (hv : view next = .shade t) {op : Operation} (hop : Shade.between s t = some op)
    (hex : Machine.execute op block.length out = .ok () m') :
    p.Treads least ⟨m, q⟩ (some op) ⟨m', next⟩ := by
  refine ⟨hr.step_shade hb hq hopen hv hop hex, hclear, ?_, hheight⟩
  intro z hz
  exact absurd hz (hr.not_crosses hb hq hopen hv z)

/-- A step over a straight stretch of white. -/
theorem Renders.treads_slide (hr : p.Renders view) (hb : Patch view s block) {q e : Pos}
    (hq : q ∈ block) (hclear : Clear q) {m out : Machine} (hheight : least ≤ m.stack.length)
    {d : Direction} {side : Side}
    (hopen : p.opening? block Adjustment.attempts m = some (e.toward d, out.facing d side))
    {n : Nat} (hwhite : ∀ k ≤ n, view (e.ahead d (k + 1)) = .white) {t : Shade}
    (hend : view (e.ahead d (n + 2)) = .shade t)
    (hpass : ∀ k ≤ n, Clear (e.ahead d (k + 1))) :
    p.Treads least ⟨m, q⟩ none ⟨out.facing d side, e.ahead d (n + 2)⟩ := by
  have hfirst : e.toward d = e.ahead d 1 := by rw [← Pos.toward_ahead, Pos.ahead_zero]
  have hshow (k : Nat) : (e.toward d).ahead d k = e.ahead d (k + 1) := Pos.ahead_toward e d k
  have hlook : ∀ k < n, p.canvas.look ((e.toward d).ahead d (k + 1)) = some .white := by
    intro k hk
    rw [hshow, hr.look, hwhite (k + 1) hk]
  have hlast : p.canvas.look ((e.toward d).ahead d (n + 1)) = some (.shade t) := by
    rw [hshow, hr.look, hend]
  have hstart : view (e.toward d) = .white := by
    rw [hfirst]
    exact hwhite 0 (Nat.zero_le n)
  have hslide := Canvas.slide_ahead (s := side) out n hlook hlast
  rw [hshow] at hslide
  refine ⟨hr.step_white hb hq hopen hstart hslide, hclear, ?_, hheight⟩
  rintro z ⟨next, m', g, hdoor, _, hglide, rfl⟩
  rw [hr.doorway?_eq hb hq, hopen] at hdoor
  cases hdoor
  obtain ⟨k, hk, rfl⟩ := Canvas.Glides.straight (s := side) hglide hlook hlast
  rw [hshow]
  exact hpass k hk

end Picture

end BrainPiet
