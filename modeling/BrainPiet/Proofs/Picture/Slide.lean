import BrainPiet.Proofs.Picture.Blocks
import BrainPiet.Proofs.Picture.Outcome
import Mathlib.Logic.Function.Iterate

/-!
# Where a slide ends

The bare rule of a slide knows no past: it moves on over anything but black, and black makes it
bounce. A slide keeps to this rule until it comes to a codel of a shade or to a place, with a
heading, where it was before. There are only so many places and headings, so it ends. If it was
somewhere before, the rule repeats itself from there on for ever, and all that it will ever come to
has been seen already. So a slide finds the first codel of a shade on its way, or there is none.
-/

namespace BrainPiet

private theorem exists_iterate_lt {α : Type} {f : α → α} {a : α} {k n : Nat} (hk : k < n)
    (h : f^[k] a = f^[n] a) (t : Nat) : ∃ j < n, f^[t] a = f^[j] a := by
  induction t with
  | zero => exact ⟨0, by omega, rfl⟩
  | succ t ih =>
    obtain ⟨j, hj, heq⟩ := ih
    rw [Function.iterate_succ_apply', heq, ← Function.iterate_succ_apply' f j a]
    rcases Nat.lt_or_eq_of_le hj with hlt | hlast
    · exact ⟨j + 1, hlt, rfl⟩
    · exact ⟨k, hk, by rw [h, ← hlast]⟩

namespace Canvas

/-- One move of the bare rule. -/
def drift (c : Canvas) (g : Glide) : Glide :=
  match g.pointer.direction? with
  | none => g
  | some d =>
    if c.look (g.pos.toward d) = some .black then g.bounce else { g with pos := g.pos.toward d }

/-- The codel at a position has a shade. -/
def Coloured (c : Canvas) (p : Pos) : Prop := ∃ s, c.look p = some (.shade s)

instance (c : Canvas) (p : Pos) : Decidable (c.Coloured p) :=
  match h : c.look p with
  | some (.shade s) => isTrue ⟨s, h⟩
  | some .black | some .white | none => isFalse (by rintro ⟨s, hs⟩; rw [h] at hs; cases hs)

/-- The bare rule first comes to a codel of a shade in a place, with a heading. -/
def Lands (c : Canvas) (start g : Glide) : Prop :=
  ∃ n, c.drift^[n] start = g ∧ c.Coloured g.pos ∧
    ∀ k < n, ¬c.Coloured (c.drift^[k] start).pos

variable {c : Canvas} {start g : Glide}

/-- There is one place at most where the rule first comes to a codel of a shade. -/
theorem Lands.unique {g' : Glide} (h : c.Lands start g) (h' : c.Lands start g') : g = g' := by
  obtain ⟨n, rfl, hg, hclear⟩ := h
  obtain ⟨n', rfl, hg', hclear'⟩ := h'
  rcases Nat.lt_trichotomy n n' with hlt | rfl | hlt
  · exact absurd hg (hclear' n hlt)
  · rfl
  · exact absurd hg' (hclear n' hlt)

private theorem drift_black {d : Direction} (hd : g.pointer.direction? = some d)
    (hl : c.look (g.pos.toward d) = some .black) : c.drift g = g.bounce := by
  simp only [drift, hd, hl, if_pos]

private theorem drift_open {d : Direction} (hd : g.pointer.direction? = some d)
    (hl : c.look (g.pos.toward d) ≠ some .black) :
    c.drift g = { g with pos := g.pos.toward d } := by
  simp only [drift, hd, hl, if_neg, not_false_eq_true]

/-- A glide has followed the bare rule for some moves, met no codel of a shade and noted every place
on its way. -/
structure Drifts (c : Canvas) (start : Glide) (seen : Std.HashSet Glide) (n : Nat) (g : Glide) :
    Prop where
  now : c.drift^[n] start = g
  seen : ∀ a, seen.contains a = true ↔ ∃ k < n, c.drift^[k] start = a
  clear : ∀ k ≤ n, ¬c.Coloured (c.drift^[k] start).pos

namespace Drifts

variable {seen : Std.HashSet Glide} {n : Nat}

theorem zero (h : ¬c.Coloured start.pos) : c.Drifts start ∅ 0 start := by
  refine ⟨rfl, ?_, ?_⟩
  · intro a
    simp
  · intro k hk
    obtain rfl := Nat.le_zero.mp hk
    exact h

/-- One more move, unless it comes to a codel of a shade. -/
theorem step (h : c.Drifts start seen n g) (hclear : ¬c.Coloured (c.drift g).pos) :
    c.Drifts start (seen.insert g) (n + 1) (c.drift g) := by
  have hnow : c.drift^[n + 1] start = c.drift g := by
    rw [Function.iterate_succ_apply', h.now]
  refine ⟨hnow, ?_, ?_⟩
  · intro a
    rw [Std.HashSet.contains_insert, Bool.or_eq_true, beq_iff_eq, h.seen]
    constructor
    · rintro (rfl | ⟨k, hk, rfl⟩)
      · exact ⟨n, Nat.lt_succ_self n, h.now⟩
      · exact ⟨k, by omega, rfl⟩
    · rintro ⟨k, hk, rfl⟩
      rcases Nat.lt_or_eq_of_le (Nat.le_of_lt_succ hk) with hk | rfl
      · exact .inr ⟨k, hk, rfl⟩
      · exact .inl h.now.symm
  · intro k hk
    rcases Nat.lt_or_eq_of_le hk with hk | rfl
    · exact h.clear k (by omega)
    · rwa [hnow]

/-- A move to a codel of a shade lands there. -/
theorem lands (h : c.Drifts start seen n g) (hc : c.Coloured (c.drift g).pos) :
    c.Lands start (c.drift g) := by
  refine ⟨n + 1, ?_, hc, ?_⟩
  · rw [Function.iterate_succ_apply', h.now]
  · intro k hk
    exact h.clear k (by omega)

/-- In a place that was noted before, the rule is trapped. -/
theorem trapped (h : c.Drifts start seen n g) (hs : seen.contains g = true) (t : Nat) :
    ¬c.Coloured (c.drift^[t] start).pos := by
  obtain ⟨k, hk, hback⟩ := (h.seen g).mp hs
  obtain ⟨j, hj, heq⟩ := exists_iterate_lt hk (hback.trans h.now.symm) t
  rw [heq]
  exact h.clear j (by omega)

end Drifts

/-- A glide that goes on by the bare rule finds the first codel of a shade, or that there is
none. -/
theorem glide_spec (hc : c.Full) {seen : Std.HashSet Glide} (hg : c.ReachedFrom start g) {n : Nat}
    (h : c.Drifts start seen n g) {d : Direction} (hd : g.pointer = d.pointer) :
    ∃ found g', c.glide start seen g hg = .ok (found, g') ∧
      (∀ q, found = some q → c.Lands start ⟨q, g'.pointer, g'.chooser⟩) ∧
      (found = none → ∀ t, ¬c.Coloured (c.drift^[t] start).pos) := by
  fun_induction Canvas.glide c start seen g hg generalizing n d with
  | case1 seen g hg hs =>
    refine ⟨none, g, rfl, ?_, fun _ ↦ h.trapped hs⟩
    rintro _ ⟨⟩
  | case2 seen g hg hs hnone =>
    rw [hd, Direction.direction?_pointer] at hnone
    cases hnone
  | case3 seen g hg hs e he hlook =>
    obtain ⟨k, hk⟩ := hc (g.pos.toward e)
    rw [hlook] at hk
    cases hk
  | case4 seen g hg hs e he hlook ih =>
    have hdrift := drift_black he hlook
    have hclear : ¬c.Coloured (c.drift g).pos := by
      rw [hdrift, ← h.now]
      exact h.clear n (Nat.le_refl n)
    refine ih (hdrift ▸ h.step hclear) (d := d.next) ?_
    rw [Glide.bounce, hd, Direction.turn_pointer]
  | case5 seen g hg hs e he hlook ih =>
    have hdrift := drift_open he (by rw [hlook]; decide)
    have hclear : ¬c.Coloured (c.drift g).pos := by
      rw [hdrift]
      rintro ⟨s, hs⟩
      rw [hlook] at hs
      cases hs
    exact ih (hdrift ▸ h.step hclear) hd
  | case6 seen g hg hs e he t hlook =>
    have hdrift := drift_open he (by rw [hlook]; simp)
    have hc : c.Coloured (c.drift g).pos := by
      rw [hdrift]
      exact ⟨t, hlook⟩
    refine ⟨some (g.pos.toward e), g, rfl, ?_, ?_⟩
    · rintro _ ⟨⟩
      exact hdrift ▸ h.lands hc
    · rintro ⟨⟩

end Canvas

/-- What is loaded is what the rows show. -/
theorem Picture.canvas_of_load {rows : List (List Rgb)} {init p : Picture}
    (h : load rows init = .ok () p) : p.canvas = Canvas.ofRows rows := by
  simp only [load] at h
  split at h <;> cases h
  rfl

/-- In a picture that was loaded, a slide from white with a sound heading ends and changes nothing
but the heading. It finds a position exactly when the bare rule comes to a codel of a shade, and
that is the first one, with the heading at that moment; it finds none exactly when the bare rule
never comes to one. -/
theorem slide_finds_first_shade {rows : List (List Rgb)} {init picture : Picture}
    (hload : Picture.load rows init = .ok () picture) {p : Pos}
    (hp : picture.canvas.look p = some .white) {m : Machine} (hm : m.Headed) :
    ∃ found m', picture.canvas.slide p m = .ok found m' ∧
      m'.stack = m.stack ∧ m'.input = m.input ∧ m'.output = m.output ∧
      (∀ q, found = some q ↔ ∃ g, picture.canvas.Lands ⟨p, m.pointer, m.chooser⟩ g ∧ g.pos = q) ∧
      (∀ g, picture.canvas.Lands ⟨p, m.pointer, m.chooser⟩ g →
        m'.pointer = g.pointer ∧ m'.chooser = g.chooser) ∧
      (found = none ↔ ∀ n, ¬picture.canvas.Coloured
        (picture.canvas.drift^[n] ⟨p, m.pointer, m.chooser⟩).pos) := by
  have hfull := (Picture.whole_of_load hload).full
  obtain ⟨d, s, hface⟩ := hm.exists_facing
  have hd : m.pointer = d.pointer := by rw [hface, Machine.facing_pointer]
  have hwhite : ¬picture.canvas.Coloured p := by
    rintro ⟨t, ht⟩
    rw [hp] at ht
    cases ht
  obtain ⟨found, g', hglide, hsome, hnone⟩ := Canvas.glide_spec hfull
    (picture.canvas.reachedFrom_self ⟨p, m.pointer, m.chooser⟩) (.zero hwhite) hd
  have hslide : picture.canvas.slide p m =
      .ok found { m with pointer := g'.pointer, chooser := g'.chooser } := by
    rw [Canvas.slide, hglide]
  have hlands (g : Glide) (hg : picture.canvas.Lands ⟨p, m.pointer, m.chooser⟩ g) :
      found = some g.pos ∧ g'.pointer = g.pointer ∧ g'.chooser = g.chooser := by
    cases hfound : found with
    | none =>
      obtain ⟨n, rfl, hshade, -⟩ := hg
      exact absurd hshade (hnone hfound n)
    | some q =>
      obtain rfl := hg.unique (hsome q hfound)
      exact ⟨rfl, rfl, rfl⟩
  refine ⟨found, _, hslide, rfl, rfl, rfl, ?_, fun g hg ↦ (hlands g hg).2, hnone, ?_⟩
  · intro q
    constructor
    · intro hq
      exact ⟨_, hsome q hq, rfl⟩
    · rintro ⟨g, hg, rfl⟩
      exact (hlands g hg).1
  · intro hnever
    by_contra hne
    obtain ⟨q, hq⟩ := Option.ne_none_iff_exists'.mp hne
    obtain ⟨n, hn, hshade, -⟩ := hsome q hq
    exact hnever n (by rwa [hn])

/-- Around a corner of white to red, with the heading turned on the way; and a white codel between
black ones, where a slide is trapped. -/
theorem slide_finds_first_shade_corner :
    ∃ picture, Picture.load [[.white, .white, .black], [.black, ⟨0xFF, 0x00, 0x00⟩, .black],
        [.white, .black, .black]] {} = .ok () picture ∧
      picture.canvas.look (0, 0) = some .white ∧ picture.canvas.look (0, 2) = some .white ∧
      (∃ m', picture.canvas.slide (0, 0) {} = .ok (some (1, 1)) m' ∧
        m'.pointer = Direction.down.pointer ∧ m'.chooser = Side.right.chooser) ∧
      ∃ m', picture.canvas.slide (0, 2) {} = .ok none m' := by
  have hrows : Rows.Rectangular [[.white, .white, .black], [.black, ⟨0xFF, 0x00, 0x00⟩, .black],
    [.white, .black, .black]] := ⟨3, by decide⟩
  obtain ⟨picture, hload, -⟩ := Picture.exists_renders hrows {}
  have hcanvas := Picture.canvas_of_load hload
  have hlook : picture.canvas.look (0, 0) = some .white := by
    rw [hcanvas]
    decide
  have hlook' : picture.canvas.look (0, 2) = some .white := by
    rw [hcanvas]
    decide
  have hm : ({} : Machine).Headed := Machine.headed_facing {} .right .left
  obtain ⟨found, m', hslide, -, -, -, hfound, hheading, -⟩ :=
    slide_finds_first_shade hload hlook hm
  obtain ⟨found', m'', hslide', -, -, -, -, -, hnone⟩ := slide_finds_first_shade hload hlook' hm
  have hlands : picture.canvas.Lands ⟨(0, 0), ⟨0⟩, ⟨0⟩⟩
      ⟨(1, 1), Direction.down.pointer, Side.right.chooser⟩ := by
    rw [hcanvas]
    exact ⟨3, by decide, ⟨⟨0, 1⟩, by decide⟩, by decide⟩
  -- four bounces lead back to the first heading
  have hback : picture.canvas.drift^[0] ⟨(0, 2), ⟨0⟩, ⟨0⟩⟩ =
      picture.canvas.drift^[4] ⟨(0, 2), ⟨0⟩, ⟨0⟩⟩ := by
    rw [hcanvas]
    decide
  have hclear : ∀ j < 4,
      ¬picture.canvas.Coloured (picture.canvas.drift^[j] ⟨(0, 2), ⟨0⟩, ⟨0⟩⟩).pos := by
    rw [hcanvas]
    decide
  have htrap (n : Nat) :
      ¬picture.canvas.Coloured (picture.canvas.drift^[n] ⟨(0, 2), ⟨0⟩, ⟨0⟩⟩).pos := by
    obtain ⟨j, hj, heq⟩ := exists_iterate_lt (by decide) hback n
    rw [heq]
    exact hclear j hj
  rw [(hfound (1, 1)).mpr ⟨_, hlands, rfl⟩] at hslide
  rw [hnone.mpr htrap] at hslide'
  exact ⟨picture, hload, hlook, hlook', ⟨m', hslide, hheading _ hlands⟩, m'', hslide'⟩

end BrainPiet
