import BrainPiet.Proofs.Picture.Edge
import Mathlib.Logic.Relation

/-!
# Gliding over white

A glide moves on over white, and black makes it bounce. `Canvas.Glides` is this rule repeated any
number of times, with no regard to what was seen before. Over a straight stretch of white that ends
at a codel of a shade, a slide keeps its heading and arrives at that codel.
-/

namespace BrainPiet

/-- The position some codels ahead in a direction. -/
def Pos.ahead (p : Pos) (d : Direction) (k : Nat) : Pos := (p.1 + k * d.dx, p.2 + k * d.dy)

@[simp] theorem Pos.ahead_zero (p : Pos) (d : Direction) : p.ahead d 0 = p := by
  simp [Pos.ahead]

/-- The neighbour of a position ahead is one codel further ahead. -/
theorem Pos.toward_ahead (p : Pos) (d : Direction) (k : Nat) :
    (p.ahead d k).toward d = p.ahead d (k + 1) := by
  cases d <;> simp [Pos.ahead, Pos.toward, Direction.dx, Direction.dy] <;> omega

/-- To go ahead from a neighbour is to go one codel further. -/
theorem Pos.ahead_toward (p : Pos) (d : Direction) (k : Nat) :
    (p.toward d).ahead d k = p.ahead d (k + 1) := by
  cases d <;> simp [Pos.ahead, Pos.toward, Direction.dx, Direction.dy] <;> omega

private theorem Pos.ahead_succ_ne (p : Pos) (d : Direction) (k : Nat) : p.ahead d (k + 1) ≠ p := by
  intro h
  have hx := congrArg Prod.fst h
  have hy := congrArg Prod.snd h
  cases d <;> simp [Pos.ahead, Direction.dx, Direction.dy] at hx hy <;> omega

namespace Canvas

/-- The next place of a glide; there is none where it meets a shade. -/
def glideNext? (c : Canvas) (g : Glide) : Option Glide :=
  g.pointer.direction?.bind fun d ↦
    match c.look (g.pos.toward d) with
    | some .black => some g.bounce
    | some .white => some { g with pos := g.pos.toward d }
    | _ => none

/-- A glide comes from one place to another. -/
def Glides (c : Canvas) : Glide → Glide → Prop :=
  Relation.ReflTransGen fun g g' ↦ c.glideNext? g = some g'

variable {c : Canvas} {p : Pos} {d : Direction} {s : Side} {t : Shade}

/-- What a glide results in where it has no next place. -/
def glideEnd (c : Canvas) (g : Glide) : Except WalkFault (Option Pos × Glide) :=
  match g.pointer.direction? with
  | none => .error (.ofIndex g.pointer.quarters)
  | some d =>
    match c.look (g.pos.toward d) with
    | some (.shade _) => .ok (some (g.pos.toward d), g)
    | _ => .error .missing

/-- A glide that was seen before is trapped. -/
theorem glide_of_seen {start g : Glide} {seen : Std.HashSet Glide} (hg : c.ReachedFrom start g)
    (hs : seen.contains g = true) : c.glide start seen g hg = .ok (none, g) := by
  rw [glide]
  split
  · rfl
  · next h =>
    rw [hs] at h
    cases h

/-- A fresh glide goes on at its next place. -/
theorem glide_of_next {start g g' : Glide} {seen : Std.HashSet Glide} (hg : c.ReachedFrom start g)
    (hs : seen.contains g = false) (hnext : c.glideNext? g = some g') :
    ∃ hg', c.glide start seen g hg = c.glide start (seen.insert g) g' hg' := by
  rw [glide]
  split
  · next h =>
    rw [hs] at h
    cases h
  · split
    · next hd => simp [glideNext?, hd] at hnext
    · next d hd =>
      split
      · next hl => simp [glideNext?, hd, hl] at hnext
      · next hl =>
        obtain rfl : g.bounce = g' := by simpa [glideNext?, hd, hl] using hnext
        exact ⟨⟨hg.1, hg.2.bounce⟩, rfl⟩
      · next hl =>
        obtain rfl : { g with pos := g.pos.toward d } = g' := by
          simpa [glideNext?, hd, hl] using hnext
        exact ⟨⟨.inr (inside_of_look hl (by decide)), hg.2⟩, rfl⟩
      · next hl => simp [glideNext?, hd, hl] at hnext

/-- A fresh glide without a next place ends. -/
theorem glide_of_end {start g : Glide} {seen : Std.HashSet Glide} (hg : c.ReachedFrom start g)
    (hs : seen.contains g = false) (hnext : c.glideNext? g = none) :
    c.glide start seen g hg = c.glideEnd g := by
  rw [glide]
  split
  · next h =>
    rw [hs] at h
    cases h
  · split
    · next hd => simp [glideEnd, hd]
    · next d hd =>
      split
      · next hl => simp [glideEnd, hd, hl]
      · next hl => simp [glideNext?, hd, hl] at hnext
      · next hl => simp [glideNext?, hd, hl] at hnext
      · next hl => simp [glideEnd, hd, hl]

private theorem glide_ahead (start : Glide) (n : Nat) (seen : Std.HashSet Glide)
    (hg : c.ReachedFrom start ⟨p, d.pointer, s.chooser⟩)
    (hwhite : ∀ k < n, c.look (p.ahead d (k + 1)) = some .white)
    (hend : c.look (p.ahead d (n + 1)) = some (.shade t))
    (hseen : ∀ k ≤ n, seen.contains ⟨p.ahead d k, d.pointer, s.chooser⟩ = false) :
    c.glide start seen ⟨p, d.pointer, s.chooser⟩ hg =
      .ok (some (p.ahead d (n + 1)), ⟨p.ahead d n, d.pointer, s.chooser⟩) := by
  induction n generalizing p seen with
  | zero =>
    have h0 := hseen 0 (Nat.le_refl _)
    rw [Pos.ahead_zero] at h0
    rw [← Pos.toward_ahead, Pos.ahead_zero] at hend ⊢
    rw [glide_of_end hg h0 (by simp [glideNext?, hend])]
    simp [glideEnd, hend]
  | succ n ih =>
    have h0 := hseen 0 (Nat.zero_le _)
    rw [Pos.ahead_zero] at h0
    have hfirst := hwhite 0 (Nat.succ_pos n)
    rw [← Pos.toward_ahead, Pos.ahead_zero] at hfirst
    have hnext : c.glideNext? ⟨p, d.pointer, s.chooser⟩ =
        some ⟨p.toward d, d.pointer, s.chooser⟩ := by simp [glideNext?, hfirst]
    obtain ⟨hg', heq⟩ := glide_of_next hg h0 hnext
    have hrest : ∀ k ≤ n, (seen.insert ⟨p, d.pointer, s.chooser⟩).contains
        ⟨(p.toward d).ahead d k, d.pointer, s.chooser⟩ = false := by
      intro k hk
      rw [Pos.ahead_toward, Std.HashSet.contains_insert, hseen (k + 1) (by omega),
        Bool.or_false, beq_eq_false_iff_ne]
      intro heq
      exact Pos.ahead_succ_ne p d k (congrArg Glide.pos heq).symm
    rw [heq, ih _ hg' ?_ ?_ hrest]
    · simp only [Pos.ahead_toward]
    · intro k hk
      rw [Pos.ahead_toward]
      exact hwhite (k + 1) (by omega)
    · rw [Pos.ahead_toward]
      exact hend

/-- A slide over a straight stretch of white keeps its heading. -/
theorem slide_ahead (m : Machine) (n : Nat)
    (hwhite : ∀ k < n, c.look (p.ahead d (k + 1)) = some .white)
    (hend : c.look (p.ahead d (n + 1)) = some (.shade t)) :
    c.slide p (m.facing d s) = .ok (some (p.ahead d (n + 1))) (m.facing d s) := by
  have hg := glide_ahead (s := s) ⟨p, d.pointer, s.chooser⟩ n ∅
    (c.reachedFrom_self _) hwhite hend (by simp)
  simp only [slide, Machine.facing_pointer, Machine.facing_chooser, hg]
  rfl

/-- A straight glide touches the white codels of its stretch alone. -/
theorem Glides.straight {n : Nat} {g : Glide}
    (h : c.Glides ⟨p, d.pointer, s.chooser⟩ g)
    (hwhite : ∀ k < n, c.look (p.ahead d (k + 1)) = some .white)
    (hend : c.look (p.ahead d (n + 1)) = some (.shade t)) :
    ∃ k ≤ n, g = ⟨p.ahead d k, d.pointer, s.chooser⟩ := by
  induction h with
  | refl => exact ⟨0, Nat.zero_le _, by rw [Pos.ahead_zero]⟩
  | @tail a b _ hb ih =>
    obtain ⟨k, hk, rfl⟩ := ih
    simp only [glideNext?, Direction.direction?_pointer, Option.bind_some, Pos.toward_ahead] at hb
    rcases Nat.lt_or_eq_of_le hk with hk | rfl
    · rw [hwhite k hk] at hb
      exact ⟨k + 1, hk, (Option.some.inj hb).symm⟩
    · rw [hend] at hb
      cases hb

end Canvas

end BrainPiet
