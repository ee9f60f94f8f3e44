import BrainPiet.Proofs.Machine.Progress
import BrainPiet.Proofs.Picture.Step

/-!
# How a step ends

A picture that was loaded is whole: no codel is missing, and the codels of a shade are those that
stand in a block. In a whole picture a walk with a sound heading steps from block to block. Each of
its steps moves on to a codel of a shade, halts, or fails on a number that cannot be read or written.
-/

namespace BrainPiet

namespace Canvas

variable {c : Canvas}

private theorem exists_glide (hc : c.Full) (start : Glide) (seen : Std.HashSet Glide) (g : Glide)
    (hg : c.ReachedFrom start g) {d : Direction} {s : Side} (hd : g.pointer = d.pointer)
    (hs : g.chooser = s.chooser) :
    ∃ found pos, ∃ (d' : Direction) (s' : Side),
      c.glide start seen g hg = .ok (found, ⟨pos, d'.pointer, s'.chooser⟩) ∧
      ∀ q, found = some q → ∃ t, c.look q = some (.shade t) := by
  fun_induction Canvas.glide c start seen g hg generalizing d s with
  | case1 seen g =>
    refine ⟨none, g.pos, d, s, ?_, ?_⟩
    · rw [← hd, ← hs]
    · rintro _ ⟨⟩
  | case2 seen g hg hseen hnone =>
    rw [hd, Direction.direction?_pointer] at hnone
    cases hnone
  | case3 seen g hg hseen e he hlook =>
    obtain ⟨k, hk⟩ := hc (g.pos.toward e)
    rw [hlook] at hk
    cases hk
  | case4 seen g hg hseen e he hlook ih =>
    apply ih (d := d.next) (s := s.other)
    · rw [Glide.bounce, hd, Direction.turn_pointer]
    · rw [Glide.bounce, hs, Side.flip_chooser]
  | case5 seen g hg hseen e he hlook ih => exact ih hd hs
  | case6 seen g hg hseen e he t hlook =>
    refine ⟨some (g.pos.toward e), g.pos, d, s, ?_, ?_⟩
    · rw [← hd, ← hs]
    · rintro _ ⟨⟩
      exact ⟨t, hlook⟩

private theorem exists_slide (hc : c.Full) (p : Pos) (m : Machine) (d : Direction) (s : Side) :
    ∃ found d' s', c.slide p (m.facing d s) = .ok found (m.facing d' s') ∧
      ∀ q, found = some q → ∃ t, c.look q = some (.shade t) := by
  obtain ⟨found, pos, d', s', hglide, hfound⟩ :=
    exists_glide hc ⟨p, d.pointer, s.chooser⟩ ∅ _ (c.reachedFrom_self _) rfl rfl
  refine ⟨found, d', s', ?_, hfound⟩
  simp only [slide, Machine.facing_pointer, Machine.facing_chooser, hglide]
  rfl

end Canvas

namespace Picture

/-- The position is a codel of a shade, and the block of its label holds it. -/
def Stands (p : Picture) (pos : Pos) : Prop :=
  ∃ s id members, p.canvas.look pos = some (.shade s) ∧ p.parts.labels[pos]? = some id ∧
    p.parts.blocks[id]? = some members ∧ pos ∈ members

/-- No codel is missing, and the codels of a shade are those that have a label. -/
structure Whole (p : Picture) : Prop where
  full : p.canvas.Full
  stands : ∀ q s, p.canvas.look q = some (.shade s) → p.Stands q
  shade : ∀ (q : Pos) (id : Nat), p.parts.labels[q]? = some id →
    ∃ s, p.canvas.look q = some (.shade s)

/-- A picture that was loaded is whole. -/
theorem whole_of_load {rows : List (List Rgb)} {init p : Picture}
    (h : load rows init = .ok () p) : p.Whole := by
  simp only [load] at h
  split at h
  · next parts hpart =>
    cases h
    have hfull := Canvas.full_of_partition hpart
    obtain ⟨parts', hpart', hdiv, hall⟩ := Canvas.partition_spec hfull
    rw [hpart] at hpart'
    cases hpart'
    refine ⟨hfull, ?_, fun q id hq ↦ hdiv.exists_shade hq⟩
    intro q s hq
    obtain ⟨id, hid⟩ := Option.ne_none_iff_exists'.mp (hall q s hq)
    obtain ⟨members, hmem, hin⟩ := (hdiv.label q id).mp hid
    exact ⟨s, id, members, hq, hid, hmem, hin⟩
  · cases h

variable {p : Picture}

/-- The walk starts in the corner, if that has a shade. -/
theorem Whole.start?_eq_some (hp : p.Whole) {start : Pos} :
    p.start? = some start ↔ start = (0, 0) ∧ p.Stands (0, 0) := by
  constructor
  · intro h
    unfold start? at h
    split at h
    · next hcond =>
      cases h
      rw [Bool.and_eq_true, Std.HashMap.contains_eq_isSome_getElem?,
        Option.isSome_iff_exists] at hcond
      obtain ⟨-, id, hid⟩ := hcond
      obtain ⟨s, hs⟩ := hp.shade _ id hid
      exact ⟨rfl, hp.stands _ s hs⟩
    · cases h
  · rintro ⟨rfl, s, id, members, -, hid, hmem, -⟩
    exact start?_of_block hid hmem

variable {m m' : Machine} {block : List Pos} {as : List Adjustment} {d : Direction} {side : Side}
  {s : Shade} {pos next : Pos}

private theorem opening?_facing (h : p.opening? block as (m.facing d side) = some (next, m')) :
    (∃ d' side', m' = m.facing d' side') ∧ p.canvas.look next ≠ some .black := by
  induction as generalizing d side with
  | nil => cases h
  | cons a rest ih =>
    rw [opening?] at h
    cases hexit : exit? block (m.facing d side).pointer (m.facing d side).chooser with
    | none => rw [hexit] at h; cases h
    | some found =>
      rw [hexit, Option.bind_some] at h
      dsimp only at h
      split at h
      · cases a with
        | flip => exact ih (by rwa [Adjustment.apply_flip] at h)
        | turn => exact ih (by rwa [Adjustment.apply_turn] at h)
      · next hblack =>
        cases h
        exact ⟨⟨d, side, rfl⟩, hblack⟩

private theorem leave_of_no_opening (hne : block ≠ [])
    (h : p.opening? block as (m.facing d side) = none) :
    ∃ d' side', p.leave block s as (m.facing d side) = .ok ⟨none, none⟩ (m.facing d' side') := by
  induction as generalizing d side with
  | nil => exact ⟨d, side, rfl⟩
  | cons a rest ih =>
    obtain ⟨e, he⟩ := exists_edge d side hne
    rw [opening?, Machine.facing_pointer, Machine.facing_chooser, exit?_eq_some he,
      Option.bind_some] at h
    dsimp only at h
    split at h
    · next hblack =>
      simp only [leave, Machine.facing_pointer, Machine.facing_chooser, exit?_eq_some he, hblack]
      cases a with
      | flip =>
        rw [Adjustment.apply_flip] at h ⊢
        exact ih h
      | turn =>
        rw [Adjustment.apply_turn] at h ⊢
        exact ih h
    · cases h

/-- The walk is about to execute an operation that fails on a number. -/
def Balks (p : Picture) (pos : Pos) (m : Machine) (fault : NumberFault) : Prop :=
  ∃ s t next m' op, p.canvas.look pos = some (.shade s) ∧ p.doorway? pos m = some (next, m') ∧
    p.canvas.look next = some (.shade t) ∧ Shade.between s t = some op ∧ m'.Balks op fault

/-- How a step may end: it moves on to a codel of a shade, halts, or fails on a number. -/
def Ends (p : Picture) (pos : Pos) (m : Machine) :
    EStateM.Result WalkFault Machine Arrival → Prop
  | .ok arrival m' => m.Continues m' ∧ ∀ q, arrival.pos = some q → p.Stands q
  | .error fault m' => m.Continues m' ∧ ∃ number, fault = .number number ∧ p.Balks pos m number

private theorem Whole.ends_white (hp : p.Whole) {a : Adjustment} {rest : List Adjustment} {e : Pos}
    {d' : Direction}
    (hexit : exit? block (m.facing d side).pointer (m.facing d side).chooser = some (e, d'))
    (hk : p.canvas.look (e.toward d') = some .white) :
    p.Ends pos m (p.leave block s (a :: rest) (m.facing d side)) := by
  obtain ⟨found, d₁, side₁, hslide, hfound⟩ :=
    Canvas.exists_slide hp.full (e.toward d') m d side
  simp only [leave, hexit, hk, hslide]
  refine ⟨m.continues_facing d₁ side₁, ?_⟩
  intro q hq
  obtain ⟨t, ht⟩ := hfound q hq
  exact hp.stands q t ht

private theorem Whole.ends_shade (hp : p.Whole) {a : Adjustment} {rest : List Adjustment} {e : Pos}
    {d' : Direction} {t : Shade} (hcont : m.Continues m')
    (hlook : p.canvas.look pos = some (.shade s)) (hdoor : p.doorway? pos m = some (e.toward d', m'))
    (hexit : exit? block m'.pointer m'.chooser = some (e, d'))
    (hk : p.canvas.look (e.toward d') = some (.shade t)) :
    p.Ends pos m (p.leave block s (a :: rest) m') := by
  have hstand : ∀ q, some (e.toward d') = some q → p.Stands q := by
    rintro _ ⟨⟩
    exact hp.stands _ t hk
  simp only [leave, hexit, hk]
  cases hop : Shade.between s t with
  | none => exact ⟨hcont, hstand⟩
  | some op =>
    dsimp only
    cases hex : Machine.execute op block.length m' with
    | ok _ m'' =>
      have hafter := hcont.trans (Machine.alters_of_ok hex).continues
      exact ⟨hafter, hstand⟩
    | error fault m'' =>
      have hafter := hcont.trans (Machine.alters_of_error hex).continues
      exact ⟨hafter, fault, rfl, s, t, _, m', op, hlook, hdoor, hk, hop,
        Machine.balks_of_execute hex⟩

/-- In a whole picture each step of a walk that stands in a block, with a sound heading, ends so. -/
theorem Whole.ends_step (hp : p.Whole) (hpos : p.Stands pos) (hm : m.Headed) :
    p.Ends pos m (p.step pos m) := by
  obtain ⟨s, id, block, hlook, hid, hblock, hin⟩ := hpos
  obtain ⟨d, side, hface⟩ := hm.exists_facing
  have hstep : p.step pos m = p.leave block s Adjustment.attempts m := by
    simp only [step, hid, hblock, hlook]
  have hdoor : p.doorway? pos m = p.opening? block Adjustment.attempts m := by
    rw [doorway?, hid, Option.bind_some, hblock, Option.bind_some]
  rw [hstep]
  cases hopen : p.opening? block Adjustment.attempts m with
  | none =>
    obtain ⟨d', side', hleave⟩ :=
      leave_of_no_opening (s := s) (List.ne_nil_of_mem hin) (hface ▸ hopen)
    rw [← hface] at hleave
    rw [hleave]
    refine ⟨m.continues_facing d' side', ?_⟩
    rintro _ ⟨⟩
  | some found =>
    obtain ⟨next, m'⟩ := found
    rw [hopen] at hdoor
    obtain ⟨a, rest, e, d', hexit, rfl, hleave⟩ := leave_of_opening (s := s) hopen
    obtain ⟨⟨d'', side', rfl⟩, hblack⟩ := opening?_facing (hface ▸ hopen)
    rw [hleave]
    obtain ⟨k, hk⟩ := hp.full (e.toward d')
    cases k with
    | black => exact absurd hk hblack
    | white => exact hp.ends_white hexit hk
    | shade t => exact hp.ends_shade (m.continues_facing d'' side') hlook hdoor hexit hk

end Picture

end BrainPiet
