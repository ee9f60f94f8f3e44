import BrainPiet.Proofs.Picture.Blocks
import BrainPiet.Proofs.Picture.Outcome
import BrainPiet.Proofs.Safety

/-!
# Runs of arbitrary pictures

Whatever picture was loaded, and whatever the input is, the walk of a run stands in a block with a
sound heading wherever it comes to, reads its input from the front and writes its output at the end.
So a run gives an output, finds no start, reaches its limit, or fails on a number.
-/

namespace BrainPiet

namespace Picture

/-- The walk stands in a block, with a sound heading. -/
structure Settled (p : Picture) (w : Walker) : Prop where
  stands : p.Stands w.pos
  headed : w.machine.Headed

variable {p : Picture} {a w : Walker} {ops : List (Option Operation)} {n : Nat} {m : Machine}

/-- A step that moves on leads from one such place to another. -/
theorem Whole.settled_step (hp : p.Whole) (hw : p.Settled w) {pos : Pos} {op : Option Operation}
    (hstep : p.step w.pos w.machine = .ok ⟨some pos, op⟩ m) :
    p.Settled ⟨m, pos⟩ ∧ w.machine.Continues m := by
  have hends := hp.ends_step hw.stands hw.headed
  rw [hstep] at hends
  obtain ⟨hcont, hstand⟩ := hends
  exact ⟨⟨hstand pos rfl, hcont.headed hw.headed⟩, hcont⟩

/-- All places that a walk comes to are such, and their machines continue that of the start. -/
theorem Whole.settled_of_visits (hp : p.Whole) (ha : p.Settled a) (h : p.Visits a ops w) :
    p.Settled w ∧ a.machine.Continues w.machine := by
  induction h with
  | start => exact ⟨ha, .refl _⟩
  | step _ hstep ih =>
    obtain ⟨hsettled, hcont⟩ := hp.settled_step ih.1 hstep
    exact ⟨hsettled, ih.2.trans hcont⟩

private theorem Whole.walk_of_visits (hp : p.Whole) (hw : p.Settled w) (h : p.Visits a ops w) :
    (∃ r, p.walk n w.machine w.pos = .ok r) ∨
      ∃ fault ops w', p.walk n w.machine w.pos = .error (.number fault) ∧ p.Visits a ops w' ∧
        p.Balks w'.pos w'.machine fault := by
  induction n generalizing ops w with
  | zero => exact .inl ⟨none, rfl⟩
  | succ n ih =>
    have hends := hp.ends_step hw.stands hw.headed
    rw [walk]
    cases hstep : p.step w.pos w.machine with
    | error fault m =>
      rw [hstep] at hends
      obtain ⟨-, number, rfl, hbalks⟩ := hends
      exact .inr ⟨number, ops, w, rfl, h, hbalks⟩
    | ok arrival m =>
      obtain ⟨pos, op⟩ := arrival
      cases pos with
      | none => exact .inl ⟨some m, rfl⟩
      | some pos => exact ih (hp.settled_step hw hstep).1 (h.step hstep)

/-- A walk that halts has come to all places that are visited on the way, and goes on from them. -/
theorem Visits.exists_walk (h : p.Visits a ops w) (hwalk : p.walk n a.machine a.pos = .ok (some m)) :
    ∃ k, p.walk k w.machine w.pos = .ok (some m) := by
  induction h with
  | start => exact ⟨n, hwalk⟩
  | step _ hstep ih =>
    obtain ⟨k, hk⟩ := ih
    cases k with
    | zero => cases hk
    | succ k =>
      simp only [walk, hstep] at hk
      exact ⟨k, hk⟩

private theorem Whole.continues_walk (hp : p.Whole) (hw : p.Settled w)
    (h : p.walk n w.machine w.pos = .ok (some m)) : w.machine.Continues m := by
  induction n generalizing w with
  | zero => cases h
  | succ n ih =>
    have hends := hp.ends_step hw.stands hw.headed
    rw [walk] at h
    cases hstep : p.step w.pos w.machine with
    | error fault m' =>
      rw [hstep] at h
      cases h
    | ok arrival m' =>
      obtain ⟨pos, op⟩ := arrival
      simp only [hstep] at h hends
      cases pos with
      | none =>
        cases h
        exact hends.1
      | some pos => exact hends.1.trans (ih (hp.settled_step hw hstep).1 h)

private theorem Whole.settled_start (hp : p.Whole) {start : Pos} (h : p.start? = some start)
    (input : List UInt8) : p.Settled ⟨{ input }, start⟩ := by
  obtain ⟨rfl, hstand⟩ := hp.start?_eq_some.mp h
  exact ⟨hstand, Machine.headed_facing { input } .right .left⟩

end Picture

end BrainPiet
