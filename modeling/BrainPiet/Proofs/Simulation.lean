import BrainPiet.Proofs.Limit
import BrainPiet.Proofs.Machine.Tape
import BrainPiet.Proofs.Walk.Layout
import BrainPiet.Proofs.Walk.Opening

/-!
# A picture runs the program it was drawn for

Along the lane a walk carries the tape on its stack. Where a program halts the walk comes to the end
of the lane with the same tape, input and output, and as long as a program runs the walk does not
halt.
-/

namespace BrainPiet

open Template (laneRow)

private theorem Machine.Carries.three_le {m : Machine} {w : TapeWorld} (h : m.Carries w) :
    3 ≤ m.stack.length := by
  rw [h.stack, Tape.toStack]
  simp only [List.length_cons]
  omega

private theorem Machine.Carries.stack_zero {m : Machine} {w : TapeWorld} (h : m.Carries w)
    (hzero : w.tape.cell = 0) : m.stack = 0 :: w.tape.toStack.tail := by
  rw [h.stack, ← hzero]
  rfl

namespace Picture

/-- What a walk does while a program runs: it comes to the end of the program with its result, or it
takes as many steps as the program has rounds. -/
def Follows (p : Picture) (e : Cursor) (fuel : Nat) (a : Walker) : TapeEnd → Prop
  | .halted w => ∃ ops b m, p.Path 2 ops a b ∧ m.Carries w ∧ p.Alike b (e.station m)
  | .unfinished => ∃ ops b, p.Path 2 ops a b ∧ fuel ≤ ops.length
  | .fell => True

variable {p : Picture} {e : Cursor} {fuel : Nat} {a b : Walker} {r : TapeEnd}

/-- Fewer rounds need fewer steps. -/
theorem Follows.mono (h : p.Follows e fuel a r) {k : Nat} (hk : k ≤ fuel) : p.Follows e k a r := by
  cases r with
  | halted w => exact h
  | unfinished =>
    obtain ⟨ops, b, hpath, hfuel⟩ := h
    exact ⟨ops, b, hpath, by omega⟩
  | fell => trivial

/-- Each step of a path before makes up for one round. -/
theorem Follows.of_path {ops : List (Option Operation)} (h : p.Follows e fuel b r)
    (hpath : p.Path 2 ops a b) : p.Follows e (ops.length + fuel) a r := by
  cases r with
  | halted w =>
    obtain ⟨more, b', m, hmore, hm, hb'⟩ := h
    exact ⟨ops ++ more, b', m, hpath.trans hmore, hm, hb'⟩
  | unfinished =>
    obtain ⟨more, b', hmore, hfuel⟩ := h
    exact ⟨ops ++ more, b', hpath.trans hmore, by rw [List.length_append]; omega⟩
  | fell => trivial

/-- What leads to a place makes up for one round at least. -/
theorem Follows.of_leads (h : p.Follows e fuel b r) (hab : p.Leads a b) :
    p.Follows e (fuel + 1) a r := by
  obtain ⟨ops, hne, hpath⟩ := hab
  have hlen := List.length_pos_iff.mpr hne
  exact (h.of_path hpath).mono (by omega)

end Picture

/-- A walk along the lane follows the run of the program there. The induction is on the run: behind
the body of a loop it goes on with the whole loop and one round less. -/
theorem TapeProgram.Laid.follows {p : Picture} {D : Nat} {view : Pos → Codel}
    (hr : p.Renders view) {q : TapeProgram} {depth : Nat} {c e : Cursor}
    (h : q.Laid D view depth c e) (fuel : Nat) {w : TapeWorld} {m : Machine} (hm : m.Carries w)
    {a : Walker} (ha : p.Alike a (c.station m)) : p.Follows e fuel a (q.run fuel w) := by
  have hrefl {c : Cursor} {m : Machine} : p.Alike (c.station m) (c.station m) :=
    .refl (c.clear_station m)
  induction fuel, q, w using TapeProgram.run.induct generalizing depth c e m a with
  | case1 fuel w =>
    obtain rfl : c = e := h
    rw [run]
    exact ⟨[], a, m, .nil a, hm, ha⟩
  | case2 fuel symbol next w hfell =>
    rw [run, hfell]
    trivial
  | case3 fuel symbol next w w' hact ih =>
    obtain ⟨haction, hshown, hnext⟩ := h
    rw [run, hact]
    exact ((ih hnext (hm.act hact) hrefl).of_leads
      (ha.leads (hr.leads_act haction hshown hm.three_le))).mono (Nat.le_succ _)
  | case4 body next w hzero ih =>
    obtain ⟨z, -, hloop, hnext⟩ := h
    rw [run, if_pos hzero]
    exact ((ih hnext hm hrefl).of_leads
      (ha.leads (hr.leads_behind hloop hm.three_le (hm.stack_zero hzero)))).mono (Nat.le_succ _)
  | case5 body next w hcell =>
    rw [run, if_neg hcell]
    exact ⟨[], a, .nil a, Nat.le_refl 0⟩
  | case6 fuel body next w hzero ih =>
    obtain ⟨z, -, hloop, hnext⟩ := h
    rw [run, if_pos hzero]
    exact ((ih hnext hm hrefl).of_leads
      (ha.leads (hr.leads_behind hloop hm.three_le (hm.stack_zero hzero)))).mono (Nat.le_succ _)
  | case7 fuel body next w hcell w' hbody ihb ih =>
    have hlaid := h
    obtain ⟨z, hinner, hloop, -⟩ := h
    have henter := ha.leads (hr.leads_body hloop hm.three_le hm.stack hcell)
    have hround := ihb hinner hm hrefl
    rw [hbody] at hround
    obtain ⟨ops, b, m', hpath, hm', hb⟩ := hround
    obtain ⟨back, hback, halike⟩ := hr.leads_back hloop hm'.three_le
    have hagain := ih hlaid hm' halike
    rw [run, if_neg hcell, hbody]
    have hfirst := (hagain.of_leads (hb.leads hback)).of_path hpath
    exact (hfirst.mono (by omega)).of_leads henter
  | case8 fuel body next w hcell hbody ihb =>
    rw [run, if_neg hcell, hbody]
    trivial
  | case9 fuel body next w hcell hbody ihb =>
    obtain ⟨z, hinner, hloop, -⟩ := h
    have hround := ihb hinner hm hrefl
    rw [hbody] at hround
    rw [run, if_neg hcell, hbody]
    exact hround.of_leads (ha.leads (hr.leads_body hloop hm.three_le hm.stack hcell))

/-- A walk at the end of the lane halts after two steps. -/
theorem Picture.Renders.walk_last {p : Picture} {view : Pos → Codel} {e : Cursor} {m : Machine}
    {a : Walker} (hr : p.Renders view) (h : EndShown view e) (hm : 2 ≤ m.stack.length)
    (ha : p.Alike a (e.station m)) (k : Nat) :
    p.walk (2 + k) a.machine a.pos = .ok (some (m.facing .right .left)) := by
  have hpath := ha.path (hr.treads_last h hm).path (List.cons_ne_nil _ _)
  have hhalt := (hr.step_last h m .right .left).1
  have hwalk := hpath.walk_add (k + 1)
  rw [List.length_singleton, walk] at hwalk
  simp only [hhalt] at hwalk
  rw [← hwalk]
  congr 1
  omega

/-- From where it enters the lane on, the walk follows the run of the program. -/
theorem Drawn.follows {D : Nat} {code : List Instruction} {g : Grid} {p : Picture}
    (h : Drawn D code g) (hr : p.Renders g.codel) {q : TapeProgram} (hq : q.Plain)
    (hcode : q.instructions 0 = code) {m : Machine} {w : TapeWorld} (hm : m.Carries w)
    (fuel : Nat) : p.Follows ((Cursor.start code).run D code) fuel (Picture.laneEntry g.codel m)
      (q.run fuel w) := by
  have hlaid := h.laid hq 0 [] [] (by rw [List.nil_append, List.append_nil, hcode])
  rw [List.nil_append, hcode] at hlaid
  obtain ⟨ops, a, hpath, ha⟩ := h.path_entry hr (Nat.le_of_succ_le hm.three_le)
  exact ((hlaid.follows hr fuel hm ha).of_path hpath).mono (Nat.le_add_left _ _)

/-- Where a program halts, its picture gives the output of the program within all large limits. -/
theorem Drawn.exists_limit {D : Nat} {code : List Instruction} {g : Grid} {p : Picture}
    (h : Drawn D code g) (hr : p.Renders g.codel) {q : TapeProgram} (hq : q.Plain)
    (hcode : q.instructions 0 = code) {input : List UInt8} {fuel : Nat} {w : TapeWorld}
    (hrun : q.run fuel { input } = .halted w) :
    ∃ least : Nat, ∀ limit : Int, least ≤ limit → p.run input limit = .ok w.output := by
  have hopening := h.openingShown
  have hcorner : g.codel (0, 0) = .shade ⟨0, 0⟩ := hopening.shade (by decide) (by decide)
  have hcarries : (Machine.setStack { input } [0, 3, 3]).Carries { input } := ⟨rfl, rfl, rfl⟩
  have hfollows := h.follows hr hq hcode hcarries fuel
  rw [hrun] at hfollows
  obtain ⟨ops, b, m, hpath, hm, hb⟩ := hfollows
  have hroute := (hr.path_prologue hopening input).trans (hpath.mono (Nat.zero_le 2))
  refine ⟨(Picture.prologueOps ++ ops).length + 2, ?_⟩
  intro limit hlimit
  obtain ⟨k, hk⟩ : ∃ k, limit.toNat = (Picture.prologueOps ++ ops).length + (2 + k) :=
    ⟨limit.toNat - ((Picture.prologueOps ++ ops).length + 2), by omega⟩
  have hwalk : p.walk limit.toNat { input } (0, 0) = .ok (some (m.facing .right .left)) := by
    rw [hk]
    apply (hroute.walk_add (2 + k)).trans
    exact hr.walk_last h.ending (Nat.le_of_succ_le hm.three_le) hb k
  exact Picture.run_eq_ok_iff.mpr ⟨(0, 0), _, hr.start?_eq hcorner, hwalk, hm.output⟩

/-- Where a program goes on forever, the run of its picture expires within every limit. -/
theorem Drawn.expires {D : Nat} {code : List Instruction} {g : Grid} {p : Picture}
    (h : Drawn D code g) (hr : p.Renders g.codel) {q : TapeProgram} (hq : q.Plain)
    (hcode : q.instructions 0 = code) {input : List UInt8}
    (hforever : ∀ fuel, q.run fuel { input } = .unfinished) (limit : Int) :
    p.Expires input limit := by
  have hopening := h.openingShown
  have hcorner : g.codel (0, 0) = .shade ⟨0, 0⟩ := hopening.shade (by decide) (by decide)
  have hcarries : (Machine.setStack { input } [0, 3, 3]).Carries { input } := ⟨rfl, rfl, rfl⟩
  have hfollows := h.follows hr hq hcode hcarries limit.toNat
  rw [hforever] at hfollows
  obtain ⟨ops, b, hpath, hlen⟩ := hfollows
  have hroute := (hr.path_prologue hopening input).trans (hpath.mono (Nat.zero_le 2))
  refine Picture.expires_iff.mpr ⟨(0, 0), hr.start?_eq hcorner, ?_⟩
  exact hroute.walk_le (show limit.toNat ≤ _ by rw [List.length_append]; omega)

private theorem run_spin (input : List UInt8) (fuel : Nat) :
    (TapeProgram.act .increment (.loop .done .done)).run fuel { input } = .unfinished := by
  have hloop (w : TapeWorld) (hcell : w.tape.cell = 1) (fuel : Nat) :
      (TapeProgram.loop .done .done).run fuel w = .unfinished := by
    induction fuel with
    | zero => simp [TapeProgram.run, hcell]
    | succ fuel ih => simp [TapeProgram.run, hcell, ih]
  rw [TapeProgram.run]
  exact hloop _ rfl fuel

end BrainPiet
