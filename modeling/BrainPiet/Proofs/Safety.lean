import BrainPiet.Proofs.Limit
import BrainPiet.Proofs.Walk.Layout
import BrainPiet.Proofs.Walk.Opening

/-!
# A walk keeps to the lane

Whatever the values on the stack are, a walk through the picture of a program keeps clear of the
glyphs, finds two values on the stack from the prologue on, and halts nowhere but in the last column.
No step fails, so a run ends with an output or at its limit.
-/

namespace BrainPiet

open Template (laneRow)

namespace Picture

/-- The places that a walk comes to from its start, with what each step by then has executed. -/
inductive Visits (p : Picture) (a : Walker) : List (Option Operation) → Walker → Prop
  | start : Visits p a [] a
  | step {ops : List (Option Operation)} {w : Walker} {op : Option Operation} {pos : Pos}
    {m : Machine} : Visits p a ops w → p.step w.pos w.machine = .ok ⟨some pos, op⟩ m →
      Visits p a (ops ++ [op]) ⟨m, pos⟩

/-- The next step does not fail, and the walk halts in the given column only. -/
def StepsOn (p : Picture) (last : Int) (w : Walker) : Prop :=
  ∃ arrival m, p.step w.pos w.machine = .ok arrival m ∧
    (arrival.pos = none → w.pos.1 = last ∧ 4 ≤ w.pos.2 ∧ w.pos.2 ≤ 6 ∧ m = w.machine)

/-- A place that is clear of the glyphs, with two values on the stack. -/
structure Secure (p : Picture) (last : Int) (w : Walker) : Prop where
  clear : Clear w.pos
  crosses : ∀ q, p.Crosses w.pos w.machine q → Clear q
  height : 2 ≤ w.machine.stack.length
  steps : p.StepsOn last w

/-- All places that the walk comes to within some steps are secure. -/
def Safe (p : Picture) (last : Int) : Nat → Walker → Prop
  | 0, _ => True
  | n + 1, w => p.Secure last w ∧
      ∀ pos op m, p.step w.pos w.machine = .ok ⟨some pos, op⟩ m → p.Safe last n ⟨m, pos⟩

variable {p : Picture} {last : Int} {n k : Nat} {a b w : Walker} {ops : List (Option Operation)}

theorem Safe.mono (h : p.Safe last n w) (hk : k ≤ n) : p.Safe last k w := by
  induction n generalizing k w with
  | zero =>
    obtain rfl : k = 0 := by omega
    trivial
  | succ n ih =>
    cases k with
    | zero => trivial
    | succ k => exact ⟨h.1, fun pos op m hstep ↦ ih (h.2 pos op m hstep) (by omega)⟩

private theorem Treads.secure {op : Option Operation} (h : p.Treads 2 a op b) : p.Secure last a :=
  ⟨h.clear, h.crosses, h.height, _, _, h.step, fun hnone ↦ nomatch hnone⟩

/-- Where a path leads to a safe place, its start is safe for as many steps more. -/
theorem Path.safe (h : p.Path 2 ops a b) (hb : p.Safe last n b) :
    p.Safe last (ops.length + n) a := by
  induction h with
  | nil => rwa [List.length_nil, Nat.zero_add]
  | cons hstep _ ih =>
    rw [List.length_cons, Nat.add_right_comm]
    refine ⟨hstep.secure, ?_⟩
    intro pos op m hnext
    rw [hstep.step] at hnext
    cases hnext
    exact ih hb

/-- A place is safe if it leads to one that is safe for fewer steps. -/
theorem Leads.safe (h : p.Leads a b) (hb : ∀ k < n, p.Safe last k b) : p.Safe last n a := by
  obtain ⟨ops, hne, hpath⟩ := h
  cases n with
  | zero => trivial
  | succ n =>
    have hlen := List.length_pos_iff.mpr hne
    exact (hpath.safe (hb (n + 1 - ops.length) (by omega))).mono (by omega)

/-- What is visited from a safe place is safe for the steps that are left. -/
theorem Visits.safe (h : p.Visits a ops w) (ha : p.Safe last (ops.length + n) a) :
    p.Safe last n w := by
  induction h generalizing n with
  | start => rwa [List.length_nil, Nat.zero_add] at ha
  | step _ hstep ih =>
    rw [List.length_append, List.length_singleton, Nat.add_assoc, Nat.add_comm 1 n] at ha
    exact (ih ha).2 _ _ _ hstep

/-- Of a walk that follows a path, either the rest of the path is to come, or it has come to its end
and goes on from there. -/
theorem Visits.split {least : Nat} {route : List (Option Operation)} (h : p.Visits a ops w)
    (hroute : p.Path least route a b) :
    (∃ rest, rest ≠ [] ∧ route = ops ++ rest ∧ p.Path least rest w b) ∨
      ∃ more, ops = route ++ more ∧ p.Visits b more w := by
  induction h with
  | start =>
    cases hroute with
    | nil => exact .inr ⟨[], rfl, .start⟩
    | cons hstep hrest => exact .inl ⟨_, List.cons_ne_nil _ _, rfl, .cons hstep hrest⟩
  | @step ops w op pos m hvisit hstep ih =>
    rcases ih with ⟨rest, hne, rfl, hpath⟩ | ⟨more, rfl, hmore⟩
    · cases hpath with
      | nil => exact absurd rfl hne
      | @cons rest _ next _ op' htreads hrest =>
        have hnext := htreads.step
        rw [hstep] at hnext
        cases hnext
        cases hrest with
        | nil => exact .inr ⟨[], (List.append_nil _).symm, .start⟩
        | cons hstep' hrest' =>
          refine .inl ⟨_, List.cons_ne_nil _ _, ?_, .cons hstep' hrest'⟩
          rw [List.append_assoc]
          rfl
    · refine .inr ⟨more ++ [op], ?_, hmore.step hstep⟩
      rw [List.append_assoc]

private theorem Renders.safe_last {view : Pos → Codel} {e : Cursor} {m : Machine} (hr : p.Renders view)
    (h : EndShown view e) (hm : 3 ≤ m.stack.length) (hw : p.Alike w (e.station m)) (n : Nat) :
    p.Safe (e.x + 2) n w := by
  obtain ⟨hhalt, hcross⟩ := hr.step_last h m .right .left
  have hleads : p.Leads (e.station m) ⟨m.facing .right .left, (e.x + 2, laneRow)⟩ :=
    ⟨[none], List.cons_ne_nil _ _, (hr.treads_last h (by omega)).path⟩
  apply (hw.leads hleads).safe
  intro k _
  cases k with
  | zero => trivial
  | succ k =>
    refine ⟨⟨clear_of_row (show (4 : Int) ≤ laneRow by decide), fun q hq ↦ absurd hq (hcross q),
      Nat.le_of_succ_le hm, _, _, hhalt, fun _ ↦ ⟨rfl, show (4 : Int) ≤ laneRow by decide,
        show laneRow ≤ 6 by decide, rfl⟩⟩, ?_⟩
    intro pos op m' hstep
    rw [hhalt] at hstep
    cases hstep

end Picture

/-- A program along the lane is safe if what follows is. For a loop the number of steps decreases
from one round to the next, since the walk takes some steps to come back to the test. -/
theorem TapeProgram.Laid.safe {p : Picture} {D : Nat} {view : Pos → Codel} {last : Int}
    (hr : p.Renders view) {q : TapeProgram} {depth : Nat} {c e : Cursor}
    (h : q.Laid D view depth c e) {n : Nat}
    (hend : ∀ m w, 3 ≤ m.stack.length → p.Alike w (e.station m) → p.Safe last n w) (m : Machine)
    (w : Walker) (hm : 3 ≤ m.stack.length) (hw : p.Alike w (c.station m)) : p.Safe last n w := by
  induction q generalizing depth c e n m w with
  | done =>
    obtain rfl : c = e := h
    exact hend m w hm hw
  | act a next ih =>
    obtain ⟨ha, hshown, hnext⟩ := h
    have hlead := hw.leads (hr.leads_act ha hshown hm)
    apply hlead.safe
    intro k hk
    exact ih hnext (fun m w hm hw ↦ (hend m w hm hw).mono (by omega)) _ _
      (Machine.three_le_act hm a) (.refl (Cursor.clear_station _ _))
  | loop body next ihb ih =>
    obtain ⟨z, hbody, hloop, hnext⟩ := h
    induction n using Nat.strongRecOn generalizing m w with
    | ind n ihn =>
      obtain ⟨v, s, hs⟩ : ∃ v s, m.stack = v :: s :=
        List.exists_cons_of_ne_nil fun hnil ↦ by rw [hnil] at hm; cases hm
      by_cases hv : v = 0
      · subst hv
        apply (hw.leads (hr.leads_behind hloop hm hs)).safe
        intro k hk
        exact ih hnext (fun m w hm hw ↦ (hend m w hm hw).mono (by omega)) m _ hm
          (.refl (Cursor.clear_station _ _))
      · apply (hw.leads (hr.leads_body hloop hm hs hv)).safe
        intro k hk
        apply ihb hbody _ m _ hm (.refl (Cursor.clear_station _ _))
        -- behind the body the walk comes back to the test with fewer steps left
        intro m' w' hm' hw'
        obtain ⟨back, hback, halike⟩ := hr.leads_back hloop hm'
        apply (hw'.leads hback).safe
        intro j hj
        exact ihn j (by omega) (fun m w hm hw ↦ (hend m w hm hw).mono (by omega)) m' back hm' halike

private theorem Picture.Safe.walk {p : Picture} {last : Int} {n : Nat} {w : Walker}
    (h : p.Safe last n w) : ∃ r, p.walk n w.machine w.pos = .ok r := by
  induction n generalizing w with
  | zero => exact ⟨none, rfl⟩
  | succ n ih =>
    obtain ⟨hsecure, hnext⟩ := h
    obtain ⟨⟨pos, op⟩, m, hstep, -⟩ := hsecure.steps
    rw [Picture.walk]
    simp only [hstep]
    cases pos with
    | none => exact ⟨some m, rfl⟩
    | some pos => exact ih (hnext pos op m hstep)

/-- From where it enters the lane on, the walk of a program is safe. -/
theorem Drawn.safe_entry {D : Nat} {code : List Instruction} {g : Grid} {p : Picture}
    (h : Drawn D code g) (hr : p.Renders g.codel) {q : TapeProgram} (hq : q.Plain)
    (hcode : q.instructions 0 = code) {m : Machine} (hm : 3 ≤ m.stack.length) (n : Nat) :
    p.Safe (((Cursor.start code).run D code).x + 2) n (Picture.laneEntry g.codel m) := by
  have hlaid := h.laid hq 0 [] [] (by rw [List.nil_append, List.append_nil, hcode])
  rw [List.nil_append, hcode] at hlaid
  obtain ⟨ops, w, hpath, hw⟩ := h.path_entry hr (Nat.le_of_succ_le hm)
  have hsafe : p.Safe (((Cursor.start code).run D code).x + 2) n w :=
    hlaid.safe hr (fun m w hm hw ↦ hr.safe_last h.ending hm hw n) m w hm hw
  exact (hpath.safe hsafe).mono (Nat.le_add_left n _)

private theorem prologueOps_eq_append {ops rest : List (Option Operation)}
    (hops : Picture.prologueOps = ops ++ rest) (hne : rest ≠ []) :
    ops.take 5 = Picture.prologueOps.take ops.length ∧ some .sub ∉ ops := by
  have hlen : ops.length < 5 := by
    have hpos := List.length_pos_iff.mpr hne
    have htotal := congrArg List.length hops
    rw [List.length_append, show Picture.prologueOps.length = 5 from rfl] at htotal
    omega
  have htake : Picture.prologueOps.take ops.length = ops := by
    rw [hops, List.take_left]
  have hsub : ∀ k < 5, some Operation.sub ∉ Picture.prologueOps.take k := by decide
  constructor
  · rw [htake, List.take_of_length_le (by omega)]
  · rw [← htake]
    exact hsub _ hlen

private theorem Picture.Path.exists_walk {p : Picture} {last : Int} {least : Nat}
    {route : List (Option Operation)} {a b : Walker} (h : p.Path least route a b)
    (hb : ∀ n, p.Safe last n b) (n : Nat) : ∃ r, p.walk n a.machine a.pos = .ok r := by
  by_cases hn : n ≤ route.length
  · exact ⟨none, h.walk_le hn⟩
  · obtain ⟨k, rfl⟩ : ∃ k, n = route.length + k := ⟨n - route.length, by omega⟩
    rw [h.walk_add]
    exact (hb k).walk

end BrainPiet
