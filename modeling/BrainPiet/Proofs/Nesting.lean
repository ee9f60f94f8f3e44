import BrainPiet.Proofs.Drawing.Cursor
import BrainPiet.Tape.Program

/-!
# Nesting of instructions

Instructions that were parsed nest: each bracket carries the depth of its loop, and every loop that
was opened is closed. Such instructions fit a cursor with as many pending loops, and they are the
instructions of a tape program.
-/

namespace BrainPiet

/-- The instructions nest inside some open loops and close all of them. -/
def Nests : Nat → List Instruction → Prop
  | n, [] => n = 0
  | n, i :: code =>
    match i.symbol with
    | .loopOpen => i.depth = n + 1 ∧ Nests (n + 1) code
    | .loopClose => 0 < n ∧ i.depth = n ∧ Nests (n - 1) code
    | _ => i.depth = 0 ∧ Nests n code

namespace Nests

variable {n : Nat} {code : List Instruction}

theorem cons_open {d : Nat} :
    Nests n (⟨.loopOpen, d⟩ :: code) ↔ d = n + 1 ∧ Nests (n + 1) code := Iff.rfl

theorem cons_close {d : Nat} :
    Nests n (⟨.loopClose, d⟩ :: code) ↔ 0 < n ∧ d = n ∧ Nests (n - 1) code := Iff.rfl

theorem cons_action {a : Symbol} (ha : a.IsAction) {d : Nat} :
    Nests n (⟨a, d⟩ :: code) ↔ d = 0 ∧ Nests n code := by
  cases a <;> first | exact Iff.rfl | exact absurd rfl ha.1 | exact absurd rfl ha.2

end Nests

/-- A result that was mapped over comes from a result. -/
theorem ok_of_map {α β : Type} {f : α → β} {r : Except Malformed α} {b : β}
    (h : r.map f = .ok b) : ∃ a, r = .ok a ∧ b = f a := by
  cases r with
  | error e => cases h
  | ok a =>
    cases h
    exact ⟨a, rfl, rfl⟩

/-- One character of a scan. -/
theorem scan_cons (offset : Nat) (opened : List Nat) (ch : Char) (rest : List Char) :
    Source.scan offset opened (ch :: rest) =
      match Symbol.ofChar? ch with
      | none => Source.scan (offset + 1) opened rest
      | some .loopOpen =>
        (Source.scan (offset + 1) (offset :: opened) rest).map
          (⟨.loopOpen, opened.length + 1⟩ :: ·)
      | some .loopClose =>
        match opened with
        | [] => .error (.unmatchedClose offset)
        | _ :: outer =>
          (Source.scan (offset + 1) outer rest).map (⟨.loopClose, outer.length + 1⟩ :: ·)
      | some symbol => (Source.scan (offset + 1) opened rest).map (⟨symbol, 0⟩ :: ·) := by
  cases opened <;> rfl

private theorem nests_of_scan {offset : Nat} {opened : List Nat} {chars : List Char}
    {code : List Instruction} (h : Source.scan offset opened chars = .ok code) :
    Nests opened.length code := by
  induction chars generalizing offset opened code with
  | nil =>
    cases opened with
    | nil =>
      cases h
      rfl
    | cons last outer => cases h
  | cons ch rest ih =>
    rw [scan_cons] at h
    cases hsym : Symbol.ofChar? ch with
    | none =>
      rw [hsym] at h
      exact ih h
    | some a =>
      rw [hsym] at h
      cases a with
      | loopOpen =>
        obtain ⟨code', hcode, rfl⟩ := ok_of_map h
        exact ⟨rfl, ih hcode⟩
      | loopClose =>
        cases opened with
        | nil => cases h
        | cons last outer =>
          obtain ⟨code', hcode, rfl⟩ := ok_of_map h
          exact ⟨Nat.succ_pos _, rfl, ih hcode⟩
      | _ =>
        obtain ⟨code', hcode, rfl⟩ := ok_of_map h
        exact ⟨rfl, ih hcode⟩

/-- What was parsed nests. -/
theorem nests_of_parse {text : String} {code : List Instruction}
    (h : Source.parse text = .ok code) : Nests 0 code := nests_of_scan h

/-- No instruction is deeper than the deepest. -/
theorem depth_le_maxDepth {code : List Instruction} {i : Instruction} (h : i ∈ code) :
    i.depth ≤ Source.maxDepth code := by
  have hfold (ns : List Nat) (m : Nat) :
      m ≤ ns.foldl max m ∧ ∀ n ∈ ns, n ≤ ns.foldl max m := by
    induction ns generalizing m with
    | nil => exact ⟨Nat.le_refl m, fun n hn ↦ nomatch hn⟩
    | cons n ns ih =>
      obtain ⟨hm, hns⟩ := ih (max m n)
      refine ⟨by rw [List.foldl_cons]; omega, ?_⟩
      intro k hk
      rw [List.foldl_cons]
      rcases List.mem_cons.mp hk with rfl | hk
      · omega
      · exact hns k hk
  exact (hfold (code.map (·.depth)) 0).2 _ (List.mem_map_of_mem h)

/-- Instructions that nest fit a cursor with as many pending loops, and no loop is left. -/
theorem Nests.fitsAll {n : Nat} {code : List Instruction} (h : Nests n code) {D : Nat}
    (hD : ∀ i ∈ code, i.depth ≤ D) {c : Cursor} (hc : c.loops.length = n) :
    c.FitsAll D code ∧ (c.run D code).loops = [] := by
  induction code generalizing n c with
  | nil => exact ⟨trivial, List.length_eq_zero_iff.mp (hc.trans h)⟩
  | cons i code ih =>
    have hrest : ∀ j ∈ code, j.depth ≤ D := fun j hj ↦ hD j (List.mem_cons_of_mem _ hj)
    have hi := hD i List.mem_cons_self
    obtain ⟨a, d⟩ := i
    rcases a.action_or_bracket with ha | rfl | rfl
    · obtain ⟨hd, hn⟩ := (Nests.cons_action ha).mp h
      have hlen : (c.next D ⟨a, d⟩).loops.length = n := by
        rw [Cursor.loops_next ha, hc]
      obtain ⟨hfits, hrun⟩ := ih hn hrest hlen
      exact ⟨⟨.of_action ha, hfits⟩, hrun⟩
    · obtain ⟨hd, hn⟩ := Nests.cons_open.mp h
      obtain ⟨hfits, hrun⟩ := ih hn hrest (c := c.next D ⟨.loopOpen, d⟩) (congrArg (· + 1) hc)
      exact ⟨⟨⟨by rw [hc]; exact hd, hi⟩, hfits⟩, hrun⟩
    · obtain ⟨hpos, hd, hn⟩ := Nests.cons_close.mp h
      have hlen : (c.next D ⟨.loopClose, d⟩).loops.length = n - 1 := by
        rw [← hc]
        exact List.length_tail
      obtain ⟨hfits, hrun⟩ := ih hn hrest hlen
      exact ⟨⟨⟨by omega, by rw [hc]; exact hd⟩, hfits⟩, hrun⟩

private theorem Nests.split (k : Nat) {n : Nat} {code : List Instruction} (hk : code.length ≤ k)
    (h : Nests n code) :
    ∃ (p : TapeProgram) (rest : List Instruction), p.Plain ∧ code = p.instructions n ++ rest ∧
      ((n = 0 ∧ rest = []) ∨
        ∃ post, 0 < n ∧ rest = ⟨.loopClose, n⟩ :: post ∧ Nests (n - 1) post) := by
  induction k generalizing n code with
  | zero =>
    obtain rfl : code = [] := List.length_eq_zero_iff.mp (by omega)
    exact ⟨.done, [], trivial, rfl, .inl ⟨h, rfl⟩⟩
  | succ k ih =>
    cases code with
    | nil => exact ⟨.done, [], trivial, rfl, .inl ⟨h, rfl⟩⟩
    | cons i code =>
      rw [List.length_cons] at hk
      obtain ⟨a, d⟩ := i
      rcases a.action_or_bracket with ha | rfl | rfl
      · obtain ⟨rfl, hn⟩ := (Nests.cons_action ha).mp h
        obtain ⟨p, rest, hplain, rfl, hrest⟩ := ih (by omega) hn
        exact ⟨.act a p, rest, ⟨ha.1, ha.2, hplain⟩, rfl, hrest⟩
      · obtain ⟨rfl, hn⟩ := Nests.cons_open.mp h
        obtain ⟨body, rest, hbody, rfl, ⟨hzero, -⟩ | ⟨post, -, rfl, hpost⟩⟩ := ih (by omega) hn
        · cases hzero
        · simp only [List.length_append, List.length_cons] at hk
          obtain ⟨p, rest, hplain, rfl, hrest⟩ := ih (by omega) hpost
          refine ⟨.loop body p, rest, ⟨hbody, hplain⟩, ?_, hrest⟩
          simp [TapeProgram.instructions]
      · obtain ⟨hpos, rfl, hn⟩ := Nests.cons_close.mp h
        exact ⟨.done, _, trivial, rfl, .inr ⟨code, hpos, rfl, hn⟩⟩

/-- Nested instructions are those of a tape program. -/
theorem Nests.exists_program {code : List Instruction} (h : Nests 0 code) :
    ∃ p : TapeProgram, p.Plain ∧ p.instructions 0 = code := by
  obtain ⟨p, rest, hplain, rfl, ⟨-, rfl⟩ | ⟨_, hpos, -⟩⟩ := Nests.split code.length (Nat.le_refl _) h
  · exact ⟨p, hplain, (List.append_nil _).symm⟩
  · cases hpos

end BrainPiet
