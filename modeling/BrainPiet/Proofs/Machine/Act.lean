import BrainPiet.Proofs.Machine.Effect
import BrainPiet.Source

/-!
# What symbols do to a machine

Each symbol has a run of operations along the lane. The tiles of `advance` and `read` fork behind
it, and those of the brackets turn. An action finds three values at least and leaves three values at
least, whatever these values are. The test of a loop and the turn behind it leave the stack as it
was.
-/

namespace BrainPiet

open TapeStack

namespace Machine

variable (m : Machine) (s : List Int) (a b v : Int) (size : Int)

theorem setStack_stack : m.setStack m.stack = m := rfl

@[simp] theorem setStack_setStack (s' : List Int) : (m.setStack s).setStack s' = m.setStack s' := rfl

@[simp] theorem stack_setStack : (m.setStack s).stack = s := rfl

@[simp] theorem after_push : (m.setStack s).after .push size = m.setStack (size :: s) := rfl

@[simp] theorem after_pop : (m.setStack (v :: s)).after .pop size = m.setStack s := rfl

@[simp] theorem after_dup : (m.setStack (v :: s)).after .dup size = m.setStack (v :: v :: s) := rfl

@[simp] theorem after_add :
    (m.setStack (a :: b :: s)).after .add size = m.setStack ((b + a) :: s) := rfl

@[simp] theorem after_sub :
    (m.setStack (a :: b :: s)).after .sub size = m.setStack ((b - a) :: s) := rfl

@[simp] theorem after_mul :
    (m.setStack (a :: b :: s)).after .mul size = m.setStack ((b * a) :: s) := rfl

@[simp] theorem after_greater :
    (m.setStack (a :: b :: s)).after .greater size =
      m.setStack ((if b > a then 1 else 0) :: s) := rfl

@[simp] theorem after_not :
    (m.setStack (v :: s)).after .not size = m.setStack ((if v = 0 then 1 else 0) :: s) := rfl

@[simp] theorem after_roll : (m.setStack s).after .roll size = m.setStack (rolled s) := rfl

end Machine

/-- The operations of a symbol along the lane, up to where its tile forks or turns. -/
def Symbol.code : Symbol → List Emission
  | increment => push 1 ++ [⟨.add, 3⟩]
  | decrement => push 1 ++ [⟨.sub, 3⟩]
  | advance => deposit ++ pick 1 ++ pick 1 ++ [⟨.greater, 1⟩]
  | retreat => deposit ++ push 1 ++ [⟨.sub, 1⟩] ++ withdraw
  | loopOpen => [⟨.dup, 1⟩, ⟨.dup, 1⟩, ⟨.mul, 1⟩] ++ push 0 ++ [⟨.greater, 1⟩, ⟨.not, 1⟩]
  | loopClose => push 2
  | read =>
    [⟨.pop, 1⟩] ++ push 1 ++ push (-1) ++ [⟨.inChar, 1⟩, ⟨.dup, 1⟩] ++ push (-1) ++ [⟨.greater, 1⟩]
  | write => [⟨.dup, 1⟩, ⟨.outChar, 1⟩]

/-- The operations on the upper track of `advance`. -/
def growCode : List Emission :=
  [⟨.pop, 1⟩] ++ push 1 ++ [⟨.add, 1⟩, ⟨.dup, 1⟩] ++ push 0

/-- The operations on the lower track of `advance`. -/
def stepCode : List Emission := push 1 ++ [⟨.add, 1⟩] ++ withdraw

namespace Machine

/-- The machine behind two tracks; zero leads to the upper one. -/
def fork (m : Machine) (upper lower : List Emission) : Machine :=
  match m.stack with
  | v :: s => (m.setStack s).afterAll (if v = 0 then upper else lower)
  | [] => m

/-- The machine behind the tile of an action. -/
def act (m : Machine) : Symbol → Machine
  | .advance => (m.afterAll Symbol.advance.code).fork growCode stepCode
  | .read =>
    match m.input with
    | [] => m.setStack (0 :: m.stack.tail)
    | b :: rest => { m with stack := b.toNat :: m.stack.tail, input := rest }
  | a => m.afterAll a.code

variable {m : Machine}

/-- Along the lane there are always two values to work on, and three in the end. -/
theorem holds_code (hm : 3 ≤ m.stack.length) (a : Symbol) :
    m.Holds 2 a.code ∧ 3 ≤ (m.afterAll a.code).stack.length := by
  have hleaves : ∃ k, Emission.leaves 3 a.code = some k ∧ 3 ≤ k := by
    cases a <;> exact ⟨_, rfl, by decide⟩
  obtain ⟨k, hk, hle⟩ := hleaves
  obtain ⟨hholds, hheight⟩ := holds_of_leaves hk hm
  exact ⟨hholds, Nat.le_trans hle hheight⟩

/-- The test of `advance` leaves zero or one above three values. -/
theorem exists_advance (hm : 3 ≤ m.stack.length) :
    ∃ v s, (m.afterAll Symbol.advance.code).stack = v :: s ∧ (v = 0 ∨ v = 1) ∧ 3 ≤ s.length := by
  have hleaves : Emission.leaves 3 (deposit ++ pick 1 ++ pick 1) = some 5 := rfl
  have hfive := (holds_of_leaves hleaves hm).2
  rw [Symbol.code, afterAll_append]
  generalize m.afterAll (deposit ++ pick 1 ++ pick 1) = t at *
  match hs : t.stack with
  | [] =>
    rw [hs] at hfive
    cases hfive
  | [_] =>
    rw [hs] at hfive
    simp at hfive
  | a :: b :: s =>
    rw [← setStack_stack t, hs]
    refine ⟨_, s, rfl, ?_, ?_⟩
    · by_cases hgt : b > a
      · rw [if_pos hgt]
        exact .inr rfl
      · rw [if_neg hgt]
        exact .inl rfl
    · rw [hs] at hfive
      simp only [List.length_cons] at hfive
      omega

/-- On both tracks of `advance` there are two values to work on, and three in the end. -/
theorem holds_tracks (hm : 3 ≤ m.stack.length) :
    (m.Holds 2 growCode ∧ 3 ≤ (m.afterAll growCode).stack.length) ∧
      m.Holds 2 stepCode ∧ 3 ≤ (m.afterAll stepCode).stack.length := by
  have hgrow : Emission.leaves 3 growCode = some 4 := rfl
  have hstep : Emission.leaves 3 stepCode = some 3 := rfl
  have h4 := holds_of_leaves hgrow hm
  exact ⟨⟨h4.1, by omega⟩, holds_of_leaves hstep hm⟩

/-- The tiles of other actions do not fork. -/
theorem act_eq_afterAll {a : Symbol} (h1 : a ≠ .advance) (h2 : a ≠ .read) :
    m.act a = m.afterAll a.code := by
  cases a <;> first | exact absurd rfl h1 | exact absurd rfl h2 | rfl

/-- An action leaves three values at least. -/
theorem three_le_act (hm : 3 ≤ m.stack.length) (a : Symbol) :
    3 ≤ (m.act a).stack.length := by
  by_cases hadvance : a = .advance
  · obtain ⟨v, s, hs, -, hthree⟩ := exists_advance hm
    subst hadvance
    unfold act
    generalize m.afterAll Symbol.advance.code = t at hs ⊢
    have htracks := holds_tracks (m := t.setStack s) hthree
    simp only [fork, hs]
    split
    · exact htracks.1.2
    · exact htracks.2.2
  · by_cases hread : a = .read
    · subst hread
      unfold act
      cases m.input with
      | nil =>
        simp only [stack_setStack, List.length_cons, List.length_tail]
        omega
      | cons b rest =>
        simp only [List.length_cons, List.length_tail]
        omega
    · rw [act_eq_afterAll hadvance hread]
      exact (holds_code hm a).2

private theorem afterAll_of_stack {s : List Int} (hs : m.stack = s) (code : List Emission) :
    m.afterAll code = (m.setStack s).afterAll code := by
  rw [← hs, setStack_stack]

/-- At the end of the input the test of `read` leaves zero above minus one and one. -/
theorem afterAll_read_nil {v : Int} {s : List Int} (hs : m.stack = v :: s) (hin : m.input = []) :
    m.afterAll Symbol.read.code = m.setStack (0 :: -1 :: 1 :: s) := by
  have hinChar (s' : List Int) : (m.setStack s').after .inChar 1 = m.setStack s' := by
    simp only [after, execute, setStack, hin]
  rw [afterAll_of_stack hs]
  simp [Symbol.code, push, hinChar]

/-- The test of `read` leaves one above a byte, minus one and one. -/
theorem afterAll_read_cons {v : Int} {s : List Int} (hs : m.stack = v :: s) {b : UInt8}
    {rest : List UInt8} (hin : m.input = b :: rest) :
    m.afterAll Symbol.read.code =
      setStack { m with input := rest } (1 :: b.toNat :: -1 :: 1 :: s) := by
  have hinChar (s' : List Int) : (m.setStack s').after .inChar 1 =
      setStack { m with input := rest } (b.toNat :: s') := by
    simp only [after, execute, setStack, hin]
  have hgt : (b.toNat : Int) > -1 := by omega
  rw [afterAll_of_stack hs]
  simp [Symbol.code, push, hinChar, hgt]

/-- The test of a loop leaves one above the value if that is zero, and zero otherwise. -/
theorem afterAll_loopOpen {v : Int} {s : List Int} (hs : m.stack = v :: s) :
    m.afterAll Symbol.loopOpen.code = m.setStack ((if v = 0 then 1 else 0) :: v :: s) := by
  rw [afterAll_of_stack hs]
  by_cases hv : v = 0
  · subst hv
    rfl
  · have hpos : v * v > 0 := by
      rcases Int.lt_or_gt_of_ne hv with h | h
      · exact Int.mul_pos_of_neg_of_neg h h
      · exact Int.mul_pos h h
    simp [Symbol.code, push, hv, hpos]

/-- A switch takes zero or one off the stack and puts the chooser accordingly. -/
theorem execute_switch {v : Int} {s : List Int} (hs : m.stack = v :: s) (hv : v = 0 ∨ v = 1)
    (size : Int) (d : Direction) : execute .switch size (m.facing d .left) =
      .ok () ((m.setStack s).facing d (if v = 0 then .left else .right)) := by
  simp only [execute, facing_stack, hs]
  rcases hv with rfl | rfl <;> rfl

/-- At the end of the input the switch of `read` keeps the chooser left. -/
theorem execute_read_nil {v : Int} {s : List Int} (hs : m.stack = v :: s) (hin : m.input = [])
    (size : Int) :
    execute .switch size ((m.afterAll Symbol.read.code).facing .right .left) =
      .ok () ((m.setStack (-1 :: 1 :: s)).facing .right .left) := by
  rw [afterAll_read_nil hs hin]
  exact execute_switch rfl (.inl rfl) size .right

/-- Behind a byte the switch of `read` puts the chooser right. -/
theorem execute_read_cons {v : Int} {s : List Int} (hs : m.stack = v :: s) {b : UInt8}
    {rest : List UInt8} (hin : m.input = b :: rest) (size : Int) :
    execute .switch size ((m.afterAll Symbol.read.code).facing .right .left) =
      .ok () ((setStack { m with input := rest } (b.toNat :: -1 :: 1 :: s)).facing .right
        .right) := by
  rw [afterAll_read_cons hs hin]
  exact execute_switch rfl (.inr rfl) size .right

/-- At the end of the input one addition turns minus one and one into zero. -/
theorem act_read_nil {v : Int} {s : List Int} (hs : m.stack = v :: s) (hin : m.input = []) :
    m.act .read = (m.setStack (-1 :: 1 :: s)).after .add 2 := by
  simp only [act, hin, hs, List.tail_cons, after_add]
  rfl

/-- Two additions take minus one and one off a byte. -/
theorem act_read_cons {v : Int} {s : List Int} (hs : m.stack = v :: s) {b : UInt8}
    {rest : List UInt8} (hin : m.input = b :: rest) :
    m.act .read =
      ((setStack { m with input := rest } (b.toNat :: -1 :: 1 :: s)).after .add 2).after .add 2 := by
  have hbyte : (1 : Int) + (-1 + b.toNat) = b.toNat := by omega
  simp only [act, hin, hs, List.tail_cons, after_add, hbyte]
  rfl

/-- The switch behind the test of a loop leaves the stack as it was before the test. -/
theorem execute_loopOpen {v : Int} {s : List Int} (hs : m.stack = v :: s) (size : Int) :
    execute .switch size ((m.afterAll Symbol.loopOpen.code).facing .right .left) =
      .ok () (m.facing .right (if v = 0 then .right else .left)) := by
  rw [afterAll_loopOpen hs]
  by_cases hv : v = 0
  · rw [if_pos hv, if_pos hv, ← hs]
    exact execute_switch rfl (.inr rfl) size .right
  · rw [if_neg hv, if_neg hv, ← hs]
    exact execute_switch rfl (.inl rfl) size .right

/-- The pointer behind a loop turns around and leaves the stack as it was. -/
theorem execute_loopClose (m : Machine) (size : Int) :
    execute .pointer size ((m.afterAll Symbol.loopClose.code).facing .right .left) =
      .ok () (m.facing .left .left) := rfl

end Machine

end BrainPiet
