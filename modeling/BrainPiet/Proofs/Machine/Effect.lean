import BrainPiet.Proofs.Picture.Edge
import BrainPiet.Proofs.Sequence
import BrainPiet.TapeStack

/-!
# What operations do to a machine

An operation is steady when it neither fails nor changes the heading. The effect of a run of steady
operations is a function of the machine, and a least height of the stack can be told from the
operations alone: whatever the values on the stack are, no operation takes off more than it is known
to take.
-/

namespace BrainPiet

namespace Operation

/-- The operation leaves the heading alone and cannot fail. -/
def Steady (op : Operation) : Prop :=
  op ≠ pointer ∧ op ≠ switch ∧ op ≠ inNum ∧ op ≠ outNum

instance (op : Operation) : Decidable op.Steady := inferInstanceAs (Decidable (_ ∧ _))

/-- The height that the stack still has after an operation, if it had some height before. A roll may
take its two operands off or may be ignored. -/
def leaves (height : Nat) : Operation → Nat
  | push | dup => height + 1
  | not | inChar => height
  | roll => height - 2
  | _ => height - 1

end Operation

namespace Machine

/-- The machine after an operation. -/
def after (m : Machine) (op : Operation) (size : Int) : Machine :=
  match execute op size m with
  | .ok _ m' | .error _ m' => m'

/-- The machine after some operations. -/
def afterAll (m : Machine) (code : List Emission) : Machine :=
  code.foldl (fun m e ↦ m.after e.op e.size) m

/-- The first of some operations succeeds, and the others run on its result. -/
theorem executeAll_cons_of_ok {m m' : Machine} {e : Emission} {code : List Emission}
    (h : execute e.op e.size m = .ok () m') : executeAll (e :: code) m = executeAll code m' :=
  forM_cons_of_ok (f := fun e : Emission ↦ execute e.op e.size) h

/-- Some operations succeed, and others run on their result. -/
theorem executeAll_append_of_ok {m m' : Machine} {code more : List Emission}
    (h : executeAll code m = .ok () m') : executeAll (code ++ more) m = executeAll more m' :=
  forM_append_of_ok h

/-- The stack has a least height before each of some operations. -/
def Holds (least : Nat) : Machine → List Emission → Prop
  | _, [] => True
  | m, e :: code => least ≤ m.stack.length ∧ Holds least (m.after e.op e.size) code

@[simp] theorem afterAll_nil (m : Machine) : m.afterAll [] = m := rfl

@[simp] theorem afterAll_cons (m : Machine) (e : Emission) (code : List Emission) :
    m.afterAll (e :: code) = (m.after e.op e.size).afterAll code := rfl

theorem afterAll_append (m : Machine) (code more : List Emission) :
    m.afterAll (code ++ more) = (m.afterAll code).afterAll more := List.foldl_append

/-- A height holds along operations one after the other. -/
theorem holds_append {least : Nat} {m : Machine} {code more : List Emission} :
    m.Holds least (code ++ more) ↔ m.Holds least code ∧ (m.afterAll code).Holds least more := by
  induction code generalizing m with
  | nil => exact (and_iff_right trivial).symm
  | cons e code ih => rw [List.cons_append, Holds, Holds, ih, and_assoc, afterAll_cons]

/-- A steady operation succeeds, and it does the same under every heading. -/
theorem execute_facing {op : Operation} (h : op.Steady) (m : Machine) (size : Int)
    (d : Direction) (s : Side) :
    execute op size (m.facing d s) = .ok () ((m.after op size).facing d s) := by
  obtain ⟨h1, h2, h3, h4⟩ := h
  cases op <;> first | contradiction | skip
  case push | pop | roll => rfl
  case inChar =>
    simp only [execute, after, facing_input, facing_stack]
    cases m.input <;> rfl
  case not | dup | outChar =>
    simp only [execute, after, facing_stack]
    cases m.stack <;> rfl
  all_goals
    simp only [execute, after, facing_stack]
    match m.stack with
    | [] => rfl
    | [_] => rfl
    | a :: b :: _ => simp only [binary?]; first | rfl | (split <;> rfl)

/-- Rotating keeps the height. -/
theorem length_rotate (depth r : Nat) (s : List Int) : (rotate depth r s).length = s.length := by
  simp only [rotate, List.length_append, List.length_drop, List.length_take]
  omega

private theorem length_rolled (s : List Int) : s.length - 2 ≤ (rolled s).length := by
  unfold rolled
  split
  · split
    · simp only [List.length_cons]
      omega
    · rw [length_rotate]
      simp
  · omega

/-- An operation leaves the stack as high as it is known to. -/
theorem leaves_le_length {op : Operation} (h : op.Steady) (m : Machine) (size : Int) {k : Nat}
    (hk : 1 ≤ k) (hm : k ≤ m.stack.length) : op.leaves k ≤ (m.after op size).stack.length := by
  obtain ⟨h1, h2, h3, h4⟩ := h
  cases op <;> first | contradiction | skip
  case push => simpa [after, execute, setStack, Operation.leaves] using hm
  case pop =>
    simp only [after, execute, setStack, Operation.leaves, List.length_tail]
    omega
  case roll =>
    have := length_rolled m.stack
    simp only [after, execute, setStack, Operation.leaves]
    omega
  case inChar =>
    simp only [after, execute, Operation.leaves]
    cases m.input with
    | nil => exact hm
    | cons b rest => simp only [List.length_cons]; omega
  case not | dup | outChar =>
    simp only [after, execute, Operation.leaves]
    cases hs : m.stack with
    | nil => rw [hs] at hm; simp at hm; omega
    | cons v s => rw [hs] at hm; simp only [setStack, List.length_cons] at hm ⊢; omega
  all_goals
    simp only [after, execute, Operation.leaves]
    match hs : m.stack with
    | [] => rw [hs] at hm; simp at hm; omega
    | [_] => rw [hs] at hm; simp at hm ⊢; omega
    | a :: b :: s =>
      rw [hs] at hm
      simp only [List.length_cons] at hm
      have hv (v : Int) : k - 1 ≤ (m.setStack (v :: s)).stack.length := by
        simp only [setStack, List.length_cons]
        omega
      have hsame : k - 1 ≤ m.stack.length := by
        rw [hs, List.length_cons, List.length_cons]
        omega
      by_cases ha : a = 0
      · simp only [binary?, ha, if_pos]
        first | exact hv _ | exact hsame
      · simp only [binary?, ha, if_neg, not_false_eq_true]
        exact hv _

end Machine

/-- The height that is left of a stack by some operations, none of which finds fewer than two
values. -/
def Emission.leaves : Nat → List Emission → Option Nat
  | height, [] => some height
  | height, e :: code =>
    if 2 ≤ height ∧ e.op.Steady then Emission.leaves (e.op.leaves height) code else none

/-- What is told from the operations holds of every machine. -/
theorem Machine.holds_of_leaves {code : List Emission} {height k : Nat}
    (h : Emission.leaves height code = some k) {m : Machine} (hm : height ≤ m.stack.length) :
    m.Holds 2 code ∧ k ≤ (m.afterAll code).stack.length := by
  induction code generalizing height m with
  | nil =>
    cases h
    exact ⟨trivial, hm⟩
  | cons e code ih =>
    rw [Emission.leaves] at h
    split at h
    · next he =>
      have hle := leaves_le_length he.2 m e.size (by omega) hm
      obtain ⟨hholds, hk⟩ := ih h hle
      exact ⟨⟨by omega, hholds⟩, hk⟩
    · cases h

end BrainPiet
