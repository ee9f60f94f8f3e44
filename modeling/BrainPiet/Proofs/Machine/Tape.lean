import BrainPiet.Proofs.Machine.Act
import BrainPiet.Proofs.Machine.Roll
import BrainPiet.Tape.Program

/-!
# Tapes on the stack of a machine

The routines on the stack bury and pull up values at a depth. On the stack that holds a tape an
action does what it does on the tape, as long as the head stays on the tape.
-/

namespace BrainPiet

open TapeStack

namespace Machine

variable (m : Machine) (pre post s : List Int) (v : Int)

/-- A roll by one buries the value below its operands. -/
theorem rolled_one {n : Int} (hn : n = pre.length + 1) :
    rolled (1 :: n :: v :: (pre ++ post)) = pre ++ v :: post := by
  have hle : pre.length + 1 ≤ (v :: (pre ++ post)).length := by simp
  subst hn
  exact (rolled_eq_turned hle 1).trans ((turned_one hle).trans (bury_append pre post v))

/-- A roll by minus one pulls up the value at its depth. -/
theorem rolled_neg_one {n : Int} (hn : n = pre.length + 1) :
    rolled (-1 :: n :: (pre ++ v :: post)) = v :: (pre ++ post) := by
  have hle : pre.length + 1 ≤ (pre ++ v :: post).length := by simp
  subst hn
  exact (rolled_eq_turned hle (-1)).trans ((turned_neg_one hle).trans (raise_append pre post v))

/-- Any integer is pushed. -/
theorem afterAll_push (n : Int) : (m.setStack s).afterAll (push n) = m.setStack (n :: s) := by
  unfold push
  split
  · rfl
  · split
    · next hzero =>
      subst hzero
      rfl
    · simp only [afterAll_cons, afterAll_nil, after_push, after_sub, Int.sub_sub_self]

/-- The value at a depth is copied to the top. -/
theorem afterAll_pick : (m.setStack (pre ++ v :: post)).afterAll (pick pre.length) =
    m.setStack (v :: (pre ++ v :: post)) := by
  unfold pick
  split
  · next hzero =>
    obtain rfl : pre = [] := by simpa using hzero
    rfl
  · simp only [afterAll_append, afterAll_push, afterAll_cons, afterAll_nil, after_roll,
      rolled_neg_one pre post v rfl, after_dup]
    have hdepth : (pre.length : Int) + 2 = (v :: pre).length + 1 := by
      simp only [List.length_cons]
      omega
    exact congrArg m.setStack (rolled_one (v :: pre) post v hdepth)

/-- The top value is buried at the depth that the second one names. -/
theorem afterAll_deposit {d : Int} (hd : d = pre.length + 2) :
    (m.setStack (v :: d :: (pre ++ post))).afterAll deposit =
      m.setStack (d :: (pre ++ v :: post)) := by
  have hpick : (m.setStack (v :: d :: (pre ++ post))).afterAll (pick 1) =
      m.setStack (d :: v :: d :: (pre ++ post)) := afterAll_pick m [v] (pre ++ post) d
  have hdepth : d = (d :: pre).length + 1 := by
    simp only [List.length_cons]
    omega
  simp only [deposit, afterAll_append, hpick, afterAll_push, afterAll_cons, afterAll_nil, after_roll]
  exact congrArg m.setStack (rolled_one (d :: pre) post v hdepth)

/-- The value at the depth that the top one names is pulled up. -/
theorem afterAll_withdraw {d : Int} (hd : d = pre.length + 2) :
    (m.setStack (d :: (pre ++ v :: post))).afterAll withdraw =
      m.setStack (v :: d :: (pre ++ post)) := by
  have hdepth : d = (d :: pre).length + 1 := by
    simp only [List.length_cons]
    omega
  simp only [withdraw, afterAll_append, afterAll_push, afterAll_cons, afterAll_nil, after_dup,
    after_roll]
  exact congrArg m.setStack (rolled_neg_one (d :: pre) post v hdepth)

private theorem afterAll_deposit_toStack (t : Tape) : (m.setStack t.toStack).afterAll deposit =
    m.setStack ((t.left.length + 3) :: (t.left.length + t.right.length + 3) :: t.cells) := by
  have hdepth : (t.left.length + 3 : Int) =
      ((t.left.length + t.right.length + 3 : Int) :: t.left.reverse).length + 2 := by
    simp only [List.length_cons, List.length_reverse]
    omega
  exact afterAll_deposit m (_ :: t.left.reverse) t.right t.cell hdepth

/-- The test of `advance` tells whether the head is on the last cell. -/
theorem afterAll_advance_toStack (t : Tape) :
    (m.setStack t.toStack).afterAll Symbol.advance.code =
      m.setStack ((if t.right = [] then 0 else 1) :: (t.left.length + 3) ::
        (t.left.length + t.right.length + 3) :: t.cells) := by
  have hpick (a b : Int) (s : List Int) : (m.setStack (a :: b :: s)).afterAll (pick 1) =
      m.setStack (b :: a :: b :: s) := afterAll_pick m [a] s b
  have htest : (if (t.left.length + t.right.length + 3 : Int) > t.left.length + 3 then 1 else 0) =
      (if t.right = [] then 0 else 1 : Int) := by
    cases t.right with
    | nil => simp
    | cons v rest =>
      rw [if_pos (by simp only [List.length_cons]; omega), if_neg (List.cons_ne_nil _ _)]
  simp only [Symbol.code, afterAll_append, afterAll_deposit_toStack, hpick, afterAll_cons,
    afterAll_nil, after_greater, htest]

private theorem afterAll_growCode (i l : Int) : (m.setStack (i :: l :: s)).afterAll growCode =
    m.setStack (0 :: (l + 1) :: (l + 1) :: s) := by
  simp only [growCode, afterAll_append, afterAll_push, afterAll_cons, afterAll_nil, after_pop,
    after_add, after_dup]

private theorem afterAll_stepCode {i : Int} (hi : i = pre.length + 1) :
    (m.setStack (i :: (pre ++ v :: post))).afterAll stepCode =
      m.setStack (v :: (i + 1) :: (pre ++ post)) := by
  have hdepth : i + 1 = pre.length + 2 := by omega
  simp only [stepCode, afterAll_append, afterAll_push, afterAll_cons, afterAll_nil, after_add,
    afterAll_withdraw m pre post v hdepth]

/-- Moving on takes up the next cell, or appends one. -/
theorem act_advance_toStack (t : Tape) :
    (m.setStack t.toStack).act .advance = m.setStack t.advance.toStack := by
  obtain ⟨left, cell, right⟩ := t
  unfold act
  rw [afterAll_advance_toStack]
  cases right with
  | nil =>
    have hend : (left.length : Int) + ([] : List Int).length + 3 + 1 =
        (cell :: left).length + 3 := by
      simp only [List.length_cons, List.length_nil]
      omega
    show (m.setStack _).afterAll growCode = _
    rw [afterAll_growCode, hend]
    simp [Tape.advance, Tape.toStack, Tape.cells]
  | cons v rest =>
    have hindex : (left.length : Int) + 3 =
        (((left.length + (v :: rest).length + 3 : Int) :: left.reverse) ++ [cell]).length + 1 := by
      simp only [List.length_append, List.length_cons, List.length_reverse, List.length_nil]
      omega
    have hcells : ((left.length + (v :: rest).length + 3 : Int) :: Tape.cells ⟨left, cell, v :: rest⟩) =
        ((left.length + (v :: rest).length + 3 : Int) :: left.reverse) ++ [cell] ++ v :: rest := by
      simp [Tape.cells]
    show (m.setStack _).afterAll stepCode = _
    rw [hcells, afterAll_stepCode m _ rest v hindex]
    apply congrArg m.setStack
    simp only [Tape.advance, Tape.toStack, List.length_cons, List.reverse_cons, List.cons_append,
      List.cons.injEq, true_and, and_true]
    omega

/-- Moving back takes up the cell before. -/
theorem act_retreat_toStack {t u : Tape} (h : t.retreat? = some u) :
    (m.setStack t.toStack).act .retreat = m.setStack u.toStack := by
  obtain ⟨left, cell, right⟩ := t
  cases left with
  | nil => cases h
  | cons v rest =>
    cases h
    have hdepth : ((v :: rest).length + 3 - 1 : Int) =
        (((v :: rest).length + right.length + 3 : Int) :: rest.reverse).length + 2 := by
      simp only [List.length_cons, List.length_reverse]
      omega
    have hcells : (((v :: rest).length + right.length + 3 : Int) ::
        Tape.cells ⟨v :: rest, cell, right⟩) =
          (((v :: rest).length + right.length + 3 : Int) :: rest.reverse) ++ v :: cell :: right := by
      simp [Tape.cells]
    show (m.setStack _).afterAll Symbol.retreat.code = _
    simp only [Symbol.code, afterAll_append, afterAll_deposit_toStack, afterAll_push, afterAll_cons,
      afterAll_nil, after_sub]
    rw [hcells, afterAll_withdraw m _ (cell :: right) v hdepth]
    apply congrArg m.setStack
    simp only [Tape.toStack, List.length_cons, List.cons_append, List.cons.injEq, true_and, and_true]
    omega

/-- The machine holds a tape, and it has the same input and output. -/
structure Carries (m : Machine) (w : TapeWorld) : Prop where
  stack : m.stack = w.tape.toStack
  input : m.input = w.input
  output : m.output.toList = w.output

variable {m}

/-- An action does on the stack what it does on the tape. -/
theorem Carries.act {w w' : TapeWorld} (h : m.Carries w) {a : Symbol} (ha : w.act? a = some w') :
    (m.act a).Carries w' := by
  have hm : m = m.setStack w.tape.toStack := by rw [← h.stack, setStack_stack]
  cases a with
  | increment =>
    cases ha
    rw [hm]
    exact ⟨rfl, h.input, h.output⟩
  | decrement =>
    cases ha
    rw [hm]
    exact ⟨rfl, h.input, h.output⟩
  | advance =>
    cases ha
    rw [hm, act_advance_toStack]
    exact ⟨rfl, h.input, h.output⟩
  | retreat =>
    obtain ⟨u, hu, rfl⟩ := Option.map_eq_some_iff.mp ha
    rw [hm, act_retreat_toStack m hu]
    exact ⟨rfl, h.input, h.output⟩
  | read =>
    unfold Machine.act
    rw [h.input, h.stack]
    cases hin : w.input with
    | nil =>
      rw [TapeWorld.act?, hin] at ha
      cases ha
      exact ⟨rfl, h.input.trans hin, h.output⟩
    | cons b rest =>
      rw [TapeWorld.act?, hin] at ha
      cases ha
      exact ⟨rfl, rfl, h.output⟩
  | write =>
    cases ha
    rw [hm]
    refine ⟨rfl, h.input, ?_⟩
    show (m.output.push _).toList = _
    rw [Array.toList_push, h.output]
  | loopOpen => cases ha
  | loopClose => cases ha

end Machine

end BrainPiet
