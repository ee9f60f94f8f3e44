import BrainPiet.Proofs.Templates

/-!
# Pushing, copying, burying and raising values

The routines do what they are named for on every stack, whether it carries a tape or not. Any
integer can be pushed, and a value at any depth within the stack can be copied to its top, by blocks
that have a codel at least.

A depth that stands on the stack tells how far down a value is buried or from where it is raised. As
long as the depth is at least two and no more than the height of the stack, the two routines undo
each other.
-/

namespace BrainPiet

open TapeStack

private theorem insertIdx_behind (pre post : List Int) (v k : Int) :
    (k :: (pre ++ post)).insertIdx (pre.length + 1) v = k :: (pre ++ v :: post) := by
  rw [List.insertIdx_succ_cons]
  exact congrArg (k :: ·) (Machine.bury_append pre post v)

private theorem eraseIdx_behind (pre post : List Int) (v k : Int) :
    (k :: (pre ++ v :: post)).eraseIdx (pre.length + 1) = k :: (pre ++ post) := by
  rw [List.eraseIdx_cons_succ, List.eraseIdx_append_of_length_le (Nat.le_refl _), Nat.sub_self,
    List.eraseIdx_cons_zero]

private theorem TapeStack.plain_push (n : Int) :
    ∀ e ∈ push n, (e.op ≠ .inNum ∧ e.op ≠ .outNum) ∧ 1 ≤ e.size := by
  unfold push
  split
  · next hpos =>
    rw [List.forall_mem_singleton]
    exact ⟨by simp, hpos⟩
  · split
    · simp
    · simp only [List.forall_mem_cons]
      refine ⟨by simp, ⟨by simp, ?_⟩, by simp⟩
      show 1 ≤ 1 - n
      omega

private theorem TapeStack.plain_pick (n : Int) :
    ∀ e ∈ pick n, (e.op ≠ .inNum ∧ e.op ≠ .outNum) ∧ 1 ≤ e.size := by
  unfold pick
  split
  · simp
  · simp only [List.forall_mem_append]
    exact ⟨⟨⟨⟨⟨plain_push _, plain_push _⟩, by simp⟩, plain_push _⟩, plain_push _⟩, by simp⟩

namespace Machine

variable (m : Machine) {k : Int} (pre post : List Int) (v : Int)

/-- Any integer is pushed, and nothing fails. -/
theorem executeAll_push (n : Int) : executeAll (push n) m = .ok () (m.setStack (n :: m.stack)) := by
  rw [executeAll_eq fun e he ↦ (plain_push n e he).1, ← m.afterAll_push m.stack n, setStack_stack]

/-- The value below some others is copied to the top, and nothing fails. -/
theorem executeAll_pick : executeAll (pick pre.length) (m.setStack (pre ++ v :: post)) =
    .ok () (m.setStack (v :: (pre ++ v :: post))) := by
  rw [executeAll_eq fun e he ↦ (plain_pick _ e he).1, afterAll_pick]

/-- The top value is buried at the depth below it, and nothing fails. -/
theorem executeAll_deposit (hk : k = pre.length + 2) :
    executeAll deposit (m.setStack (v :: k :: (pre ++ post))) =
      .ok () (m.setStack (k :: (pre ++ v :: post))) := by
  have hplain : ∀ e ∈ deposit, e.op ≠ .inNum ∧ e.op ≠ .outNum := by decide
  rw [executeAll_eq hplain, afterAll_deposit m pre post v hk]

/-- The value at the depth on top is raised, and nothing fails. -/
theorem executeAll_withdraw (hk : k = pre.length + 2) :
    executeAll withdraw (m.setStack (k :: (pre ++ v :: post))) =
      .ok () (m.setStack (v :: k :: (pre ++ post))) := by
  have hplain : ∀ e ∈ withdraw, e.op ≠ .inNum ∧ e.op ≠ .outNum := by decide
  rw [executeAll_eq hplain, afterAll_withdraw m pre post v hk]

end Machine

/-- With a depth between two and the height of the stack, below the top value, burying takes the top
value off and inserts it below as many values as the depth says, less one, and raising then restores
the stack. With such a depth on top, raising takes the value at that depth, counted from one, to the
top, and burying then restores the stack. -/
theorem deposit_and_withdraw_invert (m : Machine) {k : Int} (hk : 2 ≤ k) :
    (∀ v rest, k ≤ (v :: k :: rest).length →
      Machine.executeAll deposit (m.setStack (v :: k :: rest)) =
        .ok () (m.setStack ((k :: rest).insertIdx (k.toNat - 1) v)) ∧
      ((k :: rest).insertIdx (k.toNat - 1) v).head? = some k ∧
      ((k :: rest).insertIdx (k.toNat - 1) v).length = (v :: k :: rest).length ∧
      Machine.executeAll withdraw (m.setStack ((k :: rest).insertIdx (k.toNat - 1) v)) =
        .ok () (m.setStack (v :: k :: rest))) ∧
    ∀ rest, k ≤ (k :: rest).length →
      ∃ v, (k :: rest)[k.toNat - 1]? = some v ∧
        Machine.executeAll withdraw (m.setStack (k :: rest)) =
          .ok () (m.setStack (v :: (k :: rest).eraseIdx (k.toNat - 1))) ∧
        Machine.executeAll deposit (m.setStack (v :: (k :: rest).eraseIdx (k.toNat - 1))) =
          .ok () (m.setStack (k :: rest)) := by
  obtain ⟨n, rfl⟩ : ∃ n : Nat, k = n + 2 := ⟨(k - 2).toNat, by omega⟩
  have hindex : ((n : Int) + 2).toNat - 1 = n + 1 := by omega
  rw [hindex]
  constructor
  · intro v rest hle
    simp only [List.length_cons] at hle
    obtain ⟨pre, post, rfl, rfl⟩ : ∃ pre post, rest = pre ++ post ∧ pre.length = n :=
      ⟨rest.take n, rest.drop n, (List.take_append_drop n rest).symm,
        List.length_take_of_le (by omega)⟩
    rw [insertIdx_behind]
    refine ⟨m.executeAll_deposit pre post v rfl, rfl, ?_, m.executeAll_withdraw pre post v rfl⟩
    simp only [List.length_cons, List.length_append]
    omega
  · intro rest hle
    simp only [List.length_cons] at hle
    obtain ⟨pre, v, post, rfl, rfl⟩ : ∃ pre v post, rest = pre ++ v :: post ∧ pre.length = n :=
      ⟨rest.take n, rest[n], rest.drop (n + 1), by simp, List.length_take_of_le (by omega)⟩
    rw [eraseIdx_behind]
    exact ⟨v, by simp, m.executeAll_withdraw pre post v rfl, m.executeAll_deposit pre post v rfl⟩

/-- At both ends of the range: a depth of two on a stack of two values, and a depth of four on one of
four values. -/
theorem deposit_and_withdraw_invert_bounds :
    (2 : Int) ≤ 2 ∧ (2 : Int) ≤ 4 ∧
    Machine.executeAll deposit { stack := [-7, 2] } = .ok () { stack := [2, -7] } ∧
    Machine.executeAll withdraw { stack := [2, -7] } = .ok () { stack := [-7, 2] } ∧
    Machine.executeAll deposit { stack := [1000000000000, 4, 0, 5] } =
      .ok () { stack := [4, 0, 5, 1000000000000] } ∧
    Machine.executeAll withdraw { stack := [4, 0, 5, 1000000000000] } =
      .ok () { stack := [1000000000000, 4, 0, 5] } := by
  have htwo : (2 : Int) ≤ 2 := by decide
  have hfour : (2 : Int) ≤ 4 := by decide
  obtain ⟨hbury, -, -, -⟩ := (deposit_and_withdraw_invert {} htwo).1 (-7) [] (by decide)
  obtain ⟨v, hv, hraise, -⟩ := (deposit_and_withdraw_invert {} htwo).2 [-7] (by decide)
  obtain ⟨hbury', -, -, hraise'⟩ :=
    (deposit_and_withdraw_invert {} hfour).1 1000000000000 [0, 5] (by decide)
  cases hv
  exact ⟨htwo, hfour, hbury, hraise, hbury', hraise'⟩

/-- A push of any integer writes blocks of one codel at least, and puts that integer on top of any
stack. A copy from a depth within the stack does the same with the value at that depth, counted from
zero at the top. -/
theorem push_and_pick_put_on_top (m : Machine) (n : Int) :
    (∀ e ∈ push n, 1 ≤ e.size) ∧
    Machine.executeAll (push n) m = .ok () (m.setStack (n :: m.stack)) ∧
    (0 ≤ n → n + 1 ≤ m.stack.length →
      (∀ e ∈ pick n, 1 ≤ e.size) ∧ ∃ v, m.stack[n.toNat]? = some v ∧
        Machine.executeAll (pick n) m = .ok () (m.setStack (v :: m.stack))) := by
  refine ⟨fun e he ↦ (plain_push n e he).2, m.executeAll_push n, ?_⟩
  intro hn hheight
  lift n to Nat using hn
  have hlt : n < m.stack.length := by omega
  obtain ⟨pre, v, post, hsplit, rfl⟩ :
      ∃ pre v post, m.stack = pre ++ v :: post ∧ pre.length = n :=
    ⟨m.stack.take n, m.stack[n], m.stack.drop (n + 1), by simp, List.length_take_of_le (by omega)⟩
  refine ⟨fun e he ↦ (plain_pick _ e he).2, v, ?_, ?_⟩
  · rw [hsplit]
    simp
  · have hpick := m.executeAll_pick pre post v
    rwa [← hsplit, Machine.setStack_stack] at hpick

/-- The lowest of three values is copied, where the second roll goes through the whole stack; and
zero and a negative number are pushed. -/
theorem push_and_pick_put_on_top_lowest :
    (0 : Int) ≤ 2 ∧ (2 : Int) + 1 ≤ [(5 : Int), 0, -7].length ∧
    Machine.executeAll (pick 2) { stack := [5, 0, -7] } = .ok () { stack := [-7, 5, 0, -7] } ∧
    Machine.executeAll (push 0) { stack := [5] } = .ok () { stack := [0, 5] } ∧
    Machine.executeAll (push (-1000000000000)) { stack := [5] } =
      .ok () { stack := [-1000000000000, 5] } := by
  have hlow : (0 : Int) ≤ 2 := by decide
  have hhigh : (2 : Int) + 1 ≤ [(5 : Int), 0, -7].length := by decide
  obtain ⟨-, -, hpick⟩ := push_and_pick_put_on_top { stack := [5, 0, -7] } 2
  obtain ⟨-, v, hv, hcopy⟩ := hpick hlow hhigh
  obtain ⟨-, hzero, -⟩ := push_and_pick_put_on_top { stack := [5] } 0
  obtain ⟨-, hnegative, -⟩ := push_and_pick_put_on_top { stack := [5] } (-1000000000000)
  cases hv
  exact ⟨hlow, hhigh, hcopy, hzero, hnegative⟩

end BrainPiet
