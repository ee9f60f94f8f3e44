import BrainPiet.Proofs.Machine.Effect
import Mathlib.Data.List.Rotate
import Mathlib.Logic.Function.Iterate

/-!
# Rolling the top of a stack

A single roll buries the top value below the other values of the window, and a single roll back
raises the lowest value of the window again. Any number of rolls is that many single ones, although
the machine makes no more of them than the remainder by the depth of the window. So rolls of one
depth add up, and each is undone by its opposite. A depth that the stack does not have changes
nothing at all.
-/

namespace BrainPiet

namespace Machine

/-- Buries the top value below the others of the `d` topmost ones. -/
def bury (d : Nat) : List Int → List Int
  | v :: s => s.insertIdx (d - 1) v
  | [] => []

/-- Raises the lowest of the `d` topmost values above the others. -/
def raise (d : Nat) (s : List Int) : List Int := s[d - 1]?.toList ++ s.eraseIdx (d - 1)

/-- Buries as often as a number says, or raises as often as it says below zero. -/
def turns (d : Nat) (a : Int) : List Int → List Int :=
  if 0 ≤ a then (bury d)^[a.natAbs] else (raise d)^[a.natAbs]

/-- The window of the `d` topmost values, turned by the remainder of a number. -/
def turned (d : Nat) (a : Int) (s : List Int) : List Int :=
  (s.take d).rotate (a % d).toNat ++ s.drop d

section Window

variable (pre post : List Int) (v : Int)

/-- Burying puts the top value behind the others of the window. -/
theorem bury_append : bury (pre.length + 1) (v :: (pre ++ post)) = pre ++ v :: post := by
  rw [bury, Nat.add_sub_cancel]
  induction pre with
  | nil => rfl
  | cons a pre ih => simpa using ih

/-- Raising takes the last value of the window to its front. -/
theorem raise_append : raise (pre.length + 1) (pre ++ v :: post) = v :: (pre ++ post) := by
  rw [raise, Nat.add_sub_cancel, List.eraseIdx_append_of_length_le (Nat.le_refl _), Nat.sub_self,
    List.eraseIdx_cons_zero]
  simp

end Window

variable {d : Nat} {s : List Int}

private theorem length_rotate_take (h : d ≤ s.length) (n : Nat) :
    ((s.take d).rotate n).length = d := by
  rw [List.length_rotate, List.length_take_of_le h]

private theorem drop_turned (h : d ≤ s.length) (a : Int) : (turned d a s).drop d = s.drop d :=
  List.drop_left' (length_rotate_take h _)

private theorem take_turned (h : d ≤ s.length) (a : Int) :
    (turned d a s).take d = (s.take d).rotate (a % d).toNat :=
  List.take_left' (length_rotate_take h _)

@[simp] theorem length_turned (d : Nat) (a : Int) (s : List Int) :
    (turned d a s).length = s.length := by
  rw [turned, List.length_append, List.length_rotate, ← List.length_append, List.take_append_drop]

@[simp] theorem turned_zero (d : Nat) (s : List Int) : turned d 0 s = s := by
  rw [turned, Int.zero_emod, Int.toNat_zero, List.rotate_zero, List.take_append_drop]

private theorem rotate_emod_add {l : List Int} (h : l.length = d) (a b : Int) :
    (l.rotate (a % d).toNat).rotate (b % d).toNat = l.rotate ((a + b) % d).toNat := by
  rcases Nat.eq_zero_or_pos d with rfl | hd
  · rw [List.length_eq_zero_iff.mp h, List.rotate_nil, List.rotate_nil, List.rotate_nil]
  · have ha := Int.emod_nonneg a (b := d) (by omega)
    have hb := Int.emod_nonneg b (b := d) (by omega)
    have hmod : ((a % d).toNat + (b % d).toNat) % d = ((a + b) % d).toNat := by
      apply Int.ofNat_inj.mp
      rw [Int.natCast_emod, Int.natCast_add, Int.toNat_of_nonneg ha, Int.toNat_of_nonneg hb,
        Int.toNat_of_nonneg (Int.emod_nonneg _ (by omega)), ← Int.add_emod]
    rw [List.rotate_rotate, ← List.rotate_mod, h, hmod]

/-- Turning twice turns by the sum. -/
theorem turned_turned (h : d ≤ s.length) (a b : Int) :
    turned d b (turned d a s) = turned d (a + b) s := by
  rw [turned, take_turned h, drop_turned h, rotate_emod_add (List.length_take_of_le h)]
  rfl

/-- One step of a turn buries the top value. -/
theorem turned_one (h : d ≤ s.length) : turned d 1 s = bury d s := by
  cases d with
  | zero => cases s <;> rfl
  | succ k =>
    obtain ⟨v, s, rfl⟩ := List.exists_cons_of_length_pos (Nat.zero_lt_of_lt h)
    obtain ⟨pre, post, rfl, rfl⟩ : ∃ pre post, s = pre ++ post ∧ pre.length = k :=
      ⟨s.take k, s.drop k, (List.take_append_drop k s).symm,
        List.length_take_of_le (Nat.le_of_succ_le_succ h)⟩
    have hone : (1 % ((pre.length + 1 : Nat) : Int)).toNat = 1 % (v :: pre).length := rfl
    rw [bury_append, turned, hone, List.take_succ_cons, List.take_left, List.drop_succ_cons,
      List.drop_left, List.rotate_mod, List.rotate_cons_succ, List.rotate_zero]
    simp

/-- One step back raises the lowest value. -/
theorem turned_neg_one (h : d ≤ s.length) : turned d (-1) s = raise d s := by
  cases d with
  | zero => cases s <;> rfl
  | succ k =>
    obtain ⟨pre, v, post, rfl, rfl⟩ : ∃ pre v post, s = pre ++ v :: post ∧ pre.length = k :=
      ⟨s.take k, s[k], s.drop (k + 1), by simp, List.length_take_of_le (by omega)⟩
    have hback : (-1 % ((pre.length + 1 : Nat) : Int)).toNat = pre.length := by
      rw [← Int.add_emod_right, Int.emod_eq_of_lt (by omega) (by omega)]
      omega
    rw [raise_append, turned, hback, List.take_length_add_append, List.drop_length_add_append,
      List.take_succ_cons, List.take_zero, List.rotate_append_length_eq]
    rfl

private theorem iterate_eq_turned {f : List Int → List Int} {k : Int}
    (hf : ∀ t : List Int, d ≤ t.length → f t = turned d k t) (n : Nat) (h : d ≤ s.length) :
    f^[n] s = turned d (n * k) s := by
  induction n with
  | zero => rw [Function.iterate_zero_apply, Int.natCast_zero, Int.zero_mul, turned_zero]
  | succ n ih =>
    rw [Function.iterate_succ_apply', ih, hf _ (by rwa [length_turned]), turned_turned h,
      Int.natCast_add, Int.natCast_one, Int.add_mul, Int.one_mul]

private theorem turns_eq_turned (h : d ≤ s.length) (a : Int) : turns d a s = turned d a s := by
  unfold turns
  split
  · rw [iterate_eq_turned (fun t ht ↦ (turned_one ht).symm) _ h, Int.mul_one,
      Int.natAbs_of_nonneg ‹_›]
  · rw [iterate_eq_turned (fun t ht ↦ (turned_neg_one ht).symm) _ h]
    congr 1
    omega

/-- A roll turns the window below its operands. -/
theorem rolled_eq_turned (h : d ≤ s.length) (a : Int) : rolled (a :: d :: s) = turned d a s := by
  have hdepth : ¬((d : Int) < 0 ∨ (d : Int) > s.length) := by omega
  rw [rolled, if_neg hdepth, Int.toNat_natCast, rotate, turned]
  rcases Nat.eq_zero_or_pos d with rfl | hd
  · simp
  · have hlt := Int.emod_lt_of_pos a (b := d) (by omega)
    rw [List.rotate_eq_drop_append_take (by rw [List.length_take_of_le h]; omega)]

/-- The operations of a roll, with the depth and the number pushed before it. -/
def rolling (d a size : Int) : List Emission := [⟨.push, d⟩, ⟨.push, a⟩, ⟨.roll, size⟩]

/-- Rolling takes its operands off and turns the window. -/
theorem executeAll_rolling {m : Machine} (h : d ≤ m.stack.length) (a size : Int) :
    executeAll (rolling d a size) m = .ok () (m.setStack (turned d a m.stack)) := by
  rw [← rolled_eq_turned h]
  rfl

/-- Rolling twice with one depth rolls by the sum. -/
theorem executeAll_rolling_append {m : Machine} (h : d ≤ m.stack.length) (a b size : Int) :
    executeAll (rolling d a size ++ rolling d b size) m =
      executeAll (rolling d (a + b) size) m := by
  have hturned : d ≤ (m.setStack (turned d a m.stack)).stack.length := by
    change d ≤ (turned d a m.stack).length
    rwa [length_turned]
  calc executeAll (rolling d a size ++ rolling d b size) m
      = executeAll (rolling d b size) (m.setStack (turned d a m.stack)) :=
        executeAll_append_of_ok (executeAll_rolling h a size)
    _ = .ok () (m.setStack (turned d b (turned d a m.stack))) := executeAll_rolling hturned b size
    _ = executeAll (rolling d (a + b) size) m := by rw [turned_turned h, executeAll_rolling h]

/-- With a depth of zero up to the height of the stack, a roll takes its two operands off and leaves
all values below the window where they are. It does what as many single steps do as its number says:
a step forward buries the top value at the depth, and a step back undoes that. Rolls of one depth
add up, and a roll by the opposite number restores the machine. With any other depth a roll changes
nothing, and its operands stay. -/
theorem rolls_act_on_window (m : Machine) (d size : Int) :
    (0 ≤ d → d ≤ m.stack.length →
      (raise d.toNat (bury d.toNat m.stack) = m.stack ∧
        bury d.toNat (raise d.toNat m.stack) = m.stack) ∧
      ∀ a b : Int,
        executeAll (rolling d a size) m = .ok () (m.setStack (turns d.toNat a m.stack)) ∧
        (turns d.toNat a m.stack).length = m.stack.length ∧
        (turns d.toNat a m.stack).drop d.toNat = m.stack.drop d.toNat ∧
        executeAll (rolling d a size ++ rolling d b size) m =
          executeAll (rolling d (a + b) size) m ∧
        executeAll (rolling d a size ++ rolling d (-a) size) m = .ok () m) ∧
    (d < 0 ∨ m.stack.length < d → ∀ a : Int,
      execute .roll size (m.setStack (a :: d :: m.stack)) =
        .ok () (m.setStack (a :: d :: m.stack))) := by
  constructor
  · intro hd hle
    lift d to Nat using hd
    have h : d ≤ m.stack.length := Int.ofNat_le.mp hle
    rw [Int.toNat_natCast]
    refine ⟨⟨?_, ?_⟩, ?_⟩
    · rw [← turned_one h, ← turned_neg_one (by rwa [length_turned]), turned_turned h]
      exact turned_zero d m.stack
    · rw [← turned_neg_one h, ← turned_one (by rwa [length_turned]), turned_turned h]
      exact turned_zero d m.stack
    · intro a b
      rw [turns_eq_turned h]
      refine ⟨executeAll_rolling h a size, length_turned d a m.stack, drop_turned h a,
        executeAll_rolling_append h a b size, ?_⟩
      rw [executeAll_rolling_append h, Int.add_right_neg, executeAll_rolling h, turned_zero]
      rfl
  · intro hout a
    change EStateM.Result.ok () (m.setStack (rolled (a :: d :: m.stack))) = _
    rw [rolled, if_pos hout]

/-- The whole of a stack of three values is rolled, forward, back, and by a number far beyond the
depth and back again; a depth of four is beyond the stack. -/
theorem rolls_act_on_window_three :
    (0 : Int) ≤ 3 ∧ (3 : Int) ≤ [(3 : Int), 2, 1].length ∧ ([(3 : Int), 2, 1].length : Int) < 4 ∧
    executeAll (rolling 3 1 1) { stack := [3, 2, 1] } = .ok () { stack := [2, 1, 3] } ∧
    executeAll (rolling 3 (-1) 1) { stack := [3, 2, 1] } = .ok () { stack := [1, 3, 2] } ∧
    executeAll (rolling 3 1000000000000 1 ++ rolling 3 (-1000000000000) 1)
      { stack := [3, 2, 1] } = .ok () { stack := [3, 2, 1] } ∧
    execute .roll 1 { stack := [-1, 4, 3, 2, 1] } = .ok () { stack := [-1, 4, 3, 2, 1] } := by
  have hlow : (0 : Int) ≤ 3 := by decide
  have hhigh : (3 : Int) ≤ [(3 : Int), 2, 1].length := by decide
  have hout : ([(3 : Int), 2, 1].length : Int) < 4 := by decide
  obtain ⟨-, hroll⟩ := (rolls_act_on_window { stack := [3, 2, 1] } 3 1).1 hlow hhigh
  obtain ⟨hforward, -⟩ := hroll 1 0
  obtain ⟨hback, -⟩ := hroll (-1) 0
  obtain ⟨-, -, -, -, hundo⟩ := hroll 1000000000000 0
  have hbeyond := (rolls_act_on_window { stack := [3, 2, 1] } 4 1).2 (.inr hout) (-1)
  exact ⟨hlow, hhigh, hout, hforward, hback, hundo, hbeyond⟩

end Machine

end BrainPiet
