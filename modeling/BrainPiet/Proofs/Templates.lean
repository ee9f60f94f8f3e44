import BrainPiet.Proofs.Machine.Progress
import BrainPiet.Proofs.Machine.Tape
import BrainPiet.Proofs.Sequence
import BrainPiet.Template

/-!
# Templates as operations on a tape

The operations that a template writes are replayed on a machine whose stack holds a tape. Up to the
fork of its lane a template has one run of operations, and behind it one for each track. A switch in
front of the fork flips the chooser when the walk is to take the lower track. On every tape, and for
every place of its head, a template does what its symbol does.
-/

namespace BrainPiet

open TapeStack

/-- The operation that a stroke writes, if it writes one. -/
def Stroke.emission? : Stroke → Option Emission
  | .emit op size => some ⟨op, size⟩
  | _ => none

namespace Template

/-- The operations up to where strokes stand aside, which is the fork of the lane. -/
def stem : List Piece → List Emission
  | .lane stroke :: rest => stroke.emission?.toList ++ stem rest
  | _ => []

/-- The pieces from the fork on. -/
def fork : List Piece → List Piece
  | .lane _ :: rest => fork rest
  | pieces => pieces

/-- The operations along one of the tracks, from some rows below the lane on. Strokes aside belong
to the upper track and strokes below the lane to the lower one; on the lane both tracks are one. -/
def track (lower : Bool) : (rows : Int) → List Piece → List Emission
  | rows, .lane (.down n) :: rest => track lower (rows + n) rest
  | rows, .lane stroke :: rest =>
    (if lower ∨ rows = 0 then stroke.emission?.toList else []) ++ track lower rows rest
  | rows, .aside strokes :: rest =>
    (if lower then [] else strokes.filterMap Stroke.emission?) ++ track lower rows rest
  | _, [] => []

private theorem op_ne_of_mem (a : Symbol) (depth : Int) (lower : Bool) :
    ∀ e ∈ stem (pieces depth a) ++ track lower 0 (fork (pieces depth a)),
      e.op ≠ .inNum ∧ e.op ≠ .outNum := by
  -- the depth stands in the columns of loops, which write no operation
  have hdepth : stem (pieces depth a) ++ track lower 0 (fork (pieces depth a)) =
      stem (pieces 0 a) ++ track lower 0 (fork (pieces 0 a)) := by
    cases a <;> rfl
  rw [hdepth]
  cases a <;> cases lower <;> decide

end Template

namespace Tape

/-- The stack that holds some cells with the head on one of them, top first. -/
def encode (cells : List Int) (i : Nat) : List Int :=
  cells.getD i 0 :: (i + 3) :: (cells.length + 2) :: cells.eraseIdx i

private theorem exists_cells {cells : List Int} {i : Nat} (h : i < cells.length) :
    ∃ t : Tape, t.cells = cells ∧ t.index = i := by
  refine ⟨⟨(cells.take i).reverse, cells[i], cells.drop (i + 1)⟩, ?_, ?_⟩
  · simp [Tape.cells]
  · simp only [index, List.length_reverse, List.length_take]
    omega

/-- Both ways to put a tape on a stack are the same. -/
theorem encode_cells (t : Tape) : encode t.cells t.index = t.toStack := by
  obtain ⟨left, cell, right⟩ := t
  have herase : (left.reverse ++ cell :: right).eraseIdx left.length = left.reverse ++ right := by
    rw [List.eraseIdx_append_of_length_le (by simp)]
    simp
  have hlength : ((left.reverse ++ cell :: right).length : Int) + 2 =
      left.length + right.length + 3 := by
    simp only [List.length_append, List.length_reverse, List.length_cons]
    omega
  simp only [encode, toStack, index, Tape.cells, herase, hlength]
  simp

/-- Writing replaces the cell at the index of the head. -/
theorem encode_set (t : Tape) (v : Int) :
    encode (t.cells.set t.index v) t.index = (t.write v).toStack := by
  have hcells : (t.write v).cells = t.cells.set t.index v := by simp [Tape.cells, write, index]
  rw [← hcells]
  exact (t.write v).encode_cells

private theorem index_lt_iff (t : Tape) : t.index + 1 < t.cells.length ↔ t.right ≠ [] := by
  rw [← List.length_pos_iff]
  simp only [index, Tape.cells, List.length_append, List.length_reverse, List.length_cons]
  omega

/-- Moving on takes the head to the next index, on a tape that may have grown. -/
theorem encode_advance (t : Tape) :
    encode (if t.index + 1 < t.cells.length then t.cells else t.cells ++ [0]) (t.index + 1) =
      t.advance.toStack := by
  have hindex : t.advance.index = t.index + 1 := by
    obtain ⟨left, cell, right⟩ := t
    cases right <;> rfl
  have hcells := t.cells_advance
  simp only [t.index_lt_iff, ite_not]
  rw [← hcells, ← hindex]
  exact t.advance.encode_cells

/-- Moving back takes the head to the index before. -/
theorem encode_retreat {t : Tape} (h : 1 ≤ t.index) :
    ∃ u, t.retreat? = some u ∧ encode t.cells (t.index - 1) = u.toStack := by
  obtain ⟨left, cell, right⟩ := t
  cases left with
  | nil => cases h
  | cons v rest =>
    refine ⟨_, rfl, ?_⟩
    rw [← encode_cells, ← cells_of_retreat? (t := ⟨v :: rest, cell, right⟩) rfl]
    rfl

end Tape

namespace Machine

/-- The machine with its chooser flipped, or as it was. -/
def switched (m : Machine) (b : Bool) : Machine :=
  { m with chooser := if b then m.chooser.flip else m.chooser }

/-- The machine replays the template of a symbol: its stem flips the chooser or not, and then the
lower or the upper track is taken. -/
def Replays (a : Symbol) (depth : Int) (lower : Bool) (m m' : Machine) : Prop :=
  ∃ between, executeAll (Template.stem (Template.pieces depth a)) m = .ok () between ∧
    between.chooser = (m.switched lower).chooser ∧
    executeAll (Template.track lower 0 (Template.fork (Template.pieces depth a))) between =
      .ok () m'

variable {m m' : Machine} {code : List Emission}

/-- Operations that neither read nor write numbers do not fail. -/
theorem executeAll_eq (h : ∀ e ∈ code, e.op ≠ .inNum ∧ e.op ≠ .outNum) (m : Machine) :
    executeAll code m = .ok () (m.afterAll code) := by
  induction code generalizing m with
  | nil => rfl
  | cons e code ih =>
    obtain ⟨hin, hout⟩ := h e List.mem_cons_self
    cases hex : execute e.op e.size m with
    | ok _ m' =>
      have hafter : m.after e.op e.size = m' := by rw [after, hex]
      rw [afterAll_cons, hafter, ← ih fun c hc ↦ h c (List.mem_cons_of_mem _ hc)]
      exact executeAll_cons_of_ok hex
    | error fault m' =>
      cases hop : e.op with
      | inNum => exact absurd hop hin
      | outNum => exact absurd hop hout
      | _ =>
        have hbalks := balks_of_execute hex
        rw [hop] at hbalks
        cases hbalks

@[simp] theorem after_switch (m : Machine) (v : Int) (s : List Int) (size : Int) :
    (m.setStack (v :: s)).after .switch size = (m.switched (v % 2 = 1)).setStack s := by
  simp only [after, execute, setStack, switched, decide_eq_true_eq]

private theorem replays_of {a : Symbol} {depth : Int} {lower : Bool} {between : Machine}
    (hstem : m.afterAll (Template.stem (Template.pieces depth a)) = between)
    (hchooser : between.chooser = (m.switched lower).chooser)
    (htrack : between.afterAll
      (Template.track lower 0 (Template.fork (Template.pieces depth a))) = m') :
    Replays a depth lower m m' := by
  have hplain := Template.op_ne_of_mem a depth lower
  refine ⟨between, ?_, hchooser, ?_⟩
  · rw [executeAll_eq fun e he ↦ hplain e (List.mem_append_left _ he), hstem]
  · rw [executeAll_eq fun e he ↦ hplain e (List.mem_append_right _ he), htrack]

private theorem afterAll_test {code : List Emission} {v : Int} {s : List Int}
    (h : m.afterAll code = m'.setStack (v :: s)) :
    m.afterAll (code ++ [⟨.switch, 1⟩]) = (m'.switched (v % 2 = 1)).setStack s := by
  rw [afterAll_append, h, afterAll_cons, afterAll_nil, after_switch]

variable (m : Machine) (depth : Int) (t : Tape)

theorem replays_increment :
    Replays .increment depth false (m.setStack t.toStack)
      (m.setStack (t.write (t.cell + 1)).toStack) :=
  replays_of rfl rfl rfl

theorem replays_decrement :
    Replays .decrement depth false (m.setStack t.toStack)
      (m.setStack (t.write (t.cell - 1)).toStack) :=
  replays_of rfl rfl rfl

theorem replays_retreat {u : Tape} (h : t.retreat? = some u) :
    Replays .retreat depth false (m.setStack t.toStack) (m.setStack u.toStack) :=
  replays_of (act_retreat_toStack m h) rfl rfl

theorem replays_write :
    Replays .write depth false (m.setStack t.toStack)
      (setStack { m with output := m.output.push (UInt8.ofNat (t.cell % 256).toNat) } t.toStack) :=
  replays_of rfl rfl rfl

/-- The test in front of the fork compares the head with the end of the tape. -/
theorem replays_advance :
    Replays .advance depth (t.right ≠ []) (m.setStack t.toStack)
      ((m.switched (t.right ≠ [])).setStack t.advance.toStack) := by
  have hstem := afterAll_test (afterAll_advance_toStack m t)
  have htrack := act_advance_toStack (m.switched (t.right ≠ [])) t
  unfold act at htrack
  rw [afterAll_advance_toStack] at htrack
  cases hright : t.right with
  | nil =>
    rw [hright] at hstem htrack
    exact replays_of hstem rfl htrack
  | cons v rest =>
    rw [hright] at hstem htrack
    exact replays_of hstem rfl htrack

/-- At the end of the input, minus one and one add up to zero. -/
theorem replays_read_nil (h : m.input = []) :
    Replays .read depth false (m.setStack t.toStack) (m.setStack (t.write 0).toStack) := by
  have htest := afterAll_read_nil (m := m.setStack t.toStack) rfl h
  exact replays_of (afterAll_test htest) rfl rfl

/-- A byte takes up minus one and one. -/
theorem replays_read_cons {b : UInt8} {rest : List UInt8} (h : m.input = b :: rest) :
    Replays .read depth true (m.setStack t.toStack)
      (setStack (switched { m with input := rest } true) (t.write b.toNat).toStack) := by
  have htest := afterAll_read_cons (m := m.setStack t.toStack) rfl h
  have hsum : 1 + (-1 + (b.toNat : Int)) = b.toNat := by omega
  refine replays_of (afterAll_test htest) rfl ?_
  change setStack _ ((1 + (-1 + (b.toNat : Int))) :: _) = _
  rw [hsum]
  rfl

/-- The test of a loop puts the value back. -/
theorem replays_loopOpen :
    Replays .loopOpen depth (t.cell = 0) (m.setStack t.toStack)
      ((m.switched (t.cell = 0)).setStack t.toStack) := by
  have hstem := afterAll_test (afterAll_loopOpen (m := m.setStack t.toStack) rfl)
  have hodd : decide ((if t.cell = 0 then 1 else 0 : Int) % 2 = 1) = decide (t.cell = 0) := by
    by_cases hcell : t.cell = 0
    · rw [if_pos hcell, decide_eq_true hcell]
      rfl
    · rw [if_neg hcell, decide_eq_false hcell]
      rfl
  rw [hodd] at hstem
  exact replays_of hstem rfl rfl

end Machine

/-- On the stack that holds some cells with the head on one of them, the operations of each template
do what its symbol does to these cells. The lower track is taken, and the chooser flipped, exactly
when the head is not on the last cell, when a byte could be read, and when the test of a loop finds
zero. -/
theorem templates_act_on_cells (m : Machine) (depth : Int) {cells : List Int} {i : Nat}
    (hi : i < cells.length) :
    Machine.Replays .increment depth false (m.setStack (Tape.encode cells i))
      (m.setStack (Tape.encode (cells.set i (cells[i] + 1)) i)) ∧
    Machine.Replays .decrement depth false (m.setStack (Tape.encode cells i))
      (m.setStack (Tape.encode (cells.set i (cells[i] - 1)) i)) ∧
    (1 ≤ i → Machine.Replays .retreat depth false (m.setStack (Tape.encode cells i))
      (m.setStack (Tape.encode cells (i - 1)))) ∧
    Machine.Replays .advance depth (i + 1 < cells.length) (m.setStack (Tape.encode cells i))
      ((m.switched (i + 1 < cells.length)).setStack
        (Tape.encode (if i + 1 < cells.length then cells else cells ++ [0]) (i + 1))) ∧
    (m.input = [] → Machine.Replays .read depth false (m.setStack (Tape.encode cells i))
      (m.setStack (Tape.encode (cells.set i 0) i))) ∧
    (∀ b rest, m.input = b :: rest →
      Machine.Replays .read depth true (m.setStack (Tape.encode cells i))
        (Machine.setStack (Machine.switched { m with input := rest } true)
          (Tape.encode (cells.set i b.toNat) i))) ∧
    Machine.Replays .write depth false (m.setStack (Tape.encode cells i))
      (Machine.setStack { m with output := m.output.push (UInt8.ofNat (cells[i] % 256).toNat) }
        (Tape.encode cells i)) ∧
    Machine.Replays .loopOpen depth (cells[i] = 0) (m.setStack (Tape.encode cells i))
      ((m.switched (cells[i] = 0)).setStack (Tape.encode cells i)) := by
  obtain ⟨t, rfl, rfl⟩ := Tape.exists_cells hi
  have hcell : t.cells[t.index] = t.cell := by
    rw [List.getElem_eq_iff]
    exact t.getElem?_cells_index
  have hright : decide (t.index + 1 < t.cells.length) = decide (t.right ≠ []) :=
    decide_eq_decide.mpr t.index_lt_iff
  rw [hcell, hright, Tape.encode_advance, Tape.encode_cells]
  simp only [Tape.encode_set]
  refine ⟨m.replays_increment depth t, m.replays_decrement depth t, ?_, m.replays_advance depth t,
    m.replays_read_nil depth t, fun b rest h ↦ m.replays_read_cons depth t h,
    m.replays_write depth t, m.replays_loopOpen depth t⟩
  intro h
  obtain ⟨u, hu, hencode⟩ := Tape.encode_retreat h
  rw [hencode]
  exact m.replays_retreat depth t hu

/-- The head on the second of three cells, one of which is huge and one negative, with a byte to
read. -/
theorem templates_act_on_cells_middle :
    (1 : Nat) < [1000000000000, -7, 0].length ∧
    Tape.encode [1000000000000, -7, 0] 1 = [-7, 4, 5, 1000000000000, 0] ∧
    Machine.Replays .advance 0 true { stack := [-7, 4, 5, 1000000000000, 0], input := [65] }
      { stack := [0, 5, 5, 1000000000000, -7], chooser := ⟨1⟩, input := [65] } ∧
    Machine.Replays .retreat 0 false { stack := [-7, 4, 5, 1000000000000, 0], input := [65] }
      { stack := [1000000000000, 3, 5, -7, 0], input := [65] } ∧
    Machine.Replays .read 0 true { stack := [-7, 4, 5, 1000000000000, 0], input := [65] }
      { stack := [65, 4, 5, 1000000000000, 0], chooser := ⟨1⟩ } ∧
    Machine.Replays .write 0 false { stack := [-7, 4, 5, 1000000000000, 0], input := [65] }
      { stack := [-7, 4, 5, 1000000000000, 0], input := [65], output := #[249] } := by
  have hlt : 1 < [(1000000000000 : Int), -7, 0].length := by decide
  obtain ⟨-, -, hretreat, hadvance, -, hread, hwrite, -⟩ :=
    templates_act_on_cells { input := [65] } 0 hlt
  exact ⟨hlt, rfl, hadvance, hretreat (Nat.le_refl 1), hread 65 [] rfl, hwrite⟩

end BrainPiet
