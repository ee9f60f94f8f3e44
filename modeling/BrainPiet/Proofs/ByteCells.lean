import BrainPiet.Proofs.Simulation

/-!
# Cells of one byte

A tape program can also be run on a memory of bytes: an endless row of cells that start at zero and
wrap around. The integer cells of a tape are then seen modulo 256. Both runs go the same way as long
as no loop tests an integer that is a multiple of 256 other than zero, and then the picture of the
program writes what the run on bytes writes.
-/

namespace BrainPiet

/-- An endless memory of bytes with a head on one of them, the input that is left and the output. -/
structure ByteWorld where
  cells : Nat → UInt8 := fun _ ↦ 0
  head : Nat := 0
  input : List UInt8 := []
  output : List UInt8 := []

namespace ByteWorld

/-- The byte under the head. -/
def cell (b : ByteWorld) : UInt8 := b.cells b.head

/-- The memory with another byte under the head. -/
def store (b : ByteWorld) (v : UInt8) : ByteWorld :=
  { b with cells := fun i ↦ if i = b.head then v else b.cells i }

/-- Carries out one action; none when the head would leave the memory. Brackets are no actions. -/
def act? (b : ByteWorld) : Symbol → Option ByteWorld
  | .increment => some (b.store (b.cell + 1))
  | .decrement => some (b.store (b.cell - 1))
  | .advance => some { b with head := b.head + 1 }
  | .retreat => if b.head = 0 then none else some { b with head := b.head - 1 }
  | .read =>
    match b.input with
    | [] => some (b.store 0)
    | v :: rest => some { b.store v with input := rest }
  | .write => some { b with output := b.output ++ [b.cell] }
  | .loopOpen | .loopClose => none

end ByteWorld

namespace TapeProgram

/-- Runs a program on bytes, with at most `fuel` rounds of loops inside each other and after each
other; none when the bound is reached or the head leaves the memory. -/
def runBytes : (fuel : Nat) → TapeProgram → ByteWorld → Option ByteWorld
  | _, done, b => some b
  | fuel, act symbol next, b => (b.act? symbol).bind (runBytes fuel next)
  | 0, loop _ next, b => if b.cell = 0 then runBytes 0 next b else none
  | fuel + 1, loop body next, b =>
    if b.cell = 0 then runBytes (fuel + 1) next b
    else (runBytes fuel body b).bind (runBytes fuel (loop body next))
termination_by fuel p => (fuel, p)

/-- The integers that are tested where loops begin, in the order of the run. -/
def tests : (fuel : Nat) → TapeProgram → TapeWorld → List Int
  | _, done, _ => []
  | fuel, act symbol next, w =>
    match w.act? symbol with
    | none => []
    | some w => tests fuel next w
  | 0, loop _ next, w => w.tape.cell :: if w.tape.cell = 0 then tests 0 next w else []
  | fuel + 1, loop body next, w =>
    w.tape.cell ::
      if w.tape.cell = 0 then tests (fuel + 1) next w
      else tests fuel body w ++
        match run fuel body w with
        | .halted w => tests fuel (loop body next) w
        | _ => []
termination_by fuel p => (fuel, p)

/-- A run on bytes that came to its end does so with every larger bound. -/
theorem runBytes_mono {fuel more : Nat} {p : TapeProgram} {b b' : ByteWorld}
    (h : p.runBytes fuel b = some b') (hle : fuel ≤ more) : p.runBytes more b = some b' := by
  induction fuel, p, b using runBytes.induct generalizing more b' with
  | case1 fuel b =>
    rw [runBytes] at h ⊢
    exact h
  | case2 fuel symbol next b ih =>
    rw [runBytes] at h ⊢
    obtain ⟨b₁, hact, hnext⟩ := Option.bind_eq_some_iff.mp h
    rw [hact]
    exact ih b₁ hnext hle
  | case3 body next b hzero ih =>
    rw [runBytes, if_pos hzero] at h
    cases more with
    | zero =>
      rw [runBytes, if_pos hzero]
      exact h
    | succ more =>
      rw [runBytes, if_pos hzero]
      exact ih h hle
  | case4 body next b hcell =>
    rw [runBytes, if_neg hcell] at h
    cases h
  | case5 fuel body next b hzero ih =>
    obtain ⟨more, rfl⟩ : ∃ k, more = k + 1 := ⟨more - 1, by omega⟩
    rw [runBytes, if_pos hzero] at h ⊢
    exact ih h hle
  | case6 fuel body next b hcell ihb ih =>
    obtain ⟨more, rfl⟩ : ∃ k, more = k + 1 := ⟨more - 1, by omega⟩
    rw [runBytes, if_neg hcell] at h ⊢
    obtain ⟨b₁, hbody, hloop⟩ := Option.bind_eq_some_iff.mp h
    rw [ihb hbody (Nat.le_of_succ_le_succ hle)]
    exact ih b₁ hloop (Nat.le_of_succ_le_succ hle)

end TapeProgram

namespace Byte

private theorem toNat_ofInt (v : Int) : (UInt8.ofInt v).toNat = (v % 256).toNat := by
  show (UInt8.ofNat (v % 256).toNat).toNat = _
  rw [UInt8.toNat_ofNat', Nat.mod_eq_of_lt (by omega)]

private theorem ofInt_eq_zero_iff {v : Int} : UInt8.ofInt v = 0 ↔ (256 : Int) ∣ v := by
  rw [← UInt8.toNat_inj, toNat_ofInt, UInt8.toNat_zero]
  omega

private theorem ofInt_toNat (b : UInt8) : UInt8.ofInt b.toNat = b := by
  have hlt := b.toNat_lt
  rw [← UInt8.toNat_inj, toNat_ofInt]
  omega

end Byte

namespace Tape

/-- The integer of a cell; cells behind the last one hold zero. -/
def value (t : Tape) (i : Nat) : Int := t.cells[i]?.getD 0

private theorem value_index (t : Tape) : t.value t.index = t.cell := by
  rw [value, getElem?_cells_index]
  rfl

private theorem value_write (t : Tape) (v : Int) (i : Nat) :
    (t.write v).value i = if i = t.index then v else t.value i := by
  have hlen : t.left.reverse.length = t.index := List.length_reverse
  simp only [value, write, cells]
  by_cases hlt : i < t.index
  · rw [if_neg (by omega), List.getElem?_append_left (by omega),
      List.getElem?_append_left (by omega)]
  · rw [List.getElem?_append_right (by omega), List.getElem?_append_right (by omega), hlen]
    by_cases heq : i = t.index
    · rw [if_pos heq, heq, Nat.sub_self]
      rfl
    · obtain ⟨k, hk⟩ : ∃ k, i - t.index = k + 1 := ⟨i - t.index - 1, by omega⟩
      rw [if_neg heq, hk]
      rfl

private theorem value_advance (t : Tape) (i : Nat) : t.advance.value i = t.value i := by
  rw [value, value, cells_advance]
  split
  · rw [List.getElem?_append]
    split
    · rfl
    · next hlen =>
      rw [List.getElem?_eq_none (l := t.cells) (by omega)]
      cases i - t.cells.length <;> simp
  · rfl

private theorem index_advance (t : Tape) : t.advance.index = t.index + 1 := by
  unfold advance
  split <;> rfl

private theorem retreat?_eq_some {t u : Tape} (h : t.retreat? = some u) :
    t.index = u.index + 1 ∧ ∀ i, u.value i = t.value i := by
  refine ⟨?_, fun i ↦ by rw [value, value, cells_of_retreat? h]⟩
  unfold retreat? at h
  split at h
  · cases h
  · next v rest hleft =>
    cases h
    rw [index, hleft]
    rfl

end Tape

/-- The bytes are the integers of a tape modulo 256, with the same head, input and output. -/
structure TapeWorld.Wraps (w : TapeWorld) (b : ByteWorld) : Prop where
  cells : ∀ i, b.cells i = UInt8.ofInt (w.tape.value i)
  head : b.head = w.tape.index
  input : b.input = w.input
  output : b.output = w.output

namespace TapeWorld.Wraps

variable {w w' : TapeWorld} {b : ByteWorld}

/-- The byte under the head is that of the integer. -/
theorem cell (h : w.Wraps b) : b.cell = UInt8.ofInt w.tape.cell := by
  rw [ByteWorld.cell, h.cells, h.head, Tape.value_index]

/-- Integer and byte are written at the same place. -/
theorem store (h : w.Wraps b) (v : Int) :
    Wraps { w with tape := w.tape.write v } (b.store (UInt8.ofInt v)) := by
  refine ⟨?_, h.head, h.input, h.output⟩
  intro i
  simp only [ByteWorld.store, Tape.value_write, h.head, h.cells]
  split <;> rfl

/-- An action does the same on both. -/
theorem act (h : w.Wraps b) {a : Symbol} (ha : w.act? a = some w') :
    ∃ b', b.act? a = some b' ∧ w'.Wraps b' := by
  cases a with
  | increment =>
    cases ha
    refine ⟨_, ?_, h.store (w.tape.cell + 1)⟩
    rw [ByteWorld.act?, h.cell, UInt8.ofInt_add, UInt8.ofInt_one]
  | decrement =>
    cases ha
    refine ⟨_, ?_, h.store (w.tape.cell - 1)⟩
    rw [ByteWorld.act?, h.cell, Int.sub_eq_add_neg, UInt8.ofInt_add, UInt8.sub_eq_add_neg,
      UInt8.ofInt_neg_one]
  | advance =>
    cases ha
    refine ⟨_, rfl, ?_, ?_, h.input, h.output⟩
    · intro i
      rw [Tape.value_advance]
      exact h.cells i
    · rw [Tape.index_advance, ← h.head]
  | retreat =>
    obtain ⟨t, ht, rfl⟩ := Option.map_eq_some_iff.mp ha
    obtain ⟨hindex, hvalue⟩ := Tape.retreat?_eq_some ht
    have hhead : b.head = t.index + 1 := h.head.trans hindex
    refine ⟨{ b with head := b.head - 1 }, ?_, ?_, ?_, h.input, h.output⟩
    · rw [ByteWorld.act?, if_neg (by omega)]
    · intro i
      rw [hvalue]
      exact h.cells i
    · show b.head - 1 = t.index
      omega
  | read =>
    simp only [act?] at ha
    simp only [ByteWorld.act?, h.input]
    cases hinput : w.input with
    | nil =>
      rw [hinput] at ha
      cases ha
      have hstored := h.store 0
      exact ⟨_, rfl, hstored.cells, hstored.head, h.input.trans hinput, hstored.output⟩
    | cons v rest =>
      rw [hinput] at ha
      cases ha
      have hstored := h.store v.toNat
      rw [Byte.ofInt_toNat] at hstored
      exact ⟨_, rfl, hstored.cells, hstored.head, rfl, hstored.output⟩
  | write =>
    cases ha
    refine ⟨_, rfl, h.cells, h.head, h.input, ?_⟩
    rw [h.output, h.cell]
    rfl
  | loopOpen => cases ha
  | loopClose => cases ha

private theorem cell_eq_zero_iff (h : w.Wraps b) (htest : w.tape.cell = 0 ∨ ¬(256 : Int) ∣ w.tape.cell) :
    b.cell = 0 ↔ w.tape.cell = 0 := by
  rw [h.cell, Byte.ofInt_eq_zero_iff]
  constructor
  · intro hdvd
    exact htest.resolve_right (absurd hdvd)
  · intro hzero
    rw [hzero]
    exact Int.dvd_zero 256

end TapeWorld.Wraps

/-- Where a run on integers halts, and every test on its way is alike on bytes, the run on bytes halts
with the bytes of the same tape. -/
theorem TapeProgram.exists_runBytes {fuel : Nat} {p : TapeProgram} {w w' : TapeWorld}
    {b : ByteWorld} (h : w.Wraps b) (hrun : p.run fuel w = .halted w')
    (htests : ∀ v ∈ p.tests fuel w, v = 0 ∨ ¬(256 : Int) ∣ v) :
    ∃ b', p.runBytes fuel b = some b' ∧ w'.Wraps b' := by
  induction fuel, p, w using run.induct generalizing w' b with
  | case1 fuel w =>
    rw [run] at hrun
    cases hrun
    exact ⟨b, by rw [runBytes], h⟩
  | case2 fuel symbol next w hfell =>
    rw [run, hfell] at hrun
    cases hrun
  | case3 fuel symbol next w w₁ hact ih =>
    rw [run, hact] at hrun
    rw [tests, hact] at htests
    obtain ⟨b₁, hbyte, h₁⟩ := h.act hact
    rw [runBytes, hbyte]
    exact ih h₁ hrun htests
  | case4 body next w hzero ih =>
    rw [run, if_pos hzero] at hrun
    rw [tests, if_pos hzero] at htests
    obtain ⟨htest, hrest⟩ := List.forall_mem_cons.mp htests
    rw [runBytes, if_pos ((h.cell_eq_zero_iff htest).mpr hzero)]
    exact ih h hrun hrest
  | case5 body next w hcell =>
    rw [run, if_neg hcell] at hrun
    cases hrun
  | case6 fuel body next w hzero ih =>
    rw [run, if_pos hzero] at hrun
    rw [tests, if_pos hzero] at htests
    obtain ⟨htest, hrest⟩ := List.forall_mem_cons.mp htests
    rw [runBytes, if_pos ((h.cell_eq_zero_iff htest).mpr hzero)]
    exact ih h hrun hrest
  | case7 fuel body next w hcell w₁ hbody ihb ih =>
    rw [run, if_neg hcell, hbody] at hrun
    rw [tests, if_neg hcell, hbody] at htests
    obtain ⟨htest, hrest⟩ := List.forall_mem_cons.mp htests
    obtain ⟨hinner, hagain⟩ := List.forall_mem_append.mp hrest
    obtain ⟨b₁, hbyte, h₁⟩ := ihb h hbody hinner
    rw [runBytes, if_neg (mt (h.cell_eq_zero_iff htest).mp hcell), hbyte]
    exact ih h₁ hrun hagain
  | case8 fuel body next w hcell hbody ihb =>
    rw [run, if_neg hcell, hbody] at hrun
    cases hrun
  | case9 fuel body next w hcell hbody ihb =>
    rw [run, if_neg hcell, hbody] at hrun
    cases hrun

/-- Agreement with cells of one byte. If the run on integers halts without leaving the tape, and no
loop tests a multiple of 256 other than zero, then the run on bytes halts too, and the picture gives
its output within all large limits. -/
theorem picture_agrees_with_bytes {text : String} {code : List Instruction}
    (hparse : Source.parse text = .ok code) :
    ∃ grid picture, translate text = .ok grid ∧
      Picture.load grid.normalize {} = .ok () picture ∧
      (∃ program : TapeProgram, program.Plain ∧ program.instructions 0 = code) ∧
      ∀ program : TapeProgram, program.Plain → program.instructions 0 = code →
        ∀ (input : List UInt8) (fuel : Nat) (w : TapeWorld),
          program.run fuel { input } = .halted w →
          (∀ v ∈ program.tests fuel { input }, v = 0 ∨ ¬(256 : Int) ∣ v) →
          ∃ b : ByteWorld, (∀ more, fuel ≤ more → program.runBytes more { input } = some b) ∧
            ∃ least : Nat, ∀ limit : Int, least ≤ limit →
              picture.run input limit = .ok b.output := by
  obtain ⟨grid, picture, htranslate, hload, hrenders, hdrawn⟩ := exists_picture hparse
  refine ⟨grid, picture, htranslate, hload, (nests_of_parse hparse).exists_program, ?_⟩
  intro program hplain hcode input fuel w hrun htests
  have hstart : TapeWorld.Wraps { input } { input } := by
    refine ⟨?_, rfl, rfl, rfl⟩
    intro i
    cases i <;> rfl
  obtain ⟨b, hbytes, hwraps⟩ := TapeProgram.exists_runBytes hstart hrun htests
  refine ⟨b, fun more hmore ↦ TapeProgram.runBytes_mono hbytes hmore, ?_⟩
  rw [hwraps.output]
  exact hdrawn.exists_limit hrenders hplain hcode hrun

/-- A program that takes one from zero writes 255, and comes back to zero in its loop. -/
theorem picture_agrees_with_bytes_wrapped :
    ∃ grid picture, translate "-.[+.]" = .ok grid ∧
      Picture.load grid.normalize {} = .ok () picture ∧
      ∃ least : Nat, ∀ limit : Int, least ≤ limit → picture.run [] limit = .ok [255, 0] := by
  have hparse : Source.parse "-.[+.]" = .ok [⟨.decrement, 0⟩, ⟨.write, 0⟩, ⟨.loopOpen, 1⟩,
    ⟨.increment, 0⟩, ⟨.write, 0⟩, ⟨.loopClose, 1⟩] := by rfl
  obtain ⟨grid, picture, htranslate, hload, -, hagrees⟩ := picture_agrees_with_bytes hparse
  obtain ⟨b, hbytes, least, hleast⟩ := hagrees
    (.act .decrement (.act .write (.loop (.act .increment (.act .write .done)) .done)))
    (by simp [TapeProgram.Plain]) rfl [] 1 { output := [255, 0] }
    (by simp [TapeProgram.run, TapeWorld.act?, Tape.write])
    (by simp [TapeProgram.tests, TapeProgram.run, TapeWorld.act?, Tape.write])
  have houtput : b.output = [255, 0] := by
    have hrun := hbytes 1 (Nat.le_refl 1)
    simp only [TapeProgram.runBytes, ByteWorld.act?, ByteWorld.store, ByteWorld.cell,
      Option.bind_some] at hrun
    cases hrun
    rfl
  rw [houtput] at hleast
  exact ⟨grid, picture, htranslate, hload, least, hleast⟩

end BrainPiet
