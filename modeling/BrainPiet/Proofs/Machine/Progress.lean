import BrainPiet.Proofs.Machine.Effect

/-!
# What every operation keeps

Whether an operation succeeds or fails, it keeps the heading among the four directions and the two
sides, takes what it reads off the front of the input, and adds what it writes at the end of the
output. Only a number that cannot be read or written makes an operation fail.
-/

namespace BrainPiet

private theorem NumberScan.rest_suffix (input : List UInt8) : (ofInput input).rest <:+ input := by
  have htrim : input.dropWhile Byte.isBlank <:+ input := List.dropWhile_suffix _
  simp only [ofInput]
  split
  · exact (List.dropWhile_suffix _).trans ((List.tail_suffix _).trans htrim)
  · exact (List.dropWhile_suffix _).trans htrim

namespace Machine

/-- The pointer counts less than four quarter turns, and the chooser is zero or one. -/
structure Headed (m : Machine) : Prop where
  pointer : 0 ≤ m.pointer.quarters ∧ m.pointer.quarters ≤ 3
  chooser : m.chooser.count = 0 ∨ m.chooser.count = 1

/-- Such a machine faces one of the four directions, with one of the two sides. -/
theorem Headed.exists_facing {m : Machine} (h : m.Headed) : ∃ d s, m = m.facing d s := by
  obtain ⟨stack, ⟨quarters⟩, ⟨count⟩, input, output⟩ := m
  obtain ⟨⟨hlow, hhigh⟩, hcount⟩ := h
  dsimp only at hlow hhigh hcount
  have hd : ∃ d : Direction, d.pointer = ⟨quarters⟩ := by
    have hquarters : quarters = 0 ∨ quarters = 1 ∨ quarters = 2 ∨ quarters = 3 := by omega
    rcases hquarters with rfl | rfl | rfl | rfl
    · exact ⟨.right, rfl⟩
    · exact ⟨.down, rfl⟩
    · exact ⟨.left, rfl⟩
    · exact ⟨.up, rfl⟩
  have hs : ∃ s : Side, s.chooser = ⟨count⟩ := by
    rcases hcount with rfl | rfl
    · exact ⟨.left, rfl⟩
    · exact ⟨.right, rfl⟩
  obtain ⟨d, hd⟩ := hd
  obtain ⟨s, hs⟩ := hs
  exact ⟨d, s, by rw [facing, hd, hs]⟩

theorem headed_facing (m : Machine) (d : Direction) (s : Side) : (m.facing d s).Headed := by
  constructor
  · rw [facing_pointer]
    cases d <;> decide
  · rw [facing_chooser]
    cases s <;> decide

/-- A machine that another one has come to: its heading is sound if it was, it has read on, and it
has written more at the end of the output. -/
structure Continues (m m' : Machine) : Prop where
  headed : m.Headed → m'.Headed
  input : m'.input <:+ m.input
  output : m.output.toList <+: m'.output.toList

@[refl] theorem Continues.refl (m : Machine) : m.Continues m :=
  ⟨id, List.suffix_rfl, List.prefix_rfl⟩

theorem Continues.trans {m m' m'' : Machine} (h : m.Continues m') (h' : m'.Continues m'') :
    m.Continues m'' :=
  ⟨h'.headed ∘ h.headed, h'.input.trans h.input, h.output.trans h'.output⟩

/-- A machine may set its heading. -/
theorem continues_facing (m : Machine) (d : Direction) (s : Side) : m.Continues (m.facing d s) :=
  ⟨fun _ ↦ headed_facing m d s, List.suffix_rfl, List.prefix_rfl⟩

/-- What an operation may do to a machine besides its stack. -/
structure Alters (op : Operation) (m m' : Machine) : Prop where
  pointer : m'.pointer = m.pointer ∨ (op = .pointer ∧ ∃ v, m'.pointer = m.pointer.turn v)
  chooser : m'.chooser = m.chooser ∨ (op = .switch ∧ m'.chooser = m.chooser.flip)
  input : m'.input <:+ m.input
  output : m.output.toList <+: m'.output.toList

theorem Alters.refl (op : Operation) (m : Machine) : Alters op m m :=
  ⟨.inl rfl, .inl rfl, List.suffix_rfl, List.prefix_rfl⟩

private theorem alters_setStack (op : Operation) (m : Machine) (s : List Int) :
    Alters op m (m.setStack s) :=
  ⟨.inl rfl, .inl rfl, List.suffix_rfl, List.prefix_rfl⟩

private theorem alters_after (m : Machine) (op : Operation) (size : Int) :
    Alters op m (m.after op size) := by
  unfold after execute
  cases op
  case push | pop | roll => exact alters_setStack _ m _
  case not | dup =>
    cases m.stack with
    | nil => exact .refl _ m
    | cons v s => exact alters_setStack _ m _
  case pointer =>
    cases m.stack with
    | nil => exact .refl _ m
    | cons v s => exact ⟨.inr ⟨rfl, v, rfl⟩, .inl rfl, List.suffix_rfl, List.prefix_rfl⟩
  case switch =>
    cases m.stack with
    | nil => exact .refl _ m
    | cons v s =>
      refine ⟨.inl rfl, ?_, List.suffix_rfl, List.prefix_rfl⟩
      dsimp only
      split
      · exact .inr ⟨rfl, rfl⟩
      · exact .inl rfl
  case inNum =>
    have hread (s : List Int) : Alters .inNum m
        { m with stack := s, input := (NumberScan.ofInput m.input).rest } :=
      ⟨.inl rfl, .inl rfl, NumberScan.rest_suffix m.input, List.prefix_rfl⟩
    simp only [readNumber]
    split
    · next h =>
      split at h <;> cases h <;> exact hread _
    · next h =>
      split at h <;> cases h
      exact hread _
  case inChar =>
    cases hin : m.input with
    | nil => exact .refl _ m
    | cons b rest =>
      refine ⟨.inl rfl, .inl rfl, ?_, List.prefix_rfl⟩
      rw [hin]
      exact List.suffix_cons b rest
  case outNum =>
    cases m.stack with
    | nil => exact .refl _ m
    | cons v s =>
      cases hv : Text.decimal? v with
      | none => simpa only [hv] using alters_setStack _ m s
      | some text =>
        simp only [hv]
        refine ⟨.inl rfl, .inl rfl, List.suffix_rfl, ?_⟩
        simp
  case outChar =>
    cases m.stack with
    | nil => exact .refl _ m
    | cons v s =>
      refine ⟨.inl rfl, .inl rfl, List.suffix_rfl, ?_⟩
      simp
  all_goals
    match m.stack with
    | [] => exact .refl _ m
    | [_] => exact .refl _ m
    | a :: b :: s =>
      simp only
      split
      · next h =>
        split at h <;> cases h
        · exact alters_setStack _ m _
        · exact .refl _ m
      · next h => split at h <;> cases h

theorem alters_of_ok {op : Operation} {size : Int} {m m' : Machine}
    (h : execute op size m = .ok () m') : Alters op m m' := by
  have halters := m.alters_after op size
  rwa [after, h] at halters

theorem alters_of_error {op : Operation} {size : Int} {fault : NumberFault} {m m' : Machine}
    (h : execute op size m = .error fault m') : Alters op m m' := by
  have halters := m.alters_after op size
  rwa [after, h] at halters

/-- A pointer that turned counts less than four quarters again, however far it turned, and a chooser
that flipped is zero or one again. -/
theorem Alters.continues {op : Operation} {m m' : Machine} (h : Alters op m m') :
    m.Continues m' := by
  refine ⟨?_, h.input, h.output⟩
  intro hm
  constructor
  · rcases h.pointer with hp | ⟨-, v, hp⟩
    · rw [hp]
      exact hm.pointer
    · rw [hp, Pointer.turn]
      dsimp only
      omega
  · have hcount := hm.chooser
    rcases h.chooser with hc | ⟨-, hc⟩
    · rw [hc]
      exact hcount
    · rw [hc, Chooser.flip]
      dsimp only
      omega

/-- No other operation than these two changes the heading. -/
theorem Alters.facing {op : Operation} {m m' : Machine} {d : Direction} {s : Side}
    (h : Alters op (m.facing d s) m') (hp : op ≠ .pointer) (hs : op ≠ .switch) :
    m' = m'.facing d s := by
  have hpointer : m'.pointer = d.pointer := h.pointer.resolve_right fun he ↦ hp he.1
  have hchooser : m'.chooser = s.chooser := h.chooser.resolve_right fun he ↦ hs he.1
  rw [Machine.facing, ← hpointer, ← hchooser]

/-- An operation on a machine fails on a number: there is none that can be read at the front of the
input, or the topmost value is too long to be written. -/
inductive Balks (m : Machine) : Operation → NumberFault → Prop
  | read {fault : NumberFault} :
    (NumberScan.ofInput m.input).value = .error fault → Balks m .inNum fault
  | write {v : Int} {s : List Int} :
    m.stack = v :: s → Text.decimal? v = none → Balks m .outNum .unwritable

/-- No operation fails on anything else. -/
theorem balks_of_execute {m m' : Machine} {op : Operation} {size : Int} {fault : NumberFault}
    (h : execute op size m = .error fault m') : m.Balks op fault := by
  cases op
  case push | pop | roll => cases h
  case not | dup | pointer | switch | outChar =>
    simp only [execute] at h
    split at h <;> cases h
  case inChar =>
    simp only [execute] at h
    split at h <;> cases h
  case inNum =>
    simp only [execute, readNumber] at h
    split at h
    · next hvalue =>
      cases h
      exact .read hvalue
    · cases h
    · cases h
  case outNum =>
    simp only [execute] at h
    split at h
    · next v s hs =>
      split at h
      · cases h
      · next hv =>
        cases h
        exact .write hs hv
    · cases h
  all_goals
    simp only [execute] at h
    split at h
    · split at h <;> cases h
    · cases h

end Machine

end BrainPiet
