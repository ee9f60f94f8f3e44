import BrainPiet.Proofs.Machine.Numerals
import BrainPiet.Run

/-!
# Limits of runs

A run gives an output when its walk halts within the limit. Otherwise it reports the limit, which is
part of the report. A limit of more than 4300 digits cannot be written, and the run fails on that.
-/

namespace BrainPiet

/-- A number has a text when it does not have too many digits. -/
theorem Text.isSome_decimal?_iff {n : Int} :
    (decimal? n).isSome ↔ (Nat.digits 10 n.natAbs).length ≤ digitLimit := by
  rw [← lt_unwritableBound_iff]
  unfold decimal?
  split
  · next h => simp [h]
  · next h => simp [h]

namespace RunFault

variable {limit : Int}

theorem atLimit_of_le (h : (Nat.digits 10 limit.natAbs).length ≤ 4300) :
    atLimit limit = .stepLimit limit :=
  if_pos (Text.isSome_decimal?_iff.mpr h)

theorem atLimit_of_lt (h : 4300 < (Nat.digits 10 limit.natAbs).length) :
    atLimit limit = .unwritableLimit :=
  if_neg fun hsome ↦ Nat.not_le.mpr h (Text.isSome_decimal?_iff.mp hsome)

end RunFault

namespace Picture

/-- The run does not halt within its limit. It reports the limit, or fails because the limit has too
many digits for a report. -/
structure Expires (p : Picture) (input : List UInt8) (limit : Int) : Prop where
  reported : (Nat.digits 10 limit.natAbs).length ≤ 4300 →
    p.run input limit = .error (.stepLimit limit)
  unwritable : 4300 < (Nat.digits 10 limit.natAbs).length →
    p.run input limit = .error .unwritableLimit

variable {p : Picture} {input output : List UInt8} {limit : Int}

/-- A run gives an output when its walk halts within the limit. -/
theorem run_eq_ok_iff : p.run input limit = .ok output ↔
    ∃ pos m, p.start? = some pos ∧ p.walk limit.toNat { input } pos = .ok (some m) ∧
      m.output.toList = output := by
  unfold run
  cases p.start? with
  | none => simp
  | some pos =>
    cases hwalk : p.walk limit.toNat { input } pos with
    | error fault => simp [hwalk]
    | ok r => cases r <;> simp [hwalk]

private theorem run_eq_atLimit_iff : p.run input limit = .error (.atLimit limit) ↔
    ∃ pos, p.start? = some pos ∧ p.walk limit.toNat { input } pos = .ok none := by
  have hstart : RunFault.noStart ≠ .atLimit limit := by
    unfold RunFault.atLimit
    split <;> rintro ⟨⟩
  have hfault (fault : WalkFault) : RunFault.walk fault ≠ .atLimit limit := by
    unfold RunFault.atLimit
    split <;> rintro ⟨⟩
  unfold run
  cases p.start? with
  | none => simp [hstart]
  | some pos =>
    cases hwalk : p.walk limit.toNat { input } pos with
    | error fault => simp [hwalk, hfault]
    | ok r => cases r <;> simp [hwalk]

/-- A run expires when its walk has not halted within the limit. -/
theorem expires_iff : p.Expires input limit ↔
    ∃ pos, p.start? = some pos ∧ p.walk limit.toNat { input } pos = .ok none := by
  rw [← run_eq_atLimit_iff]
  rcases Nat.lt_or_ge 4300 (Nat.digits 10 limit.natAbs).length with hlong | hshort
  · rw [RunFault.atLimit_of_lt hlong]
    exact ⟨fun h ↦ h.unwritable hlong, fun h ↦ ⟨fun hle ↦ absurd hlong (Nat.not_lt.mpr hle), fun _ ↦ h⟩⟩
  · rw [RunFault.atLimit_of_le hshort]
    exact ⟨fun h ↦ h.reported hshort, fun h ↦ ⟨fun _ ↦ h, fun hlt ↦ absurd hlt (Nat.not_lt.mpr hshort)⟩⟩

private theorem neg_pow_lt (k : Nat) : (-10 ^ k : Int) < 0 := by
  simp

private theorem lt_length_digits (k : Nat) :
    k < (Nat.digits 10 (-10 ^ k : Int).natAbs).length := by
  rw [Int.natAbs_neg, Int.natAbs_pow, ← Nat.not_le, Nat.digits_length_le_iff (by decide)]
  exact Nat.lt_irrefl _

/-- A negative limit is reached at once, but this one cannot be written. -/
theorem run_neg_pow {pos : Pos} (hstart : p.start? = some pos) :
    p.run input (-10 ^ 4300) = .error .unwritableLimit := by
  have hexpires : p.Expires input (-10 ^ 4300) := by
    refine expires_iff.mpr ⟨pos, hstart, ?_⟩
    rw [Int.toNat_of_nonpos (Int.le_of_lt (neg_pow_lt 4300))]
    rfl
  exact hexpires.unwritable (lt_length_digits 4300)

/-- Either report comes from a run that expires. -/
theorem expires_of_run (h : p.run input limit = .error (.stepLimit limit) ∨
    p.run input limit = .error .unwritableLimit) : p.Expires input limit := by
  apply expires_iff.mpr
  rw [← run_eq_atLimit_iff]
  revert h
  unfold run
  cases p.start? with
  | none => simp
  | some pos =>
    cases hwalk : p.walk limit.toNat { input } pos with
    | error fault => simp [hwalk]
    | ok r => cases r <;> simp [hwalk]

end Picture

end BrainPiet
