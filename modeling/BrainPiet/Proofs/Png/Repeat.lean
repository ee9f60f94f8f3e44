import BrainPiet.Png.Inflate
import BrainPiet.Png.Repeat
import Mathlib.Data.Nat.Basic

/-!
# Repeats stand for the data

Whatever is found among the earlier positions, a copy is only written for bytes that are the same at
its source. So the pieces of data, unpacked one after the other, are the data.
-/

namespace BrainPiet.Png

/-- What pieces add to earlier output. -/
def expand : List Token → ByteArray → Option ByteArray
  | [], out => some out
  | .literal byte :: rest, out => expand rest (out.push byte)
  | .copy length distance :: rest, out => (Inflate.copy distance length out).bind (expand rest)

theorem expand_append (a b : List Token) (out : ByteArray) :
    expand (a ++ b) out = (expand a out).bind (expand b) := by
  induction a generalizing out with
  | nil => rfl
  | cons token a ih =>
    cases token with
    | literal byte => exact ih _
    | copy length distance =>
      simp only [List.cons_append, expand, Option.bind_assoc]
      exact congrArg _ (funext ih)

/-- The sizes that a copy may have. -/
def Token.Sound : Token → Prop
  | literal _ => True
  | copy length distance =>
    Repeat.tooShort < length ∧ length ≤ Repeat.mostLength ∧ 1 ≤ distance ∧
      distance ≤ Repeat.mostDistance

namespace Repeat

variable {data : ByteArray} {here : Nat}

private theorem extract_succ (hlt : here < data.size) :
    data.extract 0 (here + 1) = (data.extract 0 here).push (byteAt data here) := by
  apply ByteArray.ext
  rw [byteAt, dif_pos hlt, ByteArray.data_push, ByteArray.data_extract, ByteArray.data_extract]
  exact Array.extract_succ_right (Nat.succ_pos here) hlt

private theorem getElem?_extract {i : Nat} (hi : i < here) (hle : here ≤ data.size) :
    (data.extract 0 here)[i]? = some (byteAt data i) := by
  have hlt : i < data.size := by omega
  rw [getElem?_pos (data.extract 0 here) i (by rw [ByteArray.size_extract]; omega),
    ByteArray.getElem_extract, byteAt, dif_pos hlt]
  simp only [Nat.zero_add]

private theorem size_extract (hle : here ≤ data.size) : (data.extract 0 here).size = here := by
  rw [ByteArray.size_extract, Nat.min_eq_left hle, Nat.sub_zero]

/-- A copy of bytes that are the same at its source adds these bytes. -/
theorem copy_extract {distance length : Nat} (hpos : 1 ≤ distance) (hdistance : distance ≤ here)
    (hlength : here + length ≤ data.size)
    (hsame : ∀ k < length, byteAt data (here - distance + k) = byteAt data (here + k)) :
    Inflate.copy distance length (data.extract 0 here) = some (data.extract 0 (here + length)) := by
  induction length generalizing here with
  | zero => rfl
  | succ length ih =>
    have hle : here ≤ data.size := by omega
    have hget : (data.extract 0 here)[here - distance]? = some (byteAt data here) := by
      rw [getElem?_extract (by omega) hle]
      exact congrArg some (hsame 0 (by omega))
    have hnext : ∀ k < length,
        byteAt data (here + 1 - distance + k) = byteAt data (here + 1 + k) := by
      intro k hk
      have hsource : here + 1 - distance + k = here - distance + (k + 1) := by omega
      rw [hsource, hsame (k + 1) (by omega), Nat.add_right_comm, Nat.add_assoc]
    rw [Inflate.copy, size_extract hle, if_neg (by omega), hget]
    simp only [Option.bind_eq_bind, Option.bind_some,
      ← extract_succ (show here < data.size by omega)]
    rw [ih (by omega) (by omega) hnext, Nat.add_right_comm, Nat.add_assoc]

private theorem alike_le (limit i j : Nat) : alike data limit i j ≤ limit := by
  fun_induction alike data limit i j <;> omega

private theorem byteAt_of_lt_alike {limit i j k : Nat} (h : k < alike data limit i j) :
    byteAt data (i + k) = byteAt data (j + k) := by
  induction limit generalizing i j k with
  | zero => simp [alike] at h
  | succ limit ih =>
    rw [alike] at h
    split at h
    next heq =>
      cases k with
      | zero => exact heq
      | succ k =>
        have := @ih (i + 1) (j + 1) k (by omega)
        rwa [Nat.add_right_comm, Nat.add_right_comm j] at this
    next => omega

/-- A copy that may be written at a position. -/
structure Match.Fits (m : Match) (data : ByteArray) (here : Nat) : Prop where
  start_lt : m.start < here
  le_start : here ≤ m.start + mostDistance
  length_gt : tooShort < m.length
  length_le : m.length ≤ mostLength
  inside : here + m.length ≤ data.size
  same : ∀ k < m.length, byteAt data (m.start + k) = byteAt data (here + k)

/-- The positions that are kept lie before some position. -/
structure History.Before (h : History) (here : Nat) : Prop where
  newest : ∀ k : Nat, h.newest[k]?.getD 0 ≤ here
  older : ∀ i : Nat, h.older[i]?.getD 0 ≤ here

namespace History

variable {h : History}

private theorem before_empty (size here : Nat) : (empty size).Before here := by
  constructor <;> intro i <;> simp [empty, Array.getElem?_replicate] <;> split <;> simp

private theorem getD_setIfInBounds_le {places : Array Nat} {i value : Nat}
    (hplaces : ∀ k : Nat, places[k]?.getD 0 ≤ here) (hvalue : value ≤ here) (k : Nat) :
    (places.setIfInBounds i value)[k]?.getD 0 ≤ here := by
  rw [Array.getElem?_setIfInBounds]
  split
  · split
    · exact hvalue
    · exact Nat.zero_le _
  · exact hplaces k

theorem Before.add (hh : h.Before here) : (h.add data here).Before (here + 1) := by
  rw [History.add]
  split
  · exact ⟨fun k ↦ Nat.le_succ_of_le (hh.newest k), fun i ↦ Nat.le_succ_of_le (hh.older i)⟩
  · exact ⟨getD_setIfInBounds_le (fun k ↦ Nat.le_succ_of_le (hh.newest k)) (Nat.le_refl _),
      getD_setIfInBounds_le (fun i ↦ Nat.le_succ_of_le (hh.older i))
        (Nat.le_succ_of_le (hh.newest _))⟩

theorem Before.addAll (hh : h.Before here) (count : Nat) :
    (addAll data count h here).Before (here + count) := by
  induction count generalizing h here with
  | zero => exact hh
  | succ count ih =>
    rw [History.addAll, Nat.add_comm count, ← Nat.add_assoc]
    exact ih hh.add

end History

private structure Better (m best : Match) (data : ByteArray) (here limit : Nat) : Prop where
  longer : best.length < m.length
  start_lt : m.start < here
  le_start : here ≤ m.start + mostDistance
  length_le : m.length ≤ limit
  same : ∀ k < m.length, byteAt data (m.start + k) = byteAt data (here + k)

-- Each candidate lies before the position and not too far back; the bytes are compared anew.
private theorem search_cases {older : Array Nat} {limit least : Nat} (tries : Nat) {candidate : Nat}
    {best : Match} (holder : ∀ i : Nat, older[i]?.getD 0 ≤ here)
    (hleast : here ≤ least - 1 + mostDistance) (hpos : 1 ≤ candidate) (hle : candidate ≤ here)
    (hnear : here ≤ candidate - 1 + mostDistance) :
    search data older here limit least tries candidate best = best ∨
      Better (search data older here limit least tries candidate best) best data here limit := by
  induction tries generalizing candidate best with
  | zero => exact .inl rfl
  | succ tries ih =>
    generalize hlength : alike data limit (candidate - 1) here = length
    have hfound (hlonger : best.length < length) :
        Better ⟨length, candidate - 1⟩ best data here limit :=
      { longer := hlonger
        start_lt := show candidate - 1 < here by omega
        le_start := hnear
        length_le := hlength ▸ alike_le ..
        same := fun k hk ↦ byteAt_of_lt_alike (hlength ▸ hk) }
    rw [search]
    simp only [hlength]
    by_cases hlonger : best.length < length
    · simp only [hlonger, if_true, true_and]
      split
      · exact .inr (hfound hlonger)
      · split
        · exact .inr (hfound hlonger)
        · next hnext =>
          obtain heq | hbetter := @ih (older[candidate - 1]?.getD 0) ⟨length, candidate - 1⟩
            (by omega) (holder _) (by omega)
          · exact .inr (by rw [heq]; exact hfound hlonger)
          · exact .inr { hbetter with longer := Nat.lt_trans hlonger hbetter.longer }
    · simp only [hlonger, if_false, false_and]
      split
      · exact .inl rfl
      · exact ih (by omega) (holder _) (by omega)

private theorem longest_cases {h : History} {candidate : Nat} (before : Match) (hh : h.Before here)
    (hhere : here ≤ data.size) (hpos : 1 ≤ candidate) (hle : candidate ≤ here)
    (hnear : here ≤ candidate - 1 + mostDistance) :
    (longest data h here candidate before).length < leastLength ∨
      longest data h here candidate before = before ∨
      (longest data h here candidate before).Fits data here := by
  have hleast : here ≤ max (windowStart here) (here - mostDistance) + 1 - 1 + mostDistance := by
    omega
  simp only [longest]
  generalize (if goodLength ≤ before.length then mostTries / 4 else mostTries) = tries
  have hcases : search data h.older here (min mostLength (data.size - here)) _ tries candidate
      before = before ∨ Better _ before data here _ :=
    search_cases tries hh.older hleast hpos hle hnear
  generalize search data h.older here (min mostLength (data.size - here)) _ tries candidate before =
    found at hcases
  split
  next => exact .inl (Nat.lt_succ_self 2)
  next hlong =>
    obtain heq | hbetter := hcases
    · exact .inr (.inl heq)
    · have hlimit := hbetter.length_le
      exact .inr (.inr ⟨hbetter.start_lt, hbetter.le_start, Nat.not_le.1 hlong,
        Nat.le_trans hlimit (Nat.min_le_left ..), by omega, hbetter.same⟩)

/-- The copy at a position is none, the one before it, or one that may be written. -/
theorem State.look_cases (s : State) (hhistory : s.history.Before s.here)
    (hhere : s.here ≤ data.size) :
    (s.look data).length < leastLength ∨ s.look data = s.before ∨
      (s.look data).Fits data s.here := by
  have hle : s.history.find data s.here ≤ s.here := by
    rw [History.find]
    split
    · exact Nat.zero_le _
    · exact hhistory.newest _
  simp only [look]
  split
  next hcandidate =>
    exact longest_cases s.before hhistory hhere (by omega) hle hcandidate.2.1
  next => exact .inl (Nat.lt_succ_self 2)

/-- Pieces that stand for the data up to the position, or up to the byte before it if that is still
to be written. -/
structure State.Stands (s : State) (data : ByteArray) : Prop where
  here_le : s.here ≤ data.size
  history : s.history.Before s.here
  pending : s.pending → 1 ≤ s.here
  before : s.before.length < leastLength ∨ s.pending ∧ s.before.Fits data (s.here - 1)
  sound : ∀ token ∈ s.tokens.toList, token.Sound
  expands : expand s.tokens.toList .empty = some (data.extract 0 (s.here - s.pending.toNat))

section Pack

variable {s : State}

private def State.flushed (s : State) (data : ByteArray) : Array Token :=
  if s.pending then s.tokens.push (.literal (byteAt data (s.here - 1))) else s.tokens

private theorem State.Stands.flushed (hs : s.Stands data) :
    (∀ token ∈ (s.flushed data).toList, token.Sound) ∧
      expand (s.flushed data).toList .empty = some (data.extract 0 s.here) := by
  have hexpands := hs.expands
  rw [State.flushed]
  split
  next hpending =>
    have hpos := hs.pending hpending
    have hhere := hs.here_le
    rw [hpending] at hexpands
    constructor
    · simp only [Array.toList_push, List.mem_append, List.mem_singleton]
      rintro token (hmem | rfl)
      · exact hs.sound token hmem
      · trivial
    · have hsucc := @extract_succ data (s.here - 1) (by omega)
      rw [Nat.sub_add_cancel hpos] at hsucc
      rw [Array.toList_push, expand_append, hexpands]
      simp only [Option.bind_some, expand, Bool.toNat_true, hsucc]
  next hpending =>
    rw [Bool.not_eq_true] at hpending
    rw [hpending] at hexpands
    exact ⟨hs.sound, hexpands⟩

private theorem State.Stands.putOff (hs : s.Stands data) (hlt : s.here < data.size)
    (hnot : ¬ (leastLength ≤ s.before.length ∧ (s.look data).length ≤ s.before.length)) :
    State.Stands ⟨s.here + 1, s.history.add data s.here, s.look data, true, s.flushed data⟩
      data := by
  obtain ⟨hsound, hexpands⟩ := hs.flushed
  refine ⟨hlt, hs.history.add, fun _ ↦ Nat.succ_pos _, ?_, hsound, hexpands⟩
  obtain hnone | heq | hfits := s.look_cases hs.history hs.here_le
  · exact .inl hnone
  · rw [heq] at hnot ⊢
    exact .inl (show s.before.length < leastLength by omega)
  · exact .inr ⟨rfl, hfits⟩

private theorem State.Stands.write (hs : s.Stands data) (hlong : leastLength ≤ s.before.length) :
    State.Stands ⟨s.here + s.before.length - 1,
      History.addAll data (s.before.length - 2) (s.history.add data s.here) (s.here + 1), noMatch,
      false, s.tokens.push (.copy s.before.length (s.here - 1 - s.before.start))⟩ data := by
  obtain ⟨hpending, hfits⟩ := hs.before.resolve_left (Nat.not_lt.2 hlong)
  have hpos := hs.pending hpending
  have hexpands := hs.expands
  have hstart := hfits.start_lt
  have hinside := hfits.inside
  have hnear := hfits.le_start
  have hlength : 3 ≤ s.before.length := hlong
  refine ⟨?_, ?_, fun h ↦ Bool.noConfusion h, .inl (Nat.lt_succ_self 2), ?_, ?_⟩
  · show s.here + s.before.length - 1 ≤ data.size
    omega
  · have hend : s.here + 1 + (s.before.length - 2) = s.here + s.before.length - 1 := by omega
    exact hend ▸ hs.history.add.addAll (s.before.length - 2)
  · simp only [Array.toList_push, List.mem_append, List.mem_singleton]
    rintro token (hmem | rfl)
    · exact hs.sound token hmem
    · exact ⟨hfits.length_gt, hfits.length_le, by omega, by omega⟩
  · have hcopy := @copy_extract data (s.here - 1) (s.here - 1 - s.before.start) s.before.length
      (by omega) (by omega) (by omega) (by
        intro k hk
        have hsource : s.here - 1 - (s.here - 1 - s.before.start) = s.before.start := by omega
        rw [hsource, hfits.same k hk])
    have hend : s.here - 1 + s.before.length = s.here + s.before.length - 1 := by omega
    rw [hpending] at hexpands
    rw [Array.toList_push, expand_append, hexpands]
    simp only [Option.bind_some, expand, Bool.toNat_true, Bool.toNat_false, hcopy, hend,
      Nat.sub_zero]

/-- Packing keeps standing for the data, up to its end. -/
theorem State.Stands.pack {fuel : Nat} (hs : s.Stands data) (hfuel : data.size < fuel + s.here) :
    (∀ token ∈ (pack data fuel s).toList, token.Sound) ∧
      expand (pack data fuel s).toList .empty = some data := by
  induction fuel generalizing s with
  | zero =>
    have := hs.here_le
    omega
  | succ fuel ih =>
    obtain ⟨here, history, before, pending, tokens⟩ := s
    rw [Repeat.pack]
    split
    next hend =>
      obtain rfl : here = data.size := Nat.le_antisymm hs.here_le hend
      have hflushed := hs.flushed
      rw [ByteArray.extract_zero_size] at hflushed
      exact hflushed
    next hend =>
      have hlt : here < data.size := Nat.not_le.1 hend
      simp only at hfuel ⊢
      split
      next hcopy =>
        have hlength : 3 ≤ before.length := hcopy.1
        exact ih (hs.write hcopy.1) (by simp only; omega)
      next hcopy => exact ih (hs.putOff hlt hcopy) (by simp only; omega)

end Pack

end Repeat

/-- The pieces of data are sound and stand for the data. -/
theorem expand_tokens (data : ByteArray) :
    (∀ token ∈ (tokens data).toList, token.Sound) ∧
      expand (tokens data).toList .empty = some data := by
  apply Repeat.State.Stands.pack _ (Nat.lt_succ_self _)
  refine ⟨Nat.zero_le _, Repeat.History.before_empty .., fun h ↦ Bool.noConfusion h,
    .inl (Nat.lt_succ_self 2), by simp, ?_⟩
  have hempty : data.extract 0 0 = .empty := by
    apply ByteArray.ext
    rw [ByteArray.data_extract]
    simp
  rw [Bool.toNat_false, Nat.sub_zero, hempty]
  rfl

end BrainPiet.Png
