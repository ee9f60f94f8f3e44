import BrainPiet.Proofs.Png.Bits
import Mathlib.Data.List.Induction

/-!
# Codes of variable length

The codes of symbols are numbered by their lengths: a code of some length follows the codes of that
length before it, and the first of them follows all shorter codes. `kraft` counts how much of the
numbers of a length is taken up. While that is at most all of them, what is written in such codes is
read again.
-/

namespace BrainPiet.Png

/-- The low bits of a number, the highest first. -/
def highBits : (width : Nat) → (n : Nat) → List Bool
  | 0, _ => []
  | width + 1, n => (n / 2 ^ width % 2 == 1) :: highBits width n

private theorem highBits_succ (width n : Nat) :
    highBits (width + 1) n = highBits width (n / 2) ++ [n % 2 == 1] := by
  induction width with
  | zero => simp [highBits]
  | succ width ih =>
    rw [highBits, ih, highBits, List.cons_append, Nat.div_div_eq_div_mul, Nat.pow_succ']

private theorem reverseBits_succ (width n : Nat) :
    reverseBits (width + 1) n = n % 2 * 2 ^ width + reverseBits width (n / 2) := rfl

theorem reverseBits_lt (width n : Nat) : reverseBits width n < 2 ^ width := by
  induction width generalizing n with
  | zero => simp [reverseBits]
  | succ width ih =>
    have hhigh : n % 2 * 2 ^ width ≤ 1 * 2 ^ width := Nat.mul_le_mul_right _ (by omega)
    have := ih (n / 2)
    rw [reverseBits_succ, Nat.pow_succ]
    omega

private theorem lowBits_reverseBits (width n : Nat) :
    lowBits width (reverseBits width n) = highBits width n := by
  induction width generalizing n with
  | zero => rfl
  | succ width ih =>
    have hlow : n % 2 * 2 ^ width + reverseBits width (n / 2) =
        reverseBits width (n / 2) + n % 2 * 2 ^ width := Nat.add_comm ..
    have hhigh : (reverseBits width (n / 2) + n % 2 * 2 ^ width) / 2 ^ width = n % 2 := by
      rw [Nat.add_mul_div_right _ _ (Nat.two_pow_pos _),
        Nat.div_eq_of_lt (reverseBits_lt ..), Nat.zero_add]
    rw [reverseBits_succ, hlow, lowBits_add, lowBits_add_mul, hhigh, ih, highBits_succ]
    simp [lowBits]

/-- How many numbers of some bits are taken up by codes of at most so many bits. -/
def kraft (lengths : List Nat) : (width : Nat) → Nat
  | 0 => 0
  | width + 1 => 2 * kraft lengths width + lengths.count (width + 1)

private theorem kraft_mul_le (lengths : List Nat) (width more : Nat) :
    kraft lengths width * 2 ^ more ≤ kraft lengths (width + more) := by
  induction more with
  | zero => simp
  | succ more ih =>
    rw [← Nat.add_assoc, kraft, Nat.pow_succ]
    lia

/-- The number of symbols with codes of at most some bits. -/
def codedUpTo (lengths : List Nat) : (width : Nat) → Nat
  | 0 => 0
  | width + 1 => codedUpTo lengths width + lengths.count (width + 1)

/-- The number of the first code of some bits. -/
def firstOf (lengths : List Nat) : (width : Nat) → Nat
  | 0 => 0
  | width + 1 => 2 * kraft lengths width

/-- The number of the code of a symbol whose code has some bits. -/
def codeOf (lengths : List Nat) (symbol width : Nat) : Nat :=
  firstOf lengths width + (lengths.take symbol).count width

/-- Lengths of at most some bits that leave room for all codes. -/
structure Roomy (longest : Nat) (lengths : List Nat) : Prop where
  le_longest : ∀ length ∈ lengths, length ≤ longest
  kraft_le : kraft lengths longest ≤ 2 ^ longest

section Number

variable {lengths : List Nat} {symbol width : Nat}

private theorem count_take_lt (h : lengths[symbol]? = some width) :
    (lengths.take symbol).count width < lengths.count width := by
  obtain ⟨hlt, hget⟩ := List.getElem?_eq_some_iff.1 h
  have hsplit : lengths = lengths.take symbol ++ width :: lengths.drop (symbol + 1) := by
    rw [← hget, List.getElem_cons_drop, List.take_append_drop]
  calc (lengths.take symbol).count width
      < (lengths.take symbol ++ width :: lengths.drop (symbol + 1)).count width := by
        rw [List.count_append, List.count_cons_self]; omega
    _ = lengths.count width := by rw [← hsplit]

private theorem codeOf_lt_kraft (hwidth : width ≠ 0) (h : lengths[symbol]? = some width) :
    codeOf lengths symbol width < kraft lengths width := by
  obtain ⟨width, rfl⟩ := Nat.exists_eq_add_one_of_ne_zero hwidth
  have := count_take_lt h
  simp only [codeOf, firstOf, kraft]
  omega

private theorem Roomy.kraft_le_two_pow {longest : Nat} (h : Roomy longest lengths)
    (hwidth : width ≤ longest) : kraft lengths width ≤ 2 ^ width := by
  obtain ⟨more, rfl⟩ := Nat.exists_eq_add_of_le hwidth
  have hscaled : kraft lengths width * 2 ^ more ≤ 2 ^ width * 2 ^ more :=
    calc _ ≤ kraft lengths (width + more) := kraft_mul_le ..
      _ ≤ 2 ^ (width + more) := h.kraft_le
      _ = 2 ^ width * 2 ^ more := Nat.pow_add ..
  exact Nat.le_of_mul_le_mul_right hscaled (Nat.two_pow_pos more)

end Number

/-- Counting up at each of several places adds the number of times that a place is met. -/
theorem getElem?_foldl_modify (places : List Nat) (counts : Array Nat) (k : Nat) :
    (places.foldl (fun counts place ↦ counts.modify place (· + 1)) counts)[k]? =
      counts[k]?.map (· + places.count k) := by
  induction places generalizing counts with
  | nil => simp
  | cons place places ih =>
    rw [List.foldl_cons, ih, Array.getElem?_modify, List.count_cons]
    by_cases h : place = k
    · simp [h, Function.comp_def, Nat.add_comm, Nat.add_left_comm]
    · simp [h]

section Table

variable (longest : Nat) (lengths : List Nat)

private theorem getD_tally {k : Nat} (hk : k ≤ longest) :
    (lengths.foldl (fun (counts : Array Nat) length ↦
      if length = 0 then counts else counts.modify length (· + 1))
      (Array.replicate (longest + 1) 0))[k]?.getD 0 =
        if k = 0 then 0 else lengths.count k := by
  have hfilter : lengths.foldl (fun (counts : Array Nat) length ↦
      if length = 0 then counts else counts.modify length (· + 1))
      (Array.replicate (longest + 1) 0) =
        (lengths.filter (· ≠ 0)).foldl (fun counts place ↦ counts.modify place (· + 1))
          (Array.replicate (longest + 1) 0) := by
    rw [List.foldl_filter]
    congr 1
    funext counts length
    by_cases h : length = 0 <;> simp [h]
  rw [hfilter, getElem?_foldl_modify, Array.getElem?_replicate, if_pos (by omega)]
  by_cases h : k = 0
  · simp [h, List.count_eq_zero]
  · simp [h, List.count_filter]

private theorem firstOf_succ (k : Nat) :
    firstOf lengths (k + 1) = 2 * (firstOf lengths k + if k = 0 then 0 else lengths.count k) := by
  cases k with
  | zero => rfl
  | succ k => simp [firstOf, kraft]

-- What the fold over the lengths has when it is at a width: the first numbers up to that width.
private theorem foldl_first (count : Nat → Nat) (m : Nat)
    (hcount : ∀ k < m, count k = if k = 0 then 0 else lengths.count k) :
    (List.range m).foldl (fun (first, code) n ↦
      let code := 2 * (code + count n)
      (first.push code, code)) ((#[0] : Array Nat), 0) =
        (((List.range (m + 1)).map (firstOf lengths)).toArray, firstOf lengths m) := by
  induction m with
  | zero => rfl
  | succ m ih =>
    rw [List.range_succ, List.foldl_append, ih fun k hk ↦ hcount k (by omega)]
    simp [hcount m (by omega), ← firstOf_succ, List.range_succ]

private abbrev number (done : Array (Nat × Nat) × Array Nat) (length : Nat) :
    Array (Nat × Nat) × Array Nat :=
  if length = 0 then (done.1.push (0, 0), done.2)
  else (done.1.push (reverseBits length (done.2[length]?.getD 0), length),
    done.2.modify length (· + 1))

private theorem size_number (first : Array Nat) :
    (lengths.foldl number (#[], first)).1.size = lengths.length := by
  induction lengths using List.reverseRecOn with
  | nil => rfl
  | append_singleton front length ih =>
    rw [List.foldl_append, List.foldl_cons, List.foldl_nil]
    by_cases h : length = 0 <;> simp [number, h, ih]

private theorem next_number (first : Array Nat) {k : Nat} (hk : k ≠ 0) :
    (lengths.foldl number (#[], first)).2[k]? = first[k]?.map (· + lengths.count k) := by
  induction lengths using List.reverseRecOn with
  | nil => simp
  | append_singleton front length ih =>
    rw [List.foldl_append, List.foldl_cons, List.foldl_nil]
    by_cases h : length = 0
    · simp [number, h, ih, Ne.symm hk]
    · by_cases hlength : length = k
      · simp [number, hlength, hk, ih, Array.getElem?_modify, Function.comp_def, Nat.add_assoc]
      · simp [number, h, hlength, ih, Array.getElem?_modify]

private theorem getElem?_number (first : Array Nat) {symbol width : Nat} (hwidth : width ≠ 0)
    (hfirst : width < first.size) (h : lengths[symbol]? = some width) :
    (lengths.foldl number (#[], first)).1[symbol]? =
      some (reverseBits width (first[width]?.getD 0 + (lengths.take symbol).count width),
        width) := by
  induction lengths using List.reverseRecOn with
  | nil => simp at h
  | append_singleton front length ih =>
    rw [List.foldl_append, List.foldl_cons, List.foldl_nil]
    have hsize := size_number front first
    obtain hlt | heq := Nat.lt_succ_iff_lt_or_eq.1
      (show symbol < front.length + 1 by simpa using (List.getElem?_eq_some_iff.1 h).1)
    · rw [List.getElem?_append_left hlt] at h
      rw [List.take_append_of_le_length hlt.le, ← ih h]
      by_cases hzero : length = 0 <;>
        simp [number, hzero, Array.getElem?_push, hsize, Nat.ne_of_lt hlt]
    · subst heq
      obtain rfl : length = width := by simpa using h
      have htake : (front ++ [length]).take front.length = front := List.take_left
      rw [htake, number, if_neg hwidth, ← hsize, Array.getElem?_push_size,
        next_number front first hwidth, Array.getElem?_eq_getElem hfirst]
      rfl

end Table

variable {longest : Nat} {lengths : List Nat} {symbol width : Nat}

theorem size_codes (longest : Nat) (lengths : List Nat) :
    (codes longest lengths).size = lengths.length :=
  size_number lengths _

/-- The table of codes holds the code of each symbol that has one. -/
theorem getElem?_codes (hle : ∀ length ∈ lengths, length ≤ longest) (hwidth : width ≠ 0)
    (h : lengths[symbol]? = some width) :
    (codes longest lengths)[symbol]? =
      some (reverseBits width (codeOf lengths symbol width), width) := by
  have hlongest : width ≤ longest := hle width (List.mem_of_getElem? h)
  have hfirst := foldl_first lengths _ longest fun k hk ↦ getD_tally longest lengths hk.le
  have hnumber := getElem?_number lengths ((List.range (longest + 1)).map (firstOf lengths)).toArray
    hwidth (by simpa using Nat.lt_succ_of_le hlongest) h
  have hget : ((List.range (longest + 1)).map (firstOf lengths)).toArray[width]?.getD 0 =
      firstOf lengths width := by
    simp [List.getElem?_range (Nat.lt_succ_of_le hlongest)]
  rw [hget] at hnumber
  simp only [codes, hfirst]
  exact hnumber

namespace PrefixCode

private abbrev withLength (lengths : List Nat) (n : Nat) : List Nat :=
  (lengths.zipIdx.filter fun (length, _) ↦ length = n).map (·.2)

private theorem length_filter_zipIdx (lengths : List Nat) (i n : Nat) :
    ((lengths.zipIdx i).filter fun (length, _) ↦ length = n).length = lengths.count n := by
  induction lengths generalizing i with
  | nil => rfl
  | cons length lengths ih =>
    by_cases h : length = n <;> simp [List.zipIdx_cons, h, ih]

private theorem length_withLength (n : Nat) : (withLength lengths n).length = lengths.count n := by
  rw [List.length_map, length_filter_zipIdx]

private theorem getElem?_withLength (h : lengths[symbol]? = some width) :
    (withLength lengths width)[(lengths.take symbol).count width]? = some symbol := by
  obtain ⟨hlt, hget⟩ := List.getElem?_eq_some_iff.1 h
  have hsplit : lengths.zipIdx = (lengths.take symbol).zipIdx ++
      (width, symbol) :: (lengths.drop (symbol + 1)).zipIdx (symbol + 1) := by
    conv => lhs; rw [← List.take_append_drop symbol lengths]
    rw [List.zipIdx_append, ← List.getElem_cons_drop hlt, hget, List.zipIdx_cons]
    simp [Nat.min_eq_left hlt.le]
  have hfront := length_filter_zipIdx (lengths.take symbol) 0 width
  rw [withLength, hsplit, List.filter_append, List.map_append,
    List.getElem?_append_right (by simp [hfront])]
  simp [hfront]

private theorem sizes_eq : (List.range maxLength).map (· + 1) = List.range' 1 maxLength := by decide

private theorem length_flatMap_withLength (width : Nat) :
    ((List.range' 1 width).flatMap (withLength lengths)).length = codedUpTo lengths width := by
  induction width with
  | zero => rfl
  | succ width ih =>
    rw [List.range'_1_concat, List.flatMap_append, List.length_append, ih, List.flatMap_singleton,
      length_withLength, codedUpTo, Nat.add_comm 1]

private theorem getElem?_symbols (hwidth : width < maxLength)
    (h : lengths[symbol]? = some (width + 1)) :
    (ofLengths lengths).symbols[codedUpTo lengths width +
      (lengths.take symbol).count (width + 1)]? = some symbol := by
  obtain ⟨more, hmore⟩ := Nat.exists_eq_add_of_lt hwidth
  have hsplit : List.range' 1 maxLength =
      List.range' 1 width ++ (width + 1) :: List.range' (width + 2) more := by
    rw [hmore, Nat.add_assoc, ← List.range'_append_1, List.range'_succ, Nat.add_comm 1 width]
  have hlength : ((List.range' 1 width).flatMap (withLength lengths)).length =
      codedUpTo lengths width := length_flatMap_withLength width
  have hget := getElem?_withLength h
  have hlt : (lengths.take symbol).count (width + 1) < (withLength lengths (width + 1)).length :=
    (List.getElem?_eq_some_iff.1 hget).1
  simp only [ofLengths, sizes_eq, hsplit, List.flatMap_append, List.flatMap_cons,
    List.getElem?_toArray]
  rw [List.getElem?_append_right (hlength ▸ Nat.le_add_right ..), hlength, Nat.add_sub_cancel_left,
    List.getElem?_append_left hlt, hget]

private theorem counts_ofLengths :
    (ofLengths lengths).counts = (List.range' 1 maxLength).map lengths.count := by
  simp only [ofLengths, sizes_eq]
  exact List.map_congr_left fun n _ ↦ length_withLength n

variable {b : Bits} {more : List Bool}

-- The search has read the bits of the code above the lowest `k + 1`. Codes of fewer bits than the
-- symbol's end below its number, so the search goes on until all of its bits are read.
private theorem search_of_rest {symbols : Array Nat} {code : Nat} (k : Nat) {passed room : Nat}
    (hfirst : firstOf lengths (passed + 1 + k) ≤ code)
    (hlast : code < kraft lengths (passed + 1 + k))
    (hsymbol : symbols[codedUpTo lengths (passed + k) +
      (code - firstOf lengths (passed + 1 + k))]? = some symbol)
    (hroom : k < room) (hrest : b.rest = highBits (k + 1) code ++ more) :
    search symbols (2 * (code / 2 ^ (k + 1))) (firstOf lengths (passed + 1))
      (codedUpTo lengths passed) ((List.range' (passed + 1) room).map lengths.count) b =
        some (symbol, b.skip (k + 1)) := by
  induction k generalizing passed room b with
  | zero =>
    obtain ⟨room, rfl⟩ := Nat.exists_eq_add_one_of_ne_zero (Nat.ne_of_gt hroom)
    have hbit : 2 * (code / 2 ^ (0 + 1)) + (code / 2 ^ 0 % 2 == 1).toNat = code := by
      rw [toNat_lowBit]
      omega
    have hread := Bits.bit?_of_rest (b := b) hrest
    have hlt : code < firstOf lengths (passed + 1) + lengths.count (passed + 1) := hlast
    rw [List.range'_succ, List.map_cons, search, hread]
    simp only [Option.bind_eq_bind, Option.bind_some, hbit, if_pos hlt]
    rw [Nat.add_zero, Nat.add_zero] at hsymbol
    rw [hsymbol]
    rfl
  | succ k ih =>
    obtain ⟨room, rfl⟩ := Nat.exists_eq_add_one_of_ne_zero (Nat.ne_of_gt (Nat.zero_lt_of_lt hroom))
    have hbit : 2 * (code / 2 ^ (k + 1 + 1)) + (code / 2 ^ (k + 1) % 2 == 1).toNat =
        code / 2 ^ (k + 1) := by
      rw [Nat.pow_succ 2 (k + 1), ← Nat.div_div_eq_div_mul, toNat_lowBit]
      omega
    have hread := Bits.bit?_of_rest (b := b) hrest
    have hshift : passed + 1 + (k + 1) = passed + 1 + 1 + k := by omega
    have hnot : ¬ code / 2 ^ (k + 1) <
        firstOf lengths (passed + 1) + lengths.count (passed + 1) := by
      apply Nat.not_lt.2
      rw [Nat.le_div_iff_mul_le (Nat.two_pow_pos _)]
      calc (firstOf lengths (passed + 1) + lengths.count (passed + 1)) * 2 ^ (k + 1)
          = 2 * (kraft lengths (passed + 1) * 2 ^ k) := by
            rw [Nat.pow_succ, firstOf, kraft]; lia
        _ ≤ 2 * kraft lengths (passed + 1 + k) := Nat.mul_le_mul_left 2 (kraft_mul_le ..)
        _ ≤ code := hfirst
    have hsymbol' : symbols[codedUpTo lengths (passed + 1 + k) +
        (code - firstOf lengths (passed + 1 + 1 + k))]? = some symbol := by
      rwa [← hshift, Nat.add_assoc passed 1 k, Nat.add_comm 1 k]
    have hrest' : (b.skip 1).rest = highBits (k + 1) code ++ more := by
      rw [Bits.rest_skip, hrest]
      rfl
    have hnext := ih (hshift ▸ hfirst) (hshift ▸ hlast) hsymbol' (Nat.lt_of_succ_lt_succ hroom)
      hrest'
    rw [List.range'_succ, List.map_cons, search, hread]
    simp only [Option.bind_eq_bind, Option.bind_some, hbit, if_neg hnot]
    rw [Bits.skip_skip, Nat.add_comm 1] at hnext
    exact hnext

/-- A code that is read gives its symbol. -/
theorem symbol?_of_rest (hroomy : Roomy longest lengths) (hlongest : longest ≤ maxLength)
    (hwidth : width ≠ 0) (h : lengths[symbol]? = some width)
    (hrest : b.rest = lowBits width (reverseBits width (codeOf lengths symbol width)) ++ more) :
    (ofLengths lengths).symbol? b = some (symbol, b.skip width) := by
  obtain ⟨k, rfl⟩ := Nat.exists_eq_add_one_of_ne_zero hwidth
  have hle : k + 1 ≤ longest := hroomy.le_longest _ (List.mem_of_getElem? h)
  have hlast := codeOf_lt_kraft hwidth h
  have hsmall : codeOf lengths symbol (k + 1) < 2 ^ (k + 1) :=
    hlast.trans_le (hroomy.kraft_le_two_pow hle)
  have hsymbol := getElem?_symbols (by omega) h
  have hpassed : 0 + 1 + k = k + 1 := by omega
  rw [lowBits_reverseBits] at hrest
  have hfound : search (ofLengths lengths).symbols
      (2 * (codeOf lengths symbol (k + 1) / 2 ^ (k + 1))) (firstOf lengths (0 + 1))
      (codedUpTo lengths 0) ((List.range' (0 + 1) maxLength).map lengths.count) b =
        some (symbol, b.skip (k + 1)) := by
    apply search_of_rest k _ _ _ (Nat.lt_of_lt_of_le hle hlongest) hrest
    · rw [hpassed, codeOf]
      omega
    · rwa [hpassed]
    · rwa [hpassed, Nat.zero_add, codeOf, Nat.add_sub_cancel_left]
  rw [Nat.div_eq_of_lt hsmall] at hfound
  rw [symbol?, counts_ofLengths]
  exact hfound

end PrefixCode

end BrainPiet.Png
