import BrainPiet.Png.Deflate
import Mathlib.Algebra.Order.Ring.Nat

/-!
# Bits as they are written and read

A writer stands for the list of bits that it holds, and writing a field adds the bits of the field.
A reader stands for the list of bits that are left, and what it reads are the first of them.
-/

namespace BrainPiet.Png

/-- Bytes between others. -/
theorem extract_middle {front middle back : ByteArray} {start stop : Nat}
    (hstart : start = front.size) (hstop : stop = start + middle.size) :
    (front ++ (middle ++ back)).extract start stop = middle := by
  rw [hstop, ← Nat.add_zero start, Nat.add_assoc start, ByteArray.extract_append_size_add' hstart,
    Nat.zero_add, ByteArray.extract_append_eq_left rfl]

/-- The low bits of a number, the lowest first. -/
def lowBits : (width : Nat) → (n : Nat) → List Bool
  | 0, _ => []
  | width + 1, n => (n % 2 == 1) :: lowBits width (n / 2)

theorem toNat_lowBit (n : Nat) : (n % 2 == 1).toNat = n % 2 := by
  obtain h | h := Nat.mod_two_eq_zero_or_one n <;> rw [h] <;> rfl

@[simp]
theorem length_lowBits (width n : Nat) : (lowBits width n).length = width := by
  induction width generalizing n with
  | zero => rfl
  | succ width ih => simp [lowBits, ih]

theorem lowBits_add (a b n : Nat) :
    lowBits (a + b) n = lowBits a n ++ lowBits b (n / 2 ^ a) := by
  induction a generalizing n with
  | zero => simp [lowBits]
  | succ a ih =>
    rw [Nat.add_right_comm, lowBits, ih, lowBits, List.cons_append, Nat.div_div_eq_div_mul,
      Nat.pow_succ']

theorem lowBits_add_mul (width n k : Nat) :
    lowBits width (n + k * 2 ^ width) = lowBits width n := by
  induction width generalizing n with
  | zero => rfl
  | succ width ih =>
    have hpow : k * 2 ^ (width + 1) = 2 * (k * 2 ^ width) := by rw [Nat.pow_succ]; lia
    rw [lowBits, lowBits, hpow, Nat.add_mul_mod_self_left, Nat.add_mul_div_left _ _ (by omega), ih]

private theorem lowBits_mod (width n : Nat) : lowBits width (n % 2 ^ width) = lowBits width n := by
  rw [← lowBits_add_mul width (n % 2 ^ width) (n / 2 ^ width), Nat.mod_add_div']

private theorem getElem?_lowBits {width i : Nat} (n : Nat) (hi : i < width) :
    (lowBits width n)[i]? = some (n / 2 ^ i % 2 == 1) := by
  induction width generalizing n i with
  | zero => omega
  | succ width ih =>
    cases i with
    | zero => simp [lowBits]
    | succ i =>
      rw [lowBits, List.getElem?_cons_succ, ih _ (by omega), Nat.div_div_eq_div_mul, Nat.pow_succ']

private theorem eq_of_lowBits_eq {width m n : Nat} (hm : m < 2 ^ width) (hn : n < 2 ^ width)
    (h : lowBits width m = lowBits width n) : m = n := by
  induction width generalizing m n with
  | zero =>
    rw [Nat.pow_zero] at hm hn
    omega
  | succ width ih =>
    rw [Nat.pow_succ] at hm hn
    obtain ⟨hlow, hhigh⟩ := List.cons.inj h
    have hhalf : m / 2 = n / 2 := ih (by omega) (by omega) hhigh
    have hparity : m % 2 = 1 ↔ n % 2 = 1 := by simpa using hlow
    omega

/-- The bits of bytes, from the low end of each. -/
def bitsOf (bytes : ByteArray) : List Bool :=
  bytes.data.toList.flatMap fun byte ↦ lowBits 8 byte.toNat

@[simp]
theorem bitsOf_append (a b : ByteArray) : bitsOf (a ++ b) = bitsOf a ++ bitsOf b := by
  simp [bitsOf]

private theorem bitsOf_push (bytes : ByteArray) (n : Nat) :
    bitsOf (bytes.push (UInt8.ofNat n)) = bitsOf bytes ++ lowBits 8 n := by
  have hmod : lowBits 8 (n % 256) = lowBits 8 n := lowBits_mod 8 n
  simp [bitsOf, hmod]

@[simp]
theorem length_bitsOf (bytes : ByteArray) : (bitsOf bytes).length = 8 * bytes.size := by
  rw [bitsOf, List.length_flatMap, List.map_congr_left fun byte _ ↦ length_lowBits 8 byte.toNat,
    List.map_const', List.sum_replicate_nat, Array.length_toList, ByteArray.size_data, Nat.mul_comm]

/-- What pieces of the same length make up, by piece and place. -/
theorem getElem?_flatMap_of_length {α β : Type} {f : α → List β} {l : List α} {n : Nat}
    (hf : ∀ a ∈ l, (f a).length = n) (i : Nat) {k : Nat} (hk : k < n) :
    (l.flatMap f)[i * n + k]? = l[i]?.bind fun a ↦ (f a)[k]? := by
  induction l generalizing i with
  | nil => rfl
  | cons a l ih =>
    have hfirst : (f a).length = n := hf a List.mem_cons_self
    rw [List.flatMap_cons]
    cases i with
    | zero =>
      rw [Nat.zero_mul, Nat.zero_add, List.getElem?_append_left (by omega),
        List.getElem?_cons_zero, Option.bind_some]
    | succ i =>
      have hskip : (i + 1) * n + k = (f a).length + (i * n + k) := by
        rw [hfirst, Nat.succ_mul]
        omega
      rw [hskip, List.getElem?_append_right (Nat.le_add_right _ _), Nat.add_sub_cancel_left,
        List.getElem?_cons_succ]
      exact ih (fun a ha ↦ hf a (List.mem_cons_of_mem _ ha)) i

private theorem getElem?_bitsOf (bytes : ByteArray) (i : Nat) :
    (bitsOf bytes)[i]? = bytes[i / 8]?.map fun byte ↦ byte.toNat / 2 ^ (i % 8) % 2 == 1 := by
  have hi : i % 8 < 8 := Nat.mod_lt _ (by decide)
  have hget := getElem?_flatMap_of_length
    (fun (byte : UInt8) (_ : byte ∈ bytes.data.toList) ↦ length_lowBits 8 byte.toNat) (i / 8) hi
  simp only [getElem?_lowBits _ hi, Array.getElem?_toList, Nat.div_add_mod'] at hget
  rw [bitsOf, hget, Option.map_eq_bind]
  rfl

private theorem exists_append_of_flatMap {bytes front : List UInt8} {more : List Bool}
    (h : bytes.flatMap (fun byte ↦ lowBits 8 byte.toNat) =
      front.flatMap (fun byte ↦ lowBits 8 byte.toNat) ++ more) : ∃ back, bytes = front ++ back := by
  induction front generalizing bytes with
  | nil => exact ⟨bytes, rfl⟩
  | cons first front ih =>
    cases bytes with
    | nil => simp [lowBits] at h
    | cons byte bytes =>
      rw [List.flatMap_cons, List.flatMap_cons, List.append_assoc] at h
      obtain ⟨hfirst, hlater⟩ := List.append_inj h (by simp)
      obtain ⟨back, rfl⟩ := ih hlater
      have hsame := eq_of_lowBits_eq byte.toNat_lt first.toNat_lt hfirst
      exact ⟨back, by rw [UInt8.toNat_inj.1 hsame, List.cons_append]⟩

/-- Bytes whose bits come first come first. -/
theorem exists_append_of_bitsOf {bytes front : ByteArray} {more : List Bool}
    (h : bitsOf bytes = bitsOf front ++ more) : ∃ back, bytes = front ++ back := by
  obtain ⟨back, hback⟩ := exists_append_of_flatMap h
  refine ⟨⟨back.toArray⟩, ByteArray.ext (Array.toList_inj.1 ?_)⟩
  rw [hback, ByteArray.data_append, Array.toList_append]

namespace BitWriter

/-- The bits that are written so far. -/
def bits (w : BitWriter) : List Bool := bitsOf w.bytes ++ lowBits w.count w.rest

/-- Less than a byte is left over, and it has no bits beyond its count. -/
structure Tidy (w : BitWriter) : Prop where
  count_lt : w.count < 8
  rest_lt : w.rest < 2 ^ w.count

private theorem bits_drain (w : BitWriter) : w.drain.bits = w.bits := by
  fun_induction drain w with
  | case1 w hcount ih =>
    obtain ⟨k, hk⟩ := Nat.exists_eq_add_of_le hcount
    rw [ih, bits, bits, bitsOf_push, hk, Nat.add_sub_cancel_left, lowBits_add, List.append_assoc]
    rfl
  | case2 => rfl

private theorem tidy_drain (w : BitWriter) (h : w.rest < 2 ^ w.count) : w.drain.Tidy := by
  fun_induction drain w with
  | case1 w hcount ih =>
    apply ih
    obtain ⟨k, hk⟩ := Nat.exists_eq_add_of_le hcount
    rw [hk, Nat.pow_add] at h
    simpa only [hk, Nat.add_sub_cancel_left] using Nat.div_lt_of_lt_mul h
  | case2 w hcount => exact ⟨Nat.not_le.1 hcount, h⟩

variable {w : BitWriter}

/-- Writing a field adds its bits. -/
theorem Tidy.bits_write (h : w.Tidy) (field : Field) :
    (w.write field).bits = w.bits ++ lowBits field.width field.value := by
  have hpos : 0 < 2 ^ w.count := Nat.two_pow_pos _
  have hdiv : (w.rest + field.value * 2 ^ w.count) / 2 ^ w.count = field.value := by
    rw [Nat.add_mul_div_right _ _ hpos, Nat.div_eq_of_lt h.rest_lt, Nat.zero_add]
  rw [write, bits_drain, bits, bits, List.append_assoc]
  congr 1
  exact (lowBits_add ..).trans (congrArg₂ _ (lowBits_add_mul ..) (congrArg _ hdiv))

theorem Tidy.write (h : w.Tidy) {field : Field} (hfield : field.value < 2 ^ field.width) :
    (w.write field).Tidy := by
  apply tidy_drain
  calc w.rest + field.value * 2 ^ w.count
      < 2 ^ w.count + field.value * 2 ^ w.count := by have := h.rest_lt; omega
    _ = (field.value + 1) * 2 ^ w.count := by rw [Nat.succ_mul, Nat.add_comm]
    _ ≤ 2 ^ field.width * 2 ^ w.count := Nat.mul_le_mul_right _ hfield
    _ = 2 ^ (w.count + field.width) := by rw [Nat.pow_add, Nat.mul_comm]

/-- The bits of fields, one after the other. -/
def fieldBits (fields : List Field) : List Bool :=
  fields.flatMap fun field ↦ lowBits field.width field.value

/-- Writing fields adds their bits. -/
theorem Tidy.writeAll (h : w.Tidy) {fields : List Field}
    (hfields : ∀ field ∈ fields, field.value < 2 ^ field.width) :
    (fields.foldl BitWriter.write w).Tidy ∧
      (fields.foldl BitWriter.write w).bits = w.bits ++ fieldBits fields := by
  induction fields generalizing w with
  | nil => simpa [fieldBits] using h
  | cons field fields ih =>
    have hfield := hfields field List.mem_cons_self
    obtain ⟨htidy, hbits⟩ := ih (h.write hfield) fun f hf ↦ hfields f (List.mem_cons_of_mem _ hf)
    refine ⟨htidy, ?_⟩
    rw [List.foldl_cons, hbits, h.bits_write, List.append_assoc]
    rfl

/-- Filling up the last byte adds zeros up to the next byte. -/
theorem Tidy.bits_align (h : w.Tidy) :
    ∃ zeros, bitsOf w.align.bytes = w.bits ++ zeros ∧
      (w.bits ++ zeros).length = (w.bits.length + 7) / 8 * 8 := by
  have hcount := h.count_lt
  rw [align]
  split
  next hzero =>
    refine ⟨[], ?_, ?_⟩
    · simp [bits, hzero, lowBits]
    · simp [bits, hzero, lowBits]; omega
  next hzero =>
    refine ⟨lowBits (8 - w.count) (w.rest / 2 ^ w.count), ?_, ?_⟩
    · rw [bitsOf_push, bits, List.append_assoc, ← lowBits_add, Nat.add_sub_cancel' hcount.le]
    · simp only [bits, List.length_append, length_bitsOf, length_lowBits]
      omega

theorem tidy_append (w : BitWriter) (bytes : ByteArray) : (w.append bytes).Tidy :=
  ⟨by simp [append], by simp [append]⟩

theorem bits_append (w : BitWriter) (bytes : ByteArray) :
    (w.append bytes).bits = bitsOf w.align.bytes ++ bitsOf bytes := by
  simp [append, bits, lowBits]

end BitWriter

namespace Bits

/-- The bits that are left to read. -/
def rest (b : Bits) : List Bool := (bitsOf b.data).drop b.pos

/-- The same data, read some bits further. -/
def skip (b : Bits) (n : Nat) : Bits := { b with pos := b.pos + n }

@[simp]
theorem rest_skip (b : Bits) (n : Nat) : (b.skip n).rest = b.rest.drop n := by
  simp [rest, skip]

@[simp]
theorem skip_skip (b : Bits) (m n : Nat) : (b.skip m).skip n = b.skip (m + n) := by
  simp [skip, Nat.add_assoc]

theorem left_eq (b : Bits) : b.left = b.rest.length := by
  simp [left, rest]

variable {b : Bits} {more : List Bool}

theorem rest_skip_of_eq {front : List Bool} (h : b.rest = front ++ more) :
    (b.skip front.length).rest = more := by
  rw [rest_skip, h, List.drop_left]

/-- The first bit that is left is read. -/
theorem bit?_of_rest {bit : Bool} (h : b.rest = bit :: more) :
    b.bit? = some (bit.toNat, b.skip 1) := by
  have hbit : (bitsOf b.data)[b.pos]? = some bit := by
    have := congrArg (·[0]?) h
    simpa [rest] using this
  rw [getElem?_bitsOf, Option.map_eq_some_iff] at hbit
  obtain ⟨byte, hbyte, rfl⟩ := hbit
  rw [bit?, hbyte, toNat_lowBit]
  rfl

/-- A number is read whose bits are the first that are left. -/
theorem number?_of_rest {width n : Nat} (hn : n < 2 ^ width)
    (h : b.rest = lowBits width n ++ more) :
    b.number? width = some (n, b.skip width) := by
  induction width generalizing b n with
  | zero =>
    obtain rfl : n = 0 := by simpa using hn
    rfl
  | succ width ih =>
    rw [lowBits, List.cons_append] at h
    have hhalf : n / 2 < 2 ^ width := by rw [Nat.pow_succ] at hn; omega
    have hrest : (b.skip 1).rest = lowBits width (n / 2) ++ more := by rw [rest_skip, h]; rfl
    have hlow : (n % 2 == 1).toNat + 2 * (n / 2) = n := by
      rw [toNat_lowBit]
      omega
    simp only [number?, bit?_of_rest h, ih hhalf hrest, skip_skip, Option.bind_eq_bind,
      Option.bind_some, Option.pure_def, hlow, Nat.add_comm 1 width]

end Bits

end BrainPiet.Png
