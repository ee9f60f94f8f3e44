import BrainPiet.Proofs.Machine.Depth
import Mathlib.Data.List.TakeWhile
import Mathlib.Data.Nat.Digits.Lemmas

/-!
# Numbers written and read back

A number is written as a minus sign, if it is negative, and its decimal digits. Reading passes over
blanks, takes a minus sign and then the longest run of digits. So a number that was written is read
back where no digit follows it, whatever else does. Numbers with blanks between them are read back
one after the other.
-/

namespace BrainPiet

/-- The bound of numbers that can be written is one of digits. -/
theorem Text.lt_unwritableBound_iff {n : Nat} :
    n < unwritableBound ↔ (Nat.digits 10 n).length ≤ digitLimit := by
  delta unwritableBound
  rw [Nat.pow_eq, Nat.digits_length_le_iff (by decide)]

namespace Byte

/-- The decimal digits of a number, the most significant first. -/
def digits (n : Nat) : List UInt8 := (Nat.toDigits 10 n).map Char.toUInt8

/-- The bytes that write an integer. -/
def numeral (n : Int) : List UInt8 := (if n < 0 then [minus] else []) ++ digits n.natAbs

private theorem numeral_of_neg {n : Int} (h : n < 0) : numeral n = minus :: digits n.natAbs := by
  rw [numeral, if_pos h]
  rfl

private theorem numeral_of_nonneg {n : Int} (h : 0 ≤ n) : numeral n = digits n.natAbs := by
  rw [numeral, if_neg (Int.not_lt.mpr h)]
  rfl

private theorem toList_loop (bytes : ByteArray) (i : Nat) (acc : List UInt8) :
    ByteArray.toList.loop bytes i acc = acc.reverse ++ bytes.data.toList.drop i := by
  fun_induction ByteArray.toList.loop bytes i acc with
  | case1 i acc hlt ih =>
    have hi : i < bytes.data.toList.length := by simpa using hlt
    have hget : bytes.get! i = bytes.data.toList[i] := by
      change bytes.data[i]! = _
      rw [getElem!_pos bytes.data i hlt, Array.getElem_toList]
    rw [ih, List.drop_eq_getElem_cons hi, hget, List.reverse_cons, List.append_assoc]
    rfl
  | case2 i acc hge =>
    rw [List.drop_eq_nil_of_le (by simpa using hge), List.append_nil]

private theorem ofText_append (a b : String) : ofText (a ++ b) = ofText a ++ ofText b := by
  simp only [ofText, ByteArray.toList, toList_loop, String.toUTF8_eq_toByteArray,
    String.toByteArray_append]
  simp

private theorem ofText_ofList {chars : List Char} (h : ∀ c ∈ chars, c.toNat < 128) :
    ofText (String.ofList chars) = chars.map Char.toUInt8 := by
  induction chars with
  | nil => simp [ofText, ByteArray.toList, toList_loop]
  | cons c chars ih =>
    have hsize : c.utf8Size = 1 := by
      rw [Char.utf8Size_eq_one_iff, UInt32.le_iff_toNat_le]
      exact Nat.le_of_lt_succ (h c List.mem_cons_self)
    have hrest := ih fun d hd ↦ h d (List.mem_cons_of_mem c hd)
    have hcons : String.ofList (c :: chars) = String.ofList [c] ++ String.ofList chars := by
      rw [← String.ofList_append]
      rfl
    rw [hcons, ofText_append, hrest, List.map_cons]
    simp [ofText, ByteArray.toList, toList_loop, List.utf8Encode_singleton,
      String.utf8EncodeChar_eq_singleton hsize]

private theorem toNat_of_mem_toDigits {n : Nat} {c : Char} (h : c ∈ Nat.toDigits 10 n) :
    48 ≤ c.toNat ∧ c.toNat ≤ 57 ∧ c.toUInt8.toNat = c.toNat := by
  have hdigit := Nat.isDigit_of_mem_toDigits (by decide) (by decide) h
  rw [Char.isDigit, Bool.and_eq_true, decide_eq_true_eq, decide_eq_true_eq, ge_iff_le,
    UInt32.le_iff_toNat_le, UInt32.le_iff_toNat_le] at hdigit
  obtain ⟨hlow, hhigh⟩ : 48 ≤ c.toNat ∧ c.toNat ≤ 57 := hdigit
  have hbyte : c.toUInt8.toNat = c.toNat % 256 := UInt32.toNat_toUInt8 c.val
  exact ⟨hlow, hhigh, by omega⟩

private theorem isDecimal_of_mem_digits {n : Nat} {b : UInt8} (h : b ∈ digits n) : isDecimal b = true := by
  obtain ⟨c, hc, rfl⟩ := List.mem_map.mp h
  obtain ⟨hlow, hhigh, hbyte⟩ := toNat_of_mem_toDigits hc
  rw [isDecimal, Bool.and_eq_true, decide_eq_true_eq, decide_eq_true_eq, UInt8.le_iff_toNat_le,
    UInt8.le_iff_toNat_le, hbyte]
  exact ⟨hlow, hhigh⟩

private theorem ofText_toString (n : Int) : ofText (toString n) = numeral n := by
  have hrepr (k : Nat) : ofText k.repr = digits k := by
    rw [Nat.repr_eq_ofList_toDigits, ofText_ofList]
    · rfl
    · intro c hc
      have := toNat_of_mem_toDigits hc
      omega
  have hminus : ofText (String.ofList ['-']) = [minus] := by
    apply ofText_ofList
    rw [List.forall_mem_singleton]
    decide
  rw [Int.toString_eq_repr, Int.repr_eq_if]
  by_cases hn : 0 ≤ n
  · rw [if_pos hn, hrepr, numeral_of_nonneg hn, show n.natAbs = n.toNat by omega]
  · change ofText (if 0 ≤ n then _ else String.ofList ['-'] ++ _) = _
    rw [if_neg hn, ofText_append, hminus, hrepr, numeral_of_neg (Int.not_le.mp hn),
      show n.natAbs = (-n).toNat by omega]
    rfl

private theorem ofDigits_digits (n : Nat) :
    Text.ofDigits ((digits n).map fun b ↦ b.toNat - 0x30) = n := by
  have hvalues : (digits n).map (fun b ↦ b.toNat - 0x30) =
      (Nat.toDigits 10 n).map fun c ↦ c.toNat - '0'.toNat := by
    rw [digits, List.map_map]
    apply List.map_congr_left
    intro c hc
    rw [Function.comp_apply, (toNat_of_mem_toDigits hc).2.2]
    rfl
  rw [hvalues, Text.ofDigits, List.foldl_map]
  exact Nat.ofDigitChars_ten_toDigits

private theorem length_digits_le_iff {n : Nat} :
    (digits n).length ≤ Text.digitLimit ↔ (Nat.digits 10 n).length ≤ Text.digitLimit := by
  rw [digits, List.length_map, Nat.length_toDigits_le_iff (by decide) (by decide),
    Nat.digits_length_le_iff (by decide)]

private theorem not_isBlank_of_isDecimal {b : UInt8} (h : isDecimal b = true) :
    isBlank b = false ∧ b ≠ minus := by
  simp only [isDecimal, isBlank, minus] at *
  grind

private theorem exists_digits (n : Nat) : ∃ d ds, digits n = d :: ds ∧ isBlank d = false ∧ d ≠ minus := by
  have hne : digits n ≠ [] := by
    rw [digits, ne_eq, List.map_eq_nil_iff]
    exact Nat.toDigits_ne_nil
  obtain ⟨d, ds, hdigits⟩ := List.exists_cons_of_ne_nil hne
  have hd : d ∈ digits n := hdigits ▸ List.mem_cons_self
  exact ⟨d, ds, hdigits, not_isBlank_of_isDecimal (isDecimal_of_mem_digits hd)⟩

private theorem not_isDigit_of_isBlank {b : UInt8} (h : isBlank b = true) : isDigit b = false := by
  simp only [isDecimal, isBlank, isDigit] at *
  grind

end Byte

namespace NumberScan

private theorem takeWhile_dropWhile {p : UInt8 → Bool} {run rest : List UInt8}
    (hrun : ∀ b ∈ run, p b = true) (hrest : ∀ b, rest.head? = some b → p b = false) :
    (run ++ rest).takeWhile p = run ∧ (run ++ rest).dropWhile p = rest := by
  rw [List.takeWhile_append_of_pos hrun, List.dropWhile_append_of_pos hrun]
  cases rest with
  | nil => exact ⟨List.append_nil run, rfl⟩
  | cons b rest => simp [hrest b rfl]

variable {gap rest : List UInt8} {n : Int}

/-- Behind blanks, a numeral is found as its sign and its digits, up to where no digit follows. -/
theorem ofInput_numeral (n : Int) (hgap : ∀ b ∈ gap, Byte.isBlank b = true)
    (hrest : ∀ b, rest.head? = some b → Byte.isDigit b = false) :
    ofInput (gap ++ (Byte.numeral n ++ rest)) = ⟨n < 0, Byte.digits n.natAbs, rest⟩ := by
  have hrun : ∀ b ∈ Byte.digits n.natAbs, Byte.isDigit b = true := by
    intro b hb
    simp [Byte.isDigit, Byte.isDecimal_of_mem_digits hb]
  obtain ⟨htake, hdrop⟩ := takeWhile_dropWhile hrun hrest
  by_cases hn : n < 0
  · have htrim : (gap ++ Byte.minus :: (Byte.digits n.natAbs ++ rest)).dropWhile Byte.isBlank =
        Byte.minus :: (Byte.digits n.natAbs ++ rest) := by
      apply (takeWhile_dropWhile hgap _).2
      rintro _ ⟨⟩
      decide
    rw [Byte.numeral_of_neg hn, List.cons_append]
    simp [ofInput, htrim, htake, hdrop, hn]
  · obtain ⟨d, ds, hdigits, hblank, hminus⟩ := Byte.exists_digits n.natAbs
    have hhead : (Byte.digits n.natAbs ++ rest).head? = some d := by
      rw [hdigits]
      rfl
    have htrim : (gap ++ (Byte.digits n.natAbs ++ rest)).dropWhile Byte.isBlank =
        Byte.digits n.natAbs ++ rest := by
      apply (takeWhile_dropWhile hgap _).2
      rw [hhead]
      rintro _ ⟨⟩
      exact hblank
    rw [Byte.numeral_of_nonneg (Int.not_lt.mp hn)]
    simp [ofInput, htrim, hhead, hminus, htake, hdrop, hn]

/-- The sign and the digits of a number that is not too long give its value. -/
theorem value_numeral (hn : (Nat.digits 10 n.natAbs).length ≤ Text.digitLimit) :
    value ⟨n < 0, Byte.digits n.natAbs, rest⟩ = .ok (some n) := by
  have hdecimals : (Byte.digits n.natAbs).takeWhile Byte.isDecimal = Byte.digits n.natAbs := by
    rw [List.takeWhile_eq_self_iff]
    exact fun b hb ↦ Byte.isDecimal_of_mem_digits hb
  obtain ⟨d, ds, hdigits, -⟩ := Byte.exists_digits n.natAbs
  have hne : (Byte.digits n.natAbs).isEmpty = false := by
    rw [hdigits]
    rfl
  have hlength := Nat.not_lt.mpr (Byte.length_digits_le_iff.mpr hn)
  have hsign : (if n < 0 then -(n.natAbs : Int) else n.natAbs) = n := by omega
  simp only [value, hdecimals, hne, hlength, Nat.lt_irrefl, Bool.false_eq_true, if_false,
    Byte.ofDigits_digits, decide_eq_true_eq, hsign]

end NumberScan

namespace Machine

variable (m : Machine) (size : Int) {n : Int} {gap rest : List UInt8}

/-- A number that is not too long is written as its numeral. -/
theorem execute_outNum (hn : (Nat.digits 10 n.natAbs).length ≤ Text.digitLimit) :
    execute .outNum size (m.setStack (n :: m.stack)) =
      .ok () { m with output := m.output ++ Byte.numeral n } := by
  have htext : Text.decimal? n = some (toString n) :=
    if_pos (Text.lt_unwritableBound_iff.mpr hn)
  simp only [execute, setStack, htext, Byte.ofText_toString]

/-- The number behind some blanks is pushed, and what follows it is left. -/
theorem execute_inNum (hgap : ∀ b ∈ gap, Byte.isBlank b = true)
    (hn : (Nat.digits 10 n.natAbs).length ≤ Text.digitLimit)
    (hrest : ∀ b, rest.head? = some b → Byte.isDigit b = false) :
    execute .inNum size { m with input := gap ++ (Byte.numeral n ++ rest) } =
      .ok () { m with stack := n :: m.stack, input := rest } := by
  simp only [execute, readNumber, NumberScan.ofInput_numeral n hgap hrest,
    NumberScan.value_numeral hn, setStack]

/-- A byte is written as it is. -/
theorem execute_outChar (b : UInt8) :
    execute .outChar size (m.setStack (b.toNat :: m.stack)) =
      .ok () { m with output := m.output.push b } := by
  have hbyte : UInt8.ofNat ((b.toNat : Int) % 256).toNat = b := by
    have hlt := b.toNat_lt
    rw [show ((b.toNat : Int) % 256).toNat = b.toNat by omega, UInt8.ofNat_toNat]
  simp only [execute, setStack, hbyte]

/-- The operations write some bytes and change nothing else. -/
def Prints (code : List Emission) (bytes : List UInt8) : Prop :=
  ∀ m, executeAll code m = .ok () { m with output := m.output ++ bytes }

variable {code more : List Emission} {bytes others : List UInt8}

theorem Prints.append (h : Prints code bytes) (h' : Prints more others) :
    Prints (code ++ more) (bytes ++ others) := by
  intro m
  have houtput : m.output ++ (bytes ++ others) = m.output ++ bytes ++ others := by
    apply Array.toList_inj.mp
    simp
  rw [executeAll_append_of_ok (h m), houtput]
  exact h' _

theorem Prints.flatMap {α : Type} {f : α → List Emission} {g : α → List UInt8} {l : List α}
    (h : ∀ a ∈ l, Prints (f a) (g a)) : Prints (l.flatMap f) (l.flatMap g) := by
  induction l with
  | nil =>
    intro m
    rfl
  | cons a l ih =>
    rw [List.flatMap_cons, List.flatMap_cons]
    exact (h a List.mem_cons_self).append (ih fun b hb ↦ h b (List.mem_cons_of_mem a hb))

/-- Operations write one text only. -/
theorem Prints.unique (h : Prints code bytes) (h' : Prints code others) : bytes = others := by
  have heq := (h {}).symm.trans (h' {})
  simpa [← Array.toList_inj] using heq

private theorem prints_of_execute {op : Operation} (h : ∀ m : Machine,
    execute op 1 (m.setStack (n :: m.stack)) = .ok () { m with output := m.output ++ bytes }) :
    Prints (TapeStack.push n ++ [⟨op, 1⟩]) bytes := by
  intro m
  rw [executeAll_append_of_ok (m.executeAll_push n)]
  exact executeAll_cons_of_ok (h m)

end Machine

/-- A number with the bytes in front of it. -/
structure Spaced where
  gap : List UInt8
  value : Int
  deriving DecidableEq, Repr

namespace Spaced

/-- The bytes in front are blanks, and the number does not have too many digits. -/
structure Legible (e : Spaced) : Prop where
  blank : ∀ b ∈ e.gap, Byte.isBlank b = true
  digits : (Nat.digits 10 e.value.natAbs).length ≤ Text.digitLimit

/-- The bytes in front and the numeral. -/
def text (e : Spaced) : List UInt8 := e.gap ++ Byte.numeral e.value

/-- The operations that write the bytes in front one by one, and then the number. -/
def printing (e : Spaced) : List Emission :=
  e.gap.flatMap (fun b ↦ TapeStack.push b.toNat ++ [⟨.outChar, 1⟩]) ++
    (TapeStack.push e.value ++ [⟨.outNum, 1⟩])

theorem Legible.prints {e : Spaced} (h : e.Legible) : Machine.Prints e.printing e.text := by
  have hgap : Machine.Prints _ (e.gap.flatMap fun b ↦ [b]) :=
    .flatMap fun b _ ↦ Machine.prints_of_execute fun m ↦ by
      simpa using m.execute_outChar 1 b
  rw [List.flatMap_singleton'] at hgap
  exact hgap.append (Machine.prints_of_execute fun m ↦ m.execute_outNum 1 h.digits)

variable {entries : List Spaced} {tail : List UInt8}

private theorem not_isDigit_head (h : ∀ e ∈ entries, e.Legible)
    (hgap : ∀ e ∈ entries.head?, e.gap ≠ [])
    (htail : ∀ b, tail.head? = some b → Byte.isDigit b = false) (b : UInt8)
    (hb : (entries.flatMap text ++ tail).head? = some b) : Byte.isDigit b = false := by
  cases entries with
  | nil => exact htail b hb
  | cons e entries =>
    obtain ⟨b', gap, he⟩ := List.exists_cons_of_ne_nil (hgap e rfl)
    have hblank := (h e List.mem_cons_self).blank b' (he ▸ List.mem_cons_self)
    rw [List.flatMap_cons, text, he] at hb
    cases hb
    exact Byte.not_isDigit_of_isBlank hblank

/-- Numbers with blanks between them are read one after the other. -/
theorem executeAll_inNum (h : ∀ e ∈ entries, e.Legible) (hgaps : ∀ e ∈ entries.tail, e.gap ≠ [])
    (htail : ∀ b, tail.head? = some b → Byte.isDigit b = false) (m : Machine) :
    Machine.executeAll (.replicate entries.length ⟨.inNum, 1⟩)
        { m with input := entries.flatMap text ++ tail } =
      .ok () { m with stack := (entries.map value).reverse ++ m.stack, input := tail } := by
  induction entries generalizing m with
  | nil => rfl
  | cons e entries ih =>
    have hrest : ∀ f ∈ entries, f.Legible := fun f hf ↦ h f (List.mem_cons_of_mem e hf)
    have hstop := not_isDigit_head hrest
      (fun f hf ↦ hgaps f (List.mem_of_mem_head? hf)) htail
    have hread := m.execute_inNum 1 (h e List.mem_cons_self).blank
      (h e List.mem_cons_self).digits hstop
    have hinput : (e :: entries).flatMap text ++ tail =
        e.gap ++ (Byte.numeral e.value ++ (entries.flatMap text ++ tail)) := by simp [text]
    have hothers := ih hrest (fun f hf ↦ hgaps f (List.mem_of_mem_tail hf))
      { m with stack := e.value :: m.stack }
    rw [hinput, List.length_cons, List.replicate_succ,
      Machine.executeAll_cons_of_ok (e := ⟨.inNum, 1⟩) hread]
    simpa using hothers

end Spaced

/-- Numbers that do not have too many digits can be printed, with blanks in front of the first and
at least one blank in front of each other. Where no digit follows the text, reading as many numbers
off it pushes them in their order and leaves exactly what follows. -/
theorem printed_numbers_read_back {entries : List Spaced} {tail : List UInt8}
    (h : ∀ e ∈ entries, e.Legible) (hgaps : ∀ e ∈ entries.tail, e.gap ≠ [])
    (htail : ∀ b, tail.head? = some b → Byte.isDigit b = false) :
    ∃ text : List UInt8, Machine.Prints (entries.flatMap Spaced.printing) text ∧
      ∀ m : Machine,
        Machine.executeAll (.replicate entries.length ⟨.inNum, 1⟩)
            { m with input := text ++ tail } =
          .ok () { m with stack := (entries.map Spaced.value).reverse ++ m.stack, input := tail } :=
  ⟨entries.flatMap Spaced.text, .flatMap fun e he ↦ (h e he).prints,
    Spaced.executeAll_inNum h hgaps htail⟩

/-- A negative number, zero and a digit between different blanks, with a minus sign and a digit
behind them that are left. -/
theorem printed_numbers_read_back_signed :
    let entries : List Spaced := [⟨[0x20, 0x0A], -12⟩, ⟨[0xA0], 0⟩, ⟨[0x09, 0x1F], 7⟩]
    (∀ e ∈ entries, e.Legible) ∧ (∀ e ∈ entries.tail, e.gap ≠ []) ∧ Byte.isDigit 0x2D = false ∧
    Machine.executeAll (entries.flatMap Spaced.printing) {} =
      .ok () { output := #[0x20, 0x0A, 0x2D, 0x31, 0x32, 0xA0, 0x30, 0x09, 0x1F, 0x37] } ∧
    Machine.executeAll [⟨.inNum, 1⟩, ⟨.inNum, 1⟩, ⟨.inNum, 1⟩]
        { input := [0x20, 0x0A, 0x2D, 0x31, 0x32, 0xA0, 0x30, 0x09, 0x1F, 0x37, 0x2D, 0x35] } =
      .ok () { stack := [7, 0, -12], input := [0x2D, 0x35] } := by
  intro entries
  have hlegible : ∀ e ∈ entries, e.Legible := by
    simp only [entries, List.forall_mem_cons]
    refine ⟨⟨List.all_eq_true.mp rfl, ?_⟩, ⟨List.all_eq_true.mp rfl, ?_⟩,
      ⟨List.all_eq_true.mp rfl, ?_⟩, by simp⟩
    all_goals decide
  have hgaps : ∀ e ∈ entries.tail, e.gap ≠ [] := by decide
  have hminus : Byte.isDigit 0x2D = false := by decide
  have htail : ∀ b, [0x2D, 0x35].head? = some b → Byte.isDigit b = false := by
    rintro _ ⟨⟩
    exact hminus
  obtain ⟨text, hprint, hread⟩ := printed_numbers_read_back hlegible hgaps htail
  have htext : text = entries.flatMap Spaced.text :=
    hprint.unique (.flatMap fun e he ↦ (hlegible e he).prints)
  subst htext
  exact ⟨hlegible, hgaps, hminus, hprint {}, hread {}⟩

end BrainPiet
