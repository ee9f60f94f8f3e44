import BrainPiet.Proofs.Png.PrefixCode
import BrainPiet.Proofs.Png.Repeat

/-!
# The body of a block

Each piece is written as a few fields: the code of its symbol, and for a copy what adds to the least
length and distance of its kind. Reading them gives the piece again, so reading the body of a block
unpacks its pieces.
-/

namespace BrainPiet.Png

namespace Deflate

section Kind

variable {kinds : Array (Nat × Nat)} {limit n : Nat}

/-- Kinds that follow each other without a gap, up to a limit. -/
def Gapless (kinds : Array (Nat × Nat)) (limit : Nat) : Prop :=
  ∀ kind < kinds.size, (kinds[kind + 1]?.map (·.1)).getD limit ≤
    (kinds[kind]?.getD (0, 0)).1 + 2 ^ (kinds[kind]?.getD (0, 0)).2

instance : Decidable (Gapless kinds limit) :=
  inferInstanceAs (Decidable (∀ kind < kinds.size, _ ≤ _))

-- The kind of a number is the last whose least number is not above it.
private theorem last_findIdx? {above : Nat × Nat → Bool}
    (habove : ∀ kind, above kind = decide (n < kind.1)) (hpos : 0 < kinds.size)
    (hfirst : (kinds[0]).1 ≤ n) (hn : n < limit) :
    ∃ kind, (kinds.findIdx? above).getD kinds.size - 1 = kind ∧ ∃ hlt : kind < kinds.size,
      (kinds[kind]).1 ≤ n ∧ n < (kinds[kind + 1]?.map (·.1)).getD limit := by
  cases hfind : kinds.findIdx? above with
  | none =>
    rw [Array.findIdx?_eq_none_iff] at hfind
    have hlast : kinds.size - 1 < kinds.size := by omega
    refine ⟨kinds.size - 1, rfl, hlast, ?_, ?_⟩
    · simpa [habove] using hfind _ (Array.getElem_mem hlast)
    · rw [Array.getElem?_eq_none (by omega)]
      exact hn
  | some index =>
    obtain ⟨hindex, hgt, hbefore⟩ := Array.findIdx?_eq_some_iff_getElem.1 hfind
    simp only [habove, decide_eq_true_eq, Nat.not_lt] at hgt hbefore
    have hne : index ≠ 0 := by
      rintro rfl
      omega
    refine ⟨index - 1, rfl, by omega, hbefore (index - 1) (by omega), ?_⟩
    rw [Nat.sub_add_cancel (by omega), Array.getElem?_eq_getElem hindex]
    exact hgt

/-- A number belongs to its kind. -/
theorem kindOf_spec (hkinds : Gapless kinds limit) (hfirst : (kinds[0]?.getD (n + 1, 0)).1 ≤ n)
    (hn : n < limit) :
    ∃ least, kinds[(kindOf kinds n).1]? = some (least, (kindOf kinds n).2.width) ∧
      least + (kindOf kinds n).2.value = n ∧
      (kindOf kinds n).2.value < 2 ^ (kindOf kinds n).2.width := by
  have hpos : 0 < kinds.size := by
    by_contra hzero
    rw [Array.getElem?_eq_none (by omega)] at hfirst
    exact Nat.not_succ_le_self n hfirst
  rw [Array.getElem?_eq_getElem hpos, Option.getD_some] at hfirst
  obtain ⟨kind, hkind, hlt, hle, hnext⟩ : ∃ kind, (kindOf kinds n).1 = kind ∧
      ∃ hlt : kind < kinds.size, (kinds[kind]).1 ≤ n ∧
        n < (kinds[kind + 1]?.map (·.1)).getD limit :=
    last_findIdx? (fun _ ↦ rfl) hpos hfirst hn
  have hfield : (kindOf kinds n).2 = ⟨n - (kinds[(kindOf kinds n).1]?.getD (0, 0)).1,
      (kinds[(kindOf kinds n).1]?.getD (0, 0)).2⟩ := rfl
  have hroom := hkinds kind hlt
  rw [hkind, Array.getElem?_eq_getElem hlt, Option.getD_some] at hfield
  rw [Array.getElem?_eq_getElem hlt, Option.getD_some] at hroom
  rw [hkind, hfield, Array.getElem?_eq_getElem hlt]
  exact ⟨(kinds[kind]).1, rfl, Nat.add_sub_of_le hle, by dsimp only; omega⟩

private theorem gapless_lengthKinds : Gapless Inflate.lengthKinds 259 := by decide

private theorem gapless_distanceKinds : Gapless Inflate.distanceKinds 32769 := by decide

end Kind

private theorem ofKind_of_rest {kinds : Array (Nat × Nat)} {limit n : Nat} {b : Bits}
    {more : List Bool}
    (hkinds : Gapless kinds limit) (hfirst : (kinds[0]?.getD (n + 1, 0)).1 ≤ n) (hn : n < limit)
    (hrest : b.rest = lowBits (kindOf kinds n).2.width (kindOf kinds n).2.value ++ more) :
    Inflate.ofKind kinds (kindOf kinds n).1 b = some (n, b.skip (kindOf kinds n).2.width) := by
  obtain ⟨least, hkind, hvalue, hlt⟩ := kindOf_spec hkinds hfirst hn
  simp only [Inflate.ofKind, hkind, Option.bind_eq_bind, Option.bind_some,
    Bits.number?_of_rest hlt hrest, hvalue]
  rfl

/-- A symbol has a code. -/
def Coded (lengths : List Nat) (symbol : Nat) : Prop := ∃ width ≠ 0, lengths[symbol]? = some width

/-- The code of a symbol as it is written. -/
def symbolField (longest : Nat) (lengths : List Nat) (symbol : Nat) : Field :=
  let (value, width) := (Png.codes longest lengths)[symbol]?.getD (0, 0)
  ⟨value, width⟩

section Symbol

variable {longest : Nat} {lengths : List Nat} {symbol width : Nat}

theorem symbolField_eq (hle : ∀ length ∈ lengths, length ≤ longest) (hwidth : width ≠ 0)
    (h : lengths[symbol]? = some width) :
    symbolField longest lengths symbol =
      ⟨reverseBits width (codeOf lengths symbol width), width⟩ := by
  rw [symbolField, getElem?_codes hle hwidth h, Option.getD_some]

theorem Coded.width_pos (h : Coded lengths symbol) (hle : ∀ length ∈ lengths, length ≤ longest) :
    1 ≤ (symbolField longest lengths symbol).width := by
  obtain ⟨width, hwidth, hget⟩ := h
  rw [symbolField_eq hle hwidth hget]
  exact Nat.one_le_iff_ne_zero.2 hwidth

theorem Coded.value_lt (h : Coded lengths symbol) (hle : ∀ length ∈ lengths, length ≤ longest) :
    (symbolField longest lengths symbol).value <
      2 ^ (symbolField longest lengths symbol).width := by
  obtain ⟨width, hwidth, hget⟩ := h
  rw [symbolField_eq hle hwidth hget]
  exact reverseBits_lt ..

/-- The code of a symbol is read again. -/
theorem Coded.symbol?_of_rest (h : Coded lengths symbol) (hroomy : Roomy longest lengths)
    (hlongest : longest ≤ PrefixCode.maxLength) {b : Bits} {more : List Bool}
    (hrest : b.rest = lowBits (symbolField longest lengths symbol).width
      (symbolField longest lengths symbol).value ++ more) :
    (PrefixCode.ofLengths lengths).symbol? b =
      some (symbol, b.skip (symbolField longest lengths symbol).width) := by
  obtain ⟨width, hwidth, hget⟩ := h
  rw [symbolField_eq hroomy.le_longest hwidth hget] at hrest ⊢
  exact PrefixCode.symbol?_of_rest hroomy hlongest hwidth hget hrest

end Symbol

end Deflate

open Deflate

/-- The symbol of a piece: a byte, or the kind of its length. -/
def Token.symbol : Token → Nat
  | literal byte => byte.toNat
  | copy length _ => firstCopy + (kindOf Inflate.lengthKinds length).1

/-- The kind of the distance of a copy. -/
def Token.distanceKind? : Token → Option Nat
  | literal _ => none
  | copy _ distance => some (kindOf Inflate.distanceKinds distance).1

/-- The fields of a piece. -/
def Token.fields (codes : Codes) : Token → List Field
  | literal byte => [symbolField PrefixCode.maxLength codes.literal byte.toNat]
  | copy length distance =>
    [symbolField PrefixCode.maxLength codes.literal
        (firstCopy + (kindOf Inflate.lengthKinds length).1),
      (kindOf Inflate.lengthKinds length).2,
      symbolField PrefixCode.maxLength codes.distance (kindOf Inflate.distanceKinds distance).1,
      (kindOf Inflate.distanceKinds distance).2]

namespace Token.Sound

variable {token : Token} {length distance : Nat}

private theorem length_bounds (h : (Token.copy length distance).Sound) :
    (Inflate.lengthKinds[0]?.getD (length + 1, 0)).1 ≤ length ∧ length < 259 := by
  obtain ⟨hlow, hhigh, -⟩ := h
  simp only [Repeat.tooShort, Repeat.mostLength] at hlow hhigh
  exact ⟨show 3 ≤ length by omega, by omega⟩

private theorem distance_bounds (h : (Token.copy length distance).Sound) :
    (Inflate.distanceKinds[0]?.getD (distance + 1, 0)).1 ≤ distance ∧ distance < 32769 := by
  obtain ⟨-, -, hlow, hhigh⟩ := h
  simp only [Repeat.mostDistance] at hhigh
  exact ⟨hlow, by omega⟩

theorem symbol_lt (h : token.Sound) : token.symbol < literalCount := by
  cases token with
  | literal byte => exact Nat.lt_trans byte.toNat_lt (by decide)
  | copy length distance =>
    obtain ⟨hlow, hhigh⟩ := length_bounds h
    obtain ⟨least, hkind, -⟩ := kindOf_spec gapless_lengthKinds hlow hhigh
    exact Nat.add_lt_add_left (Array.getElem?_eq_some_iff.1 hkind).1 _

theorem kind_lt (h : token.Sound) {kind : Nat} (hkind : kind ∈ token.distanceKind?) :
    kind < distanceCount := by
  cases token with
  | literal byte => exact absurd hkind (Option.not_mem_none _)
  | copy length distance =>
    obtain rfl : (kindOf Inflate.distanceKinds distance).1 = kind := Option.some.inj hkind
    obtain ⟨hlow, hhigh⟩ := distance_bounds h
    obtain ⟨least, hkind, -⟩ := kindOf_spec gapless_distanceKinds hlow hhigh
    exact (Array.getElem?_eq_some_iff.1 hkind).1

end Token.Sound

namespace Deflate

/-- The body of a block holds the fields of its pieces, and the code of its end. -/
theorem body_eq (codes : Codes) (tokens : Array Token) :
    body codes tokens = tokens.toList.flatMap (Token.fields codes) ++
      [symbolField PrefixCode.maxLength codes.literal blockEnd] := by
  rw [body, ← Array.foldr_toList]
  induction tokens.toList with
  | nil => rfl
  | cons token tokens ih =>
    simp only [List.foldr_cons, List.flatMap_cons, List.append_assoc]
    rw [← ih]
    cases token <;> rfl

/-- Codes in which pieces can be written. -/
structure Codes.Serve (codes : Codes) (tokens : List Token) : Prop where
  literal : Roomy PrefixCode.maxLength codes.literal
  distance : Roomy PrefixCode.maxLength codes.distance
  blockEnd : Coded codes.literal blockEnd
  symbol : ∀ token ∈ tokens, Coded codes.literal token.symbol
  kind : ∀ token ∈ tokens, ∀ kind ∈ token.distanceKind?, Coded codes.distance kind

variable {codes : Codes}

theorem Codes.Serve.tail {token : Token} {tokens : List Token} (h : codes.Serve (token :: tokens)) :
    codes.Serve tokens :=
  { h with
    symbol := fun t ht ↦ h.symbol t (List.mem_cons_of_mem _ ht)
    kind := fun t ht ↦ h.kind t (List.mem_cons_of_mem _ ht) }

/-- Each field of a body has room for its value. -/
theorem Codes.Serve.value_lt {tokens : List Token} (h : codes.Serve tokens)
    (hsound : ∀ token ∈ tokens, token.Sound) {field : Field}
    (hfield : field ∈ tokens.flatMap (Token.fields codes) ++
      [symbolField PrefixCode.maxLength codes.literal Deflate.blockEnd]) :
    field.value < 2 ^ field.width := by
  rw [List.mem_append, List.mem_singleton, List.mem_flatMap] at hfield
  obtain ⟨token, htoken, hfield⟩ | rfl := hfield
  · have hsymbol := h.symbol token htoken
    have hkind := h.kind token htoken
    have hsound := hsound token htoken
    cases token with
    | literal byte =>
      obtain rfl := List.mem_singleton.1 hfield
      exact hsymbol.value_lt h.literal.le_longest
    | copy length distance =>
      obtain ⟨hl, hl'⟩ := Token.Sound.length_bounds hsound
      obtain ⟨hd, hd'⟩ := Token.Sound.distance_bounds hsound
      simp only [Token.fields, List.mem_cons, List.not_mem_nil, or_false] at hfield
      obtain rfl | rfl | rfl | rfl := hfield
      · exact hsymbol.value_lt h.literal.le_longest
      · exact (kindOf_spec gapless_lengthKinds hl hl').choose_spec.2.2
      · exact (hkind _ rfl).value_lt h.distance.le_longest
      · exact (kindOf_spec gapless_distanceKinds hd hd').choose_spec.2.2
  · exact h.blockEnd.value_lt h.literal.le_longest

open BitWriter (fieldBits)

theorem rest_skip_field {b : Bits} {field : Field} {fields : List Field} {more : List Bool}
    (h : b.rest = fieldBits (field :: fields) ++ more) :
    b.rest = lowBits field.width field.value ++ (fieldBits fields ++ more) ∧
      (b.skip field.width).rest = fieldBits fields ++ more := by
  have hfront : b.rest = lowBits field.width field.value ++ (fieldBits fields ++ more) := by
    rw [h, fieldBits, List.flatMap_cons, List.append_assoc]
    rfl
  refine ⟨hfront, ?_⟩
  simpa only [length_lowBits] using Bits.rest_skip_of_eq hfront

theorem length_fieldBits_cons (field : Field) (fields : List Field) :
    (fieldBits (field :: fields)).length = field.width + (fieldBits fields).length := by
  simp [fieldBits]

theorem length_fieldBits_singleton (field : Field) : (fieldBits [field]).length = field.width := by
  simp [fieldBits]

theorem fieldBits_append (a b : List Field) : fieldBits (a ++ b) = fieldBits a ++ fieldBits b := by
  simp [fieldBits]

-- One round of the reader takes the fields of a piece and does what the piece says.
private theorem Codes.Serve.coded_succ {token : Token} {tokens : List Token}
    (h : codes.Serve (token :: tokens)) (hvalid : token.Sound) {out next : ByteArray}
    (hexpand : expand [token] out = some next) {fuel : Nat} {b : Bits} {more : List Bool}
    (hrest : b.rest = fieldBits (token.fields codes) ++ more) :
    Inflate.coded (.ofLengths codes.literal) (.ofLengths codes.distance) (fuel + 1) out b =
      Inflate.coded (.ofLengths codes.literal) (.ofLengths codes.distance) fuel next
        (b.skip (fieldBits (token.fields codes)).length) := by
  have hsymbol := h.symbol token List.mem_cons_self
  have hkind := h.kind token List.mem_cons_self
  cases token with
  | literal byte =>
    obtain rfl : out.push byte = next := Option.some.inj hexpand
    obtain ⟨hfront, -⟩ := rest_skip_field hrest
    have hread := hsymbol.symbol?_of_rest h.literal (Nat.le_refl _) hfront
    have hbyte : byte.toNat < 256 := byte.toNat_lt
    rw [Inflate.coded, hread]
    simp only [Option.bind_eq_bind, Option.bind_some, Token.symbol, if_pos hbyte,
      UInt8.ofNat_toNat, Token.fields, length_fieldBits_singleton]
  | copy length distance =>
    obtain ⟨copied, hcopy, hsame⟩ := Option.bind_eq_some_iff.1 hexpand
    obtain rfl : copied = next := Option.some.inj hsame
    obtain ⟨hl, hl'⟩ := Token.Sound.length_bounds hvalid
    obtain ⟨hd, hd'⟩ := Token.Sound.distance_bounds hvalid
    obtain ⟨hfront, hrest₁⟩ := rest_skip_field hrest
    obtain ⟨hfront₁, hrest₂⟩ := rest_skip_field hrest₁
    obtain ⟨hfront₂, hrest₃⟩ := rest_skip_field hrest₂
    obtain ⟨hfront₃, -⟩ := rest_skip_field hrest₃
    have hread := hsymbol.symbol?_of_rest h.literal (Nat.le_refl _) hfront
    have hlength := ofKind_of_rest gapless_lengthKinds hl hl' hfront₁
    have hreadKind := (hkind _ rfl).symbol?_of_rest h.distance (Nat.le_refl _) hfront₂
    have hdistance := ofKind_of_rest gapless_distanceKinds hd hd' hfront₃
    have hnotByte : ¬ firstCopy + (kindOf Inflate.lengthKinds length).1 < 256 := by
      rw [firstCopy]
      omega
    have hnotEnd : ¬ firstCopy + (kindOf Inflate.lengthKinds length).1 = 256 := by
      rw [firstCopy]
      omega
    have hback : firstCopy + (kindOf Inflate.lengthKinds length).1 - 257 =
        (kindOf Inflate.lengthKinds length).1 := Nat.add_sub_cancel_left ..
    rw [Inflate.coded, hread]
    simp only [Option.bind_eq_bind, Option.bind_some, Token.symbol, if_neg hnotByte,
      if_neg hnotEnd, hback, hlength, hreadKind, hdistance, hcopy]
    rw [Token.fields, length_fieldBits_cons, length_fieldBits_cons, length_fieldBits_cons,
      length_fieldBits_singleton]
    simp only [Bits.skip_skip, Nat.add_assoc]

-- The induction is on the pieces, with any output before them: a copy reaches into it.
/-- Reading the body of a block unpacks its pieces. -/
theorem Codes.Serve.coded_of_rest {tokens : List Token} (h : codes.Serve tokens)
    (hsound : ∀ token ∈ tokens, token.Sound) {out unpacked : ByteArray}
    (hexpand : expand tokens out = some unpacked) {fuel : Nat} (hfuel : tokens.length < fuel)
    {b : Bits} {more : List Bool} {fields : List Field}
    (hfields : fields = tokens.flatMap (Token.fields codes) ++
      [symbolField PrefixCode.maxLength codes.literal Deflate.blockEnd])
    (hrest : b.rest = fieldBits fields ++ more) :
    Inflate.coded (.ofLengths codes.literal) (.ofLengths codes.distance) fuel out b =
      some (unpacked, b.skip (fieldBits fields).length) := by
  obtain ⟨fuel, rfl⟩ := Nat.exists_eq_add_one_of_ne_zero (Nat.ne_of_gt (Nat.zero_lt_of_lt hfuel))
  induction tokens generalizing out fuel b fields with
  | nil =>
    obtain rfl : out = unpacked := Option.some.inj hexpand
    subst hfields
    obtain ⟨hfront, -⟩ := rest_skip_field hrest
    have hread := h.blockEnd.symbol?_of_rest h.literal (Nat.le_refl _) hfront
    rw [Inflate.coded, hread]
    simp [fieldBits, Deflate.blockEnd]
  | cons token tokens ih =>
    obtain ⟨fuel, rfl⟩ := Nat.exists_eq_add_one_of_ne_zero
      (show fuel ≠ 0 by rintro rfl; simp at hfuel)
    obtain ⟨next, hnext, hlater⟩ :=
      Option.bind_eq_some_iff.1 ((expand_append [token] tokens out).symm.trans hexpand)
    subst hfields
    rw [List.flatMap_cons, List.append_assoc, fieldBits_append] at hrest ⊢
    rw [List.append_assoc] at hrest
    rw [h.coded_succ (hsound token List.mem_cons_self) hnext hrest,
      ih h.tail (fun t ht ↦ hsound t (List.mem_cons_of_mem _ ht)) hlater rfl
        (Bits.rest_skip_of_eq hrest) fuel (Nat.lt_of_succ_lt_succ hfuel),
      Bits.skip_skip, List.length_append]

theorem Codes.Serve.length_lt {tokens : List Token} (h : codes.Serve tokens) :
    tokens.length < (fieldBits (tokens.flatMap (Token.fields codes) ++
      [symbolField PrefixCode.maxLength codes.literal Deflate.blockEnd])).length := by
  induction tokens with
  | nil =>
    rw [List.flatMap_nil, List.nil_append, length_fieldBits_cons]
    exact Nat.lt_of_lt_of_le (h.blockEnd.width_pos h.literal.le_longest) (Nat.le_add_right ..)
  | cons token tokens ih =>
    have hsymbol := (h.symbol token List.mem_cons_self).width_pos h.literal.le_longest
    have htail := ih h.tail
    rw [List.flatMap_cons, List.append_assoc]
    cases token with
    | literal byte =>
      simp only [Token.fields, Token.symbol, List.cons_append, List.nil_append,
        length_fieldBits_cons, List.length_cons] at hsymbol htail ⊢
      omega
    | copy length distance =>
      simp only [Token.fields, Token.symbol, List.cons_append, List.nil_append,
        length_fieldBits_cons, List.length_cons] at hsymbol htail ⊢
      omega

end Deflate

end BrainPiet.Png
