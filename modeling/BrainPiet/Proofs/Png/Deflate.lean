import BrainPiet.Proofs.Png.CodesInFront

/-!
# Unpacking undoes packing

Each way to write a block is read again, and the pieces of all blocks are the pieces of the data. So
what was packed is unpacked.
-/

namespace BrainPiet.Png

section Expand

variable {tokens : List Token} {out unpacked : ByteArray}

private theorem copy_spec {distance length : Nat}
    (h : Inflate.copy distance length out = some unpacked) :
    unpacked.size = out.size + length ∧ ∃ added, unpacked = out ++ added := by
  induction length generalizing out with
  | zero =>
    obtain rfl := Option.some.inj h
    exact ⟨rfl, .empty, by simp⟩
  | succ length ih =>
    rw [Inflate.copy] at h
    split at h
    · simp at h
    · obtain ⟨byte, hbyte, hnext⟩ := Option.bind_eq_some_iff.1 h
      obtain ⟨hsize, added, rfl⟩ := ih hnext
      refine ⟨by rw [hsize, ByteArray.size_push]; omega, ⟨#[byte]⟩ ++ added, ?_⟩
      apply ByteArray.ext
      simp

/-- Pieces only add to earlier output. -/
theorem expand_spec (h : expand tokens out = some unpacked) :
    unpacked.size = tokens.foldl (fun size token ↦ size + token.size) out.size ∧
      ∃ added, unpacked = out ++ added := by
  induction tokens generalizing out with
  | nil =>
    obtain rfl := Option.some.inj h
    exact ⟨rfl, .empty, by simp⟩
  | cons token tokens ih =>
    cases token with
    | literal byte =>
      obtain ⟨hsize, added, rfl⟩ := ih h
      refine ⟨by rw [hsize, ByteArray.size_push]; rfl, ⟨#[byte]⟩ ++ added, ?_⟩
      apply ByteArray.ext
      simp
    | copy length distance =>
      obtain ⟨copied, hcopy, hnext⟩ := Option.bind_eq_some_iff.1 h
      obtain ⟨hsize, added, rfl⟩ := ih hnext
      obtain ⟨hcopied, front, rfl⟩ := copy_spec hcopy
      refine ⟨by rw [hsize, hcopied]; rfl, front ++ added, ?_⟩
      rw [ByteArray.append_assoc]

end Expand

namespace Deflate

open BitWriter (fieldBits)

section Fixed

private theorem lengths_fixed : ∀ length ∈ Codes.fixed.literal, length ≠ 0 ∧ length ≤ 9 := by
  intro length h
  simp only [Codes.fixed, Inflate.fixedLengths, List.mem_append, List.mem_replicate] at h
  omega

private theorem distances_fixed : ∀ length ∈ Codes.fixed.distance, length = 5 := by
  intro length h
  exact (List.mem_replicate.1 h).2

private theorem length_fixed : Codes.fixed.literal.length = 288 := by
  simp only [Codes.fixed, Inflate.fixedLengths, List.length_append, List.length_replicate]

private theorem length_distance_fixed : Codes.fixed.distance.length = distanceCount :=
  List.length_replicate

private theorem roomy_fixed : Roomy PrefixCode.maxLength Codes.fixed.literal :=
  ⟨fun length h ↦ (lengths_fixed length h).2.trans (by decide), by decide +kernel⟩

private theorem roomy_distance_fixed : Roomy PrefixCode.maxLength Codes.fixed.distance :=
  ⟨fun length h ↦ (distances_fixed length h).le.trans (by decide), by decide +kernel⟩

private theorem coded_fixed {symbol : Nat} (h : symbol < literalCount) :
    Coded Codes.fixed.literal symbol := by
  have hlt : symbol < Codes.fixed.literal.length :=
    Nat.lt_of_lt_of_le h (by rw [length_fixed]; decide)
  exact ⟨Codes.fixed.literal[symbol], (lengths_fixed _ (List.getElem_mem hlt)).1,
    List.getElem?_eq_getElem hlt⟩

private theorem coded_distance_fixed {kind : Nat} (h : kind < distanceCount) :
    Coded Codes.fixed.distance kind := by
  have hlt : kind < Codes.fixed.distance.length := length_distance_fixed ▸ h
  have hfive := distances_fixed _ (List.getElem_mem hlt)
  exact ⟨Codes.fixed.distance[kind], by omega, List.getElem?_eq_getElem hlt⟩

private theorem serve_fixed {tokens : List Token} (hsound : ∀ token ∈ tokens, token.Sound) :
    Codes.fixed.Serve tokens where
  literal := roomy_fixed
  distance := roomy_distance_fixed
  blockEnd := coded_fixed (by decide)
  symbol := fun token htoken ↦ coded_fixed (Token.Sound.symbol_lt (hsound token htoken))
  kind := fun token htoken kind hkind ↦
    coded_distance_fixed (Token.Sound.kind_lt (hsound token htoken) hkind)

private theorem width_fixed_le (symbol : Nat) :
    (symbolField PrefixCode.maxLength Codes.fixed.literal symbol).width ≤ 9 := by
  by_cases h : symbol < Codes.fixed.literal.length
  · have hlength := lengths_fixed _ (List.getElem_mem h)
    rw [symbolField_eq roomy_fixed.le_longest hlength.1 (List.getElem?_eq_getElem h)]
    exact hlength.2
  · rw [symbolField, Array.getElem?_eq_none (by rw [size_codes]; omega)]
    exact Nat.zero_le _

private theorem width_distance_fixed_le (kind : Nat) :
    (symbolField PrefixCode.maxLength Codes.fixed.distance kind).width ≤ 5 := by
  by_cases h : kind < Codes.fixed.distance.length
  · have hfive := distances_fixed _ (List.getElem_mem h)
    rw [symbolField_eq roomy_distance_fixed.le_longest (by omega) (List.getElem?_eq_getElem h)]
    exact hfive.le
  · rw [symbolField, Array.getElem?_eq_none (by rw [size_codes]; omega)]
    exact Nat.zero_le _

private theorem width_kindOf_le {kinds : Array (Nat × Nat)} {most : Nat}
    (h : ∀ kind ∈ kinds, kind.2 ≤ most) (n : Nat) : (kindOf kinds n).2.width ≤ most := by
  obtain ⟨kind, hkind⟩ : ∃ kind : Nat, (kindOf kinds n).2.width = (kinds[kind]?.getD (0, 0)).2 :=
    ⟨_, rfl⟩
  rw [hkind]
  cases hget : kinds[kind]? with
  | none => exact Nat.zero_le _
  | some found => exact h found (Array.mem_of_getElem? hget)

-- A byte takes at most nine bits, and a copy at most 32 bits for six bytes or more.
private theorem length_fields_fixed_le {token : Token} (h : token.Sound) :
    (fieldBits (token.fields .fixed)).length ≤ 5 * token.size + 4 := by
  cases token with
  | literal byte =>
    rw [Token.fields, length_fieldBits_singleton]
    exact width_fixed_le byte.toNat
  | copy length distance =>
    have hlong : 5 < length := h.1
    have hkind := width_kindOf_le (show ∀ kind ∈ Inflate.lengthKinds, kind.2 ≤ 5 by decide) length
    have hsymbol := width_fixed_le (firstCopy + (kindOf Inflate.lengthKinds length).1)
    have hfar := width_kindOf_le (show ∀ kind ∈ Inflate.distanceKinds, kind.2 ≤ 13 by decide)
      distance
    have hdistance := width_distance_fixed_le (kindOf Inflate.distanceKinds distance).1
    rw [Token.fields, length_fieldBits_cons, length_fieldBits_cons, length_fieldBits_cons,
      length_fieldBits_singleton, Token.size]
    omega

private theorem length_body_fixed_le {tokens : List Token} (hsound : ∀ token ∈ tokens, token.Sound)
    (least : Nat) :
    (fieldBits (tokens.flatMap (Token.fields .fixed) ++
      [symbolField PrefixCode.maxLength Codes.fixed.literal blockEnd])).length + 5 * least ≤
        5 * tokens.foldl (fun size token ↦ size + token.size) least + 4 * tokens.length + 9 := by
  induction tokens generalizing least with
  | nil =>
    have hend := width_fixed_le blockEnd
    rw [List.flatMap_nil, List.nil_append, length_fieldBits_singleton, List.foldl_nil,
      List.length_nil]
    omega
  | cons token tokens ih =>
    have hfirst := length_fields_fixed_le (hsound token List.mem_cons_self)
    have hlater := ih (fun t ht ↦ hsound t (List.mem_cons_of_mem _ ht)) (least + token.size)
    rw [List.flatMap_cons, List.append_assoc, fieldBits_append, List.length_append,
      List.foldl_cons, List.length_cons]
    omega

end Fixed

private theorem totalWidth_eq (fields : List Field) :
    totalWidth fields = (fieldBits fields).length := by
  have hfold : ∀ start, fields.foldl (fun sum field ↦ sum + field.width) start =
      start + (fieldBits fields).length := by
    induction fields with
    | nil => exact fun start ↦ rfl
    | cons field fields ih =>
      intro start
      rw [List.foldl_cons, ih, length_fieldBits_cons, Nat.add_assoc]
  rw [totalWidth, hfold, Nat.zero_add]

private theorem size_lt_of_stored {tokens : Array Token}
    (hsound : ∀ token ∈ tokens.toList, token.Sound) (hlimit : tokens.size ≤ blockLimit)
    {raw : ByteArray} (hraw : raw.size = tokens.toList.foldl (fun size token ↦ size + token.size) 0)
    (h : raw.size + 4 ≤ byteCount (body .fixed tokens)) : raw.size < 65536 := by
  have hbody := length_body_fixed_le hsound 0
  rw [byteCount, totalWidth_eq, body_eq] at h
  have hcount : tokens.toList.length = tokens.size := Array.length_toList
  rw [← hraw] at hbody
  rw [blockLimit] at hlimit
  omega

section Start

variable {w : BitWriter} {kind : Nat}

private theorem start_spec (h : w.Tidy) (hkind : kind < 4) (last : Bool) :
    (start w kind last).Tidy ∧
      (start w kind last).bits = w.bits ++ lowBits 3 (2 * kind + last.toNat) := by
  have hvalue : 2 * kind + (if last then 1 else 0) = 2 * kind + last.toNat := by cases last <;> rfl
  have hlt : 2 * kind + last.toNat < 2 ^ 3 := by cases last <;> simp <;> omega
  rw [start, hvalue]
  exact ⟨h.write hlt, h.bits_write _⟩

private theorem read_start {b : Bits} {more : List Bool} (hkind : kind < 4) (last : Bool)
    (hrest : b.rest = lowBits 3 (2 * kind + last.toNat) ++ more) :
    b.bit? = some (last.toNat, b.skip 1) ∧ (b.skip 1).number? 2 = some (kind, b.skip 3) ∧
      (b.skip 3).rest = more := by
  have hlow : ((2 * kind + last.toNat) % 2 == 1) = last := by cases last <;> simp
  have hhigh : (2 * kind + last.toNat) / 2 = kind := by
    have := Bool.toNat_le last
    omega
  rw [lowBits, hlow, hhigh, List.cons_append] at hrest
  have hnext : (b.skip 1).rest = lowBits 2 kind ++ more := by
    rw [Bits.rest_skip, hrest]
    rfl
  have hlast := Bits.rest_skip_of_eq hnext
  rw [length_lowBits, Bits.skip_skip] at hlast
  exact ⟨Bits.bit?_of_rest hrest, Bits.number?_of_rest hkind hnext, hlast⟩

end Start

section Stored

private theorem lowBits_sixteen {low high : Nat} (hlow : low < 256) :
    lowBits 8 low ++ lowBits 8 high = lowBits 16 (low + high * 2 ^ 8) := by
  have hdiv : (low + high * 2 ^ 8) / 2 ^ 8 = high := by omega
  rw [show 16 = 8 + 8 from rfl, lowBits_add, lowBits_add_mul, hdiv]

private def sizes (size : Nat) : ByteArray :=
  ⟨#[(UInt16.ofNat size).toUInt8, (UInt16.ofNat size >>> 8).toUInt8,
    (~~~UInt16.ofNat size).toUInt8, (~~~UInt16.ofNat size >>> 8).toUInt8]⟩

private theorem bitsOf_sizes {size : Nat} (hsize : size < 65536) :
    ∃ check < 2 ^ 16, bitsOf (sizes size) = lowBits 16 size ++ lowBits 16 check := by
  have hlow : (UInt16.ofNat size).toUInt8.toNat = size % 256 := by simp
  have hhigh : (UInt16.ofNat size >>> 8).toUInt8.toNat = size / 256 := by
    simp [UInt16.toNat_shiftRight, Nat.mod_eq_of_lt hsize, Nat.shiftRight_eq_div_pow]
    omega
  rw [sizes]
  generalize ~~~UInt16.ofNat size = check
  refine ⟨check.toUInt8.toNat + (check >>> 8).toUInt8.toNat * 2 ^ 8, ?_, ?_⟩
  · have := check.toUInt8.toNat_lt
    have := (check >>> 8).toUInt8.toNat_lt
    omega
  · have hsame : size % 256 + size / 256 * 2 ^ 8 = size := by omega
    conv => rhs; rw [← hsame, ← lowBits_sixteen (Nat.mod_lt _ (by decide)), ← hlow, ← hhigh]
    rw [← lowBits_sixteen check.toUInt8.toNat_lt]
    simp [bitsOf]

private theorem stored_of_bits {front raw out : ByteArray} {b : Bits} {more : List Bool}
    (hsize : raw.size < 65536) (hpos : b.align.pos = 8 * front.size)
    (hbits : bitsOf b.data = bitsOf (front ++ (sizes raw.size ++ raw)) ++ more) :
    Inflate.stored out b = some (out ++ raw, ⟨b.data, 8 * (front.size + 4 + raw.size)⟩) := by
  obtain ⟨check, hcheck, hsizes⟩ := bitsOf_sizes hsize
  have halign : b.align = ⟨b.data, 8 * front.size⟩ := by
    rw [← hpos]
    rfl
  obtain ⟨back, hback⟩ := exists_append_of_bitsOf hbits
  have hrest : (⟨b.data, 8 * front.size⟩ : Bits).rest =
      lowBits 16 raw.size ++ (lowBits 16 check ++ (bitsOf raw ++ more)) := by
    rw [Bits.rest, hbits, bitsOf_append, bitsOf_append, hsizes]
    simp only [List.append_assoc]
    rw [List.drop_left' (length_bitsOf front)]
  have hread₁ := Bits.number?_of_rest hsize hrest
  have hrest₁ := Bits.rest_skip_of_eq hrest
  rw [length_lowBits] at hrest₁
  have hread₂ := Bits.number?_of_rest hcheck hrest₁
  have hrest₂ := Bits.rest_skip_of_eq hrest₁
  rw [length_lowBits, Bits.skip_skip] at hrest₂
  have hleft : ¬ ((⟨b.data, 8 * front.size⟩ : Bits).skip (16 + 16)).left < 8 * raw.size := by
    rw [Bits.left_eq, hrest₂, List.length_append, length_bitsOf]
    omega
  have hextract : b.data.extract (front.size + 4) (front.size + 4 + raw.size) = raw := by
    have hfront : front.size + 4 = (front ++ sizes raw.size).size := by
      rw [ByteArray.size_append]
      rfl
    have hsplit : b.data = (front ++ sizes raw.size) ++ (raw ++ back) := by
      rw [hback]
      simp only [ByteArray.append_assoc]
    rw [hsplit, extract_middle hfront rfl]
  have hstart : (8 * front.size + (16 + 16)) / 8 = front.size + 4 := by omega
  simp only [Inflate.stored, halign, hread₁, Option.bind_eq_bind, Option.bind_some, hread₂,
    Bits.skip_skip, if_neg hleft]
  simp only [Bits.skip, hstart, hextract, Option.pure_def]
  congr 3
  omega

end Stored

section Block

/-- From one writer to the next, a block is written that takes the output of the reader further. -/
structure Reads (w w' : BitWriter) (last : Bool) (out unpacked : ByteArray) : Prop where
  tidy : w'.Tidy
  exists_bits : ∃ added, w'.bits = w.bits ++ added ∧ 1 ≤ added.length
  blocks_succ : ∀ (fuel : Nat) (bytes : ByteArray) (more : List Bool),
    bitsOf bytes = w'.bits ++ more →
    Inflate.blocks (fuel + 1) out ⟨bytes, w.bits.length⟩ =
      if last then some unpacked else Inflate.blocks fuel unpacked ⟨bytes, w'.bits.length⟩

variable {w : BitWriter} {last : Bool} {out unpacked : ByteArray}

private theorem reads_of_fields {kind : Nat} {fields : List Field} (hw : w.Tidy) (hkind : kind < 4)
    (hfields : ∀ field ∈ fields, field.value < 2 ^ field.width)
    (hblocks : ∀ (fuel : Nat) (b : Bits) (more : List Bool),
      b.rest = lowBits 3 (2 * kind + last.toNat) ++ (fieldBits fields ++ more) →
      Inflate.blocks (fuel + 1) out b = if last then some unpacked else
        Inflate.blocks fuel unpacked (b.skip (3 + (fieldBits fields).length))) :
    Reads w (fields.foldl BitWriter.write (start w kind last)) last out unpacked := by
  obtain ⟨hstart, hstartBits⟩ := start_spec hw hkind last
  obtain ⟨htidy, hbits⟩ := hstart.writeAll hfields
  rw [hstartBits, List.append_assoc] at hbits
  refine ⟨htidy, ⟨_, hbits, by rw [List.length_append, length_lowBits]; omega⟩, ?_⟩
  intro fuel bytes more hbytes
  have hrest : (⟨bytes, w.bits.length⟩ : Bits).rest =
      lowBits 3 (2 * kind + last.toNat) ++ (fieldBits fields ++ more) := by
    rw [Bits.rest, hbytes, hbits]
    simp only [List.append_assoc]
    exact List.drop_left
  rw [hblocks fuel _ more hrest, hbits]
  simp only [Bits.skip, List.length_append, length_lowBits]

variable {tokens : Array Token}

private theorem coded_body {codes : Codes} (hserve : codes.Serve tokens.toList)
    (hsound : ∀ token ∈ tokens.toList, token.Sound)
    (hexpand : expand tokens.toList out = some unpacked)
    {b : Bits} {more : List Bool} (hrest : b.rest = fieldBits (body codes tokens) ++ more) :
    Inflate.coded (.ofLengths codes.literal) (.ofLengths codes.distance) (b.left + 1) out b =
      some (unpacked, b.skip (fieldBits (body codes tokens)).length) := by
  have hfuel : tokens.toList.length < b.left + 1 := by
    have := hserve.length_lt
    rw [Bits.left_eq, hrest, List.length_append, body_eq]
    omega
  exact hserve.coded_of_rest hsound hexpand hfuel (body_eq codes tokens) hrest

private theorem reads_fixed (hw : w.Tidy) (hsound : ∀ token ∈ tokens.toList, token.Sound)
    (hexpand : expand tokens.toList out = some unpacked) :
    Reads w ((body .fixed tokens).foldl BitWriter.write (start w 1 last)) last out unpacked := by
  have hserve := serve_fixed hsound
  apply reads_of_fields hw (by decide)
  · intro field hfield
    rw [body_eq] at hfield
    exact hserve.value_lt hsound hfield
  · intro fuel b more hrest
    obtain ⟨hbit, hkind, hnext⟩ := read_start (by decide) last hrest
    have hbody := coded_body hserve hsound hexpand hnext
    rw [Bits.skip_skip] at hbody
    rw [Inflate.blocks, hbit]
    simp only [Option.bind_eq_bind, Option.bind_some, hkind]
    rw [show Inflate.fixedLiterals = .ofLengths Codes.fixed.literal from rfl,
      show Inflate.fixedDistances = .ofLengths Codes.fixed.distance from rfl, hbody]
    cases last <;> rfl

private theorem reads_own (hw : w.Tidy) (hsound : ∀ token ∈ tokens.toList, token.Sound)
    (hexpand : expand tokens.toList out = some unpacked) :
    Reads w ((codesInFront (.ofTokens tokens) ++ body (.ofTokens tokens) tokens).foldl
      BitWriter.write (start w 2 last)) last out unpacked := by
  have hserve := serve_ofTokens hsound
  have hgivable := givable_ofTokens tokens
  apply reads_of_fields hw (by decide)
  · intro field hfield
    obtain hfield | hfield := List.mem_append.1 hfield
    · exact hgivable.value_lt hfield
    · rw [body_eq] at hfield
      exact hserve.value_lt hsound hfield
  · intro fuel b more hrest
    obtain ⟨hbit, hkind, hnext⟩ := read_start (by decide) last hrest
    rw [fieldBits_append, List.append_assoc] at hnext
    have hfront := hgivable.givenCodes_of_rest hnext
    have hbody := coded_body hserve hsound hexpand (Bits.rest_skip_of_eq hnext)
    rw [Bits.skip_skip] at hfront hbody
    rw [Bits.skip_skip] at hbody
    rw [Inflate.blocks, hbit]
    simp only [Option.bind_eq_bind, Option.bind_some, hkind, hfront, hbody]
    rw [fieldBits_append, List.length_append, ← Nat.add_assoc]
    cases last <;> rfl

private theorem reads_stored (hw : w.Tidy) {raw : ByteArray} (hsize : raw.size < 65536) :
    Reads w ((start w 0 last).append (sizes raw.size ++ raw)) last out (out ++ raw) := by
  obtain ⟨hstart, hstartBits⟩ := start_spec hw (show 0 < 4 by decide) last
  obtain ⟨zeros, hzeros, hlength⟩ := hstart.bits_align
  generalize hfront : (start w 0 last).align.bytes = front at hzeros
  have hbits : ((start w 0 last).append (sizes raw.size ++ raw)).bits =
      bitsOf (front ++ (sizes raw.size ++ raw)) := by
    rw [BitWriter.bits_append, hfront, bitsOf_append front]
  refine ⟨BitWriter.tidy_append .., ?_, ?_⟩
  · refine ⟨lowBits 3 (2 * 0 + last.toNat) ++ (zeros ++ bitsOf (sizes raw.size ++ raw)), ?_,
      by rw [List.length_append, length_lowBits]; omega⟩
    rw [hbits, bitsOf_append, hzeros, hstartBits]
    simp only [List.append_assoc]
  · intro fuel bytes more hbytes
    rw [hbits] at hbytes
    have hrest : (⟨bytes, w.bits.length⟩ : Bits).rest = lowBits 3 (2 * 0 + last.toNat) ++
        (zeros ++ (bitsOf (sizes raw.size ++ raw) ++ more)) := by
      rw [Bits.rest, hbytes, bitsOf_append, hzeros, hstartBits]
      simp only [List.append_assoc]
      exact List.drop_left
    obtain ⟨hbit, hkind, hnext⟩ := read_start (by decide) last hrest
    -- The reader goes on at the next byte, which is where the writer went on.
    have hpos : ((⟨bytes, w.bits.length⟩ : Bits).skip 3).align.pos = 8 * front.size := by
      have hfrontLength := congrArg List.length hzeros
      have hstartLength := congrArg List.length hstartBits
      rw [length_bitsOf, hlength] at hfrontLength
      rw [List.length_append, length_lowBits] at hstartLength
      rw [hfrontLength, hstartLength]
      rfl
    have hstored := @stored_of_bits front raw out ((⟨bytes, w.bits.length⟩ : Bits).skip 3) more
      hsize hpos hbytes
    have hlast : (bitsOf (front ++ (sizes raw.size ++ raw))).length =
        8 * (front.size + 4 + raw.size) := by
      rw [length_bitsOf, ByteArray.size_append, ByteArray.size_append, ← Nat.add_assoc]
      rfl
    rw [Inflate.blocks, hbit, hbits, hlast]
    simp only [Option.bind_eq_bind, Option.bind_some, hkind, hstored]
    cases last <;> rfl

private theorem foldl_size_eq (tokens : List Token) (size : Nat) :
    tokens.foldl (fun size token ↦ size + token.size) size =
      size + tokens.foldl (fun size token ↦ size + token.size) 0 := by
  induction tokens generalizing size with
  | nil => rfl
  | cons token tokens ih =>
    rw [List.foldl_cons, List.foldl_cons, ih, ih (0 + token.size), Nat.zero_add, Nat.add_assoc]

/-- However a block is written, it is read again. -/
theorem reads_block (hw : w.Tidy) (hsound : ∀ token ∈ tokens.toList, token.Sound)
    (hlimit : tokens.size ≤ blockLimit) {raw : ByteArray}
    (hexpand : expand tokens.toList out = some (out ++ raw)) :
    Reads w (block w tokens raw last) last out (out ++ raw) := by
  have hraw : raw.size = tokens.toList.foldl (fun size token ↦ size + token.size) 0 := by
    have hsize := (expand_spec hexpand).1
    rw [ByteArray.size_append, foldl_size_eq] at hsize
    omega
  rw [block]
  dsimp only
  split
  next hstored =>
    exact reads_stored hw (size_lt_of_stored hsound hlimit hraw
      (hstored.trans (Nat.min_le_right ..)))
  next =>
    split
    · exact reads_fixed hw hsound hexpand
    · exact reads_own hw hsound hexpand

end Block

section Blocks

variable {data : ByteArray} {w : BitWriter}

private theorem extract_of_expand {tokens : List Token} {pos : Nat} {more : List Token}
    (hpos : pos ≤ data.size) (h : expand (tokens ++ more) (data.extract 0 pos) = some data) :
    let next := tokens.foldl (fun size token ↦ size + token.size) pos
    next ≤ data.size ∧ expand tokens (data.extract 0 pos) = some (data.extract 0 next) ∧
      data.extract 0 next = data.extract 0 pos ++ data.extract pos next ∧
      expand more (data.extract 0 next) = some data := by
  rw [expand_append] at h
  obtain ⟨middle, hmiddle, hmore⟩ := Option.bind_eq_some_iff.1 h
  obtain ⟨hsize, front, hfront⟩ := expand_spec hmiddle
  obtain ⟨-, added, hdata⟩ := expand_spec hmore
  have hposSize : (data.extract 0 pos).size = pos := by
    rw [ByteArray.size_extract]
    omega
  rw [hposSize] at hsize
  have hnext : data.extract 0 (tokens.foldl (fun size token ↦ size + token.size) pos) = middle := by
    conv => lhs; rw [hdata]
    exact ByteArray.extract_append_eq_left hsize.symm
  have hle : pos ≤ tokens.foldl (fun size token ↦ size + token.size) pos := by
    have := congrArg ByteArray.size hfront
    rw [ByteArray.size_append, hposSize] at this
    omega
  refine ⟨?_, hnext ▸ hmiddle, ?_, hnext ▸ hmore⟩
  · rw [← hsize, hdata, ByteArray.size_append]
    exact Nat.le_add_right ..
  · exact ByteArray.extract_eq_extract_append_extract pos (Nat.zero_le _) hle

/-- Blocks that are written one after the other are read again. -/
theorem blocks_spec {all : List (Array Token)} {pos : Nat} (hw : w.Tidy) (hall : all ≠ [])
    (hsound : ∀ tokens ∈ all, (∀ token ∈ tokens.toList, token.Sound) ∧ tokens.size ≤ blockLimit)
    (hpos : pos ≤ data.size)
    (hexpand : expand (all.flatMap Array.toList) (data.extract 0 pos) = some data) :
    (blocks data w pos all).Tidy ∧
    (∃ added, (blocks data w pos all).bits = w.bits ++ added ∧ all.length ≤ added.length) ∧
    ∀ (fuel : Nat) (bytes : ByteArray) (more : List Bool), all.length ≤ fuel →
      bitsOf bytes = (blocks data w pos all).bits ++ more →
      Inflate.blocks fuel (data.extract 0 pos) ⟨bytes, w.bits.length⟩ = some data := by
  induction all generalizing w pos with
  | nil => exact absurd rfl hall
  | cons tokens rest ih =>
    rw [List.flatMap_cons] at hexpand
    obtain ⟨hnext, hfirst, hraw, hlater⟩ := extract_of_expand hpos hexpand
    obtain ⟨hsoundFirst, hlimit⟩ := hsound tokens List.mem_cons_self
    rw [hraw] at hfirst
    have hreads : Reads w (block w tokens _ rest.isEmpty) _ _ _ :=
      reads_block hw hsoundFirst hlimit hfirst
    rw [← hraw] at hreads
    obtain ⟨added, hadded, hsome⟩ := hreads.exists_bits
    have hfold : tokens.foldl (fun pos token ↦ pos + token.size) pos =
        tokens.toList.foldl (fun pos token ↦ pos + token.size) pos := by rw [Array.foldl_toList]
    rw [blocks]
    simp only [hfold]
    cases rest with
    | nil =>
      rw [blocks]
      have hdata := Option.some.inj hlater
      refine ⟨hreads.tidy, ⟨added, hadded, hsome⟩, fun fuel bytes more hfuel hbytes ↦ ?_⟩
      obtain ⟨fuel, rfl⟩ := Nat.exists_eq_add_one_of_ne_zero (Nat.ne_of_gt hfuel)
      exact (hreads.blocks_succ fuel bytes more hbytes).trans (congrArg some hdata)
    | cons second rest =>
      obtain ⟨htidy, ⟨addedRest, hrest, hlength⟩, hread⟩ := ih hreads.tidy (List.cons_ne_nil _ _)
        (fun t ht ↦ hsound t (List.mem_cons_of_mem _ ht)) hnext hlater
      refine ⟨htidy, ⟨added ++ addedRest, by rw [hrest, hadded, List.append_assoc], ?_⟩,
        fun fuel bytes more hfuel hbytes ↦ ?_⟩
      · rw [List.length_append, List.length_cons]
        omega
      · obtain ⟨fuel, rfl⟩ := Nat.exists_eq_add_one_of_ne_zero
          (Nat.ne_of_gt (Nat.zero_lt_of_lt hfuel))
        have hlast := hread fuel bytes more (Nat.le_of_succ_le_succ hfuel) hbytes
        rw [hrest, List.append_assoc] at hbytes
        rw [hreads.blocks_succ fuel bytes _ hbytes]
        exact hlast

end Blocks

section Split

private theorem flatMap_extract (tokens : Array Token) (size n : Nat) :
    (List.range n).flatMap (fun k ↦ (tokens.extract (k * size) ((k + 1) * size)).toList) =
      (tokens.extract 0 (n * size)).toList := by
  induction n with
  | zero => simp
  | succ n ih =>
    have hjoin := @Array.extract_append_extract _ tokens 0 (n * size) ((n + 1) * size)
    have hle : n * size ≤ (n + 1) * size := Nat.mul_le_mul_right size (Nat.le_succ n)
    rw [Nat.min_eq_left (Nat.zero_le _), Nat.max_eq_right hle] at hjoin
    rw [List.range_succ, List.flatMap_append, ih, List.flatMap_singleton, ← Array.toList_append,
      hjoin]

private theorem flatMap_parts {tokens : Array Token} {size n : Nat} (h : tokens.size ≤ n * size) :
    ((List.range n).map fun k ↦ tokens.extract (k * size) ((k + 1) * size)).flatMap
      Array.toList = tokens.toList := by
  rw [List.flatMap_map, flatMap_extract, Array.extract_eq_self_of_le h]

private theorem exists_split_eq (tokens : Array Token) :
    ∃ full, tokens.size ≤ (full + 1) * blockLimit ∧
      split tokens = (List.range (full + 1)).map fun k ↦
        tokens.extract (k * blockLimit) ((k + 1) * blockLimit) := by
  have hroom : ∀ n, n ≤ ((n - 1) / blockLimit + 1) * blockLimit := by
    intro n
    rw [blockLimit]
    omega
  have hroom' : ∀ n, n ≤ (n / blockLimit + 1) * blockLimit := by
    intro n
    rw [blockLimit]
    omega
  rw [split]
  split
  · exact ⟨_, hroom tokens.size, rfl⟩
  · exact ⟨_, hroom' tokens.size, rfl⟩

/-- The blocks hold all pieces in order, and none holds too many. -/
theorem split_spec (tokens : Array Token) :
    split tokens ≠ [] ∧ (split tokens).flatMap Array.toList = tokens.toList ∧
      ∀ part ∈ split tokens, (∀ token ∈ part.toList, token ∈ tokens.toList) ∧
        part.size ≤ blockLimit := by
  obtain ⟨full, hfull, hsplit⟩ := exists_split_eq tokens
  rw [hsplit]
  refine ⟨by simp, flatMap_parts hfull, ?_⟩
  intro part hpart
  obtain ⟨k, -, rfl⟩ := List.mem_map.1 hpart
  refine ⟨fun token htoken ↦ ?_, ?_⟩
  · rw [Array.toList_extract] at htoken
    exact List.mem_of_mem_drop (List.mem_of_mem_take (by simpa [List.extract] using htoken))
  · rw [Array.size_extract, Nat.succ_mul]
    exact Nat.sub_le_iff_le_add'.2 (Nat.min_le_left _ _)

end Split

end Deflate

/-- Unpacking undoes packing. -/
theorem inflate?_deflate (data : ByteArray) : inflate? (deflate data) = some data := by
  obtain ⟨hsound, hexpand⟩ := expand_tokens data
  obtain ⟨hne, hjoin, hparts⟩ := Deflate.split_spec (tokens data)
  generalize hw : ({ bytes := ⟨#[0x78, 0x9C]⟩ } : BitWriter) = w
  have htidy : w.Tidy := by
    rw [← hw]
    exact ⟨by decide, by decide⟩
  have hlength : w.bits.length = 16 := by
    rw [← hw]
    rfl
  have hempty : data.extract 0 0 = .empty := by
    apply ByteArray.ext
    rw [ByteArray.data_extract]
    simp
  obtain ⟨hlast, ⟨added, hadded, hcount⟩, hread⟩ := Deflate.blocks_spec htidy hne
    (fun part hpart ↦ ⟨fun token htoken ↦ hsound token ((hparts part hpart).1 token htoken),
      (hparts part hpart).2⟩) (Nat.zero_le data.size) (by rw [hjoin, hempty, hexpand])
  obtain ⟨zeros, hzeros, -⟩ := hlast.bits_align
  have hbits : bitsOf (deflate data) =
      (Deflate.blocks data w 0 (Deflate.split (tokens data))).bits ++
        (zeros ++ bitsOf (word (adler data))) := by
    rw [deflate, hw, bitsOf_append, hzeros, List.append_assoc]
  have hfuel : (Deflate.split (tokens data)).length ≤ (⟨deflate data, 16⟩ : Bits).left + 1 := by
    rw [Bits.left_eq, Bits.rest, hbits, hadded, ← hlength, List.append_assoc, List.drop_left,
      List.length_append]
    omega
  have hblocks := hread _ (deflate data) _ hfuel hbits
  rw [hempty, hlength] at hblocks
  exact hblocks

end BrainPiet.Png
