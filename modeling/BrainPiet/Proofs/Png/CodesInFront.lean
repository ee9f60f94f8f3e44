import BrainPiet.Proofs.Png.Body
import BrainPiet.Proofs.Png.CodeLength
import Mathlib.Data.List.SplitBy

/-!
# The codes in front of a block

The codes that are made for a block have a code for each symbol in it. Their lengths are given in
front of the block in pieces, with a code of their own, and reading these gives the lengths again.
-/

namespace BrainPiet.Png.Deflate

open BitWriter (fieldBits)

section OfTokens

private def tally (size : Nat) (symbols : List Nat) : Array Nat :=
  symbols.foldl (fun counts symbol ↦ counts.modify symbol (· + 1)) (Array.replicate size 0)

section Tally

variable {longest size symbol : Nat} {symbols lengths : List Nat}

private theorem size_foldl_modify (places : List Nat) (counts : Array Nat) :
    (places.foldl (fun counts place ↦ counts.modify place (· + 1)) counts).size = counts.size := by
  induction places generalizing counts with
  | nil => rfl
  | cons place places ih => rw [List.foldl_cons, ih, Array.size_modify]

private theorem size_tally : (tally size symbols).size = size := by
  rw [tally, size_foldl_modify, Array.size_replicate]

private theorem getElem?_tally (h : symbol < size) :
    (tally size symbols)[symbol]? = some (symbols.count symbol) := by
  rw [tally, getElem?_foldl_modify, Array.getElem?_replicate, if_pos h, Option.map_some,
    Nat.zero_add]

private theorem covers_tally (hlongest : 1 ≤ longest) (hleast : 3 ≤ size)
    (hmost : size ≤ 2 ^ longest) :
    Covers longest (tally size symbols) (codeLengths longest (tally size symbols)) :=
  covers_codeLengths hlongest (size_tally.symm ▸ hleast) (size_tally.symm ▸ hmost)

private theorem coded_of_mem (h : Covers longest (tally size symbols) lengths)
    (hlt : symbol < size) (hmem : symbol ∈ symbols) : Coded lengths symbol :=
  h.exists_length symbol _ (getElem?_tally hlt) (Nat.ne_of_gt (List.count_pos_iff.2 hmem))

end Tally

variable {tokens : Array Token}

-- The tallies of both kinds of symbols are made in one pass.
private theorem foldl_count_pair {step : Array Nat × Array Nat → Token → Array Nat × Array Nat}
    (hliteral : ∀ counts byte, step counts (.literal byte) =
      (counts.1.modify (Token.literal byte).symbol (· + 1), counts.2))
    (hcopy : ∀ counts length distance, step counts (.copy length distance) =
      (counts.1.modify (Token.copy length distance).symbol (· + 1),
        counts.2.modify (kindOf Inflate.distanceKinds distance).1 (· + 1)))
    (tokens : List Token) (counts : Array Nat × Array Nat) :
    tokens.foldl step counts =
      ((tokens.map Token.symbol).foldl (fun counts place ↦ counts.modify place (· + 1)) counts.1,
        (tokens.filterMap Token.distanceKind?).foldl (fun counts place ↦
          counts.modify place (· + 1)) counts.2) := by
  induction tokens generalizing counts with
  | nil => rfl
  | cons token tokens ih =>
    rw [List.foldl_cons, ih]
    cases token with
    | literal byte => rw [hliteral]; rfl
    | copy length distance => rw [hcopy]; rfl

private def literalSymbols (tokens : Array Token) : List Nat :=
  blockEnd :: tokens.toList.map Token.symbol

private def distanceSymbols (tokens : Array Token) : List Nat :=
  tokens.toList.filterMap Token.distanceKind?

private theorem ofTokens_eq (tokens : Array Token) :
    Codes.ofTokens tokens =
      ⟨codeLengths PrefixCode.maxLength (tally literalCount (literalSymbols tokens)),
        codeLengths PrefixCode.maxLength (tally distanceCount (distanceSymbols tokens))⟩ := by
  have hcounts := fun step hliteral hcopy ↦ @foldl_count_pair step hliteral hcopy tokens.toList
    ((Array.replicate literalCount 0).modify blockEnd (· + 1), Array.replicate distanceCount 0)
  rw [Codes.ofTokens, ← Array.foldl_toList, tally, tally, literalSymbols, distanceSymbols,
    List.foldl_cons]
  dsimp only
  rw [hcounts _ (fun _ _ ↦ rfl) (fun _ _ _ ↦ rfl)]

private theorem covers_literal (tokens : Array Token) :
    Covers PrefixCode.maxLength (tally literalCount (literalSymbols tokens))
      (Codes.ofTokens tokens).literal := by
  have hcodes := congrArg Codes.literal (ofTokens_eq tokens)
  dsimp only at hcodes
  rw [hcodes]
  exact covers_tally (by decide) (by decide) (by decide)

private theorem covers_distance (tokens : Array Token) :
    Covers PrefixCode.maxLength (tally distanceCount (distanceSymbols tokens))
      (Codes.ofTokens tokens).distance := by
  have hcodes := congrArg Codes.distance (ofTokens_eq tokens)
  dsimp only at hcodes
  rw [hcodes]
  exact covers_tally (by decide) (by decide) (by decide)

private theorem coded_blockEnd (tokens : Array Token) :
    Coded (Codes.ofTokens tokens).literal blockEnd :=
  coded_of_mem (covers_literal tokens) (by decide) List.mem_cons_self

/-- The codes that are made for pieces serve them. -/
theorem serve_ofTokens (hsound : ∀ token ∈ tokens.toList, token.Sound) :
    (Codes.ofTokens tokens).Serve tokens.toList where
  literal := (covers_literal tokens).roomy
  distance := (covers_distance tokens).roomy
  blockEnd := coded_blockEnd tokens
  symbol := fun token htoken ↦ coded_of_mem (covers_literal tokens)
    (Token.Sound.symbol_lt (hsound token htoken))
    (List.mem_cons_of_mem _ (List.mem_map_of_mem htoken))
  kind := fun token htoken _ hkind ↦ coded_of_mem (covers_distance tokens)
    (Token.Sound.kind_lt (hsound token htoken) hkind)
    (List.mem_filterMap.2 ⟨token, htoken, hkind⟩)

private theorem length_ofTokens (tokens : Array Token) :
    (257 ≤ (Codes.ofTokens tokens).literal.length ∧
      (Codes.ofTokens tokens).literal.length ≤ 286) ∧
    1 ≤ (Codes.ofTokens tokens).distance.length ∧
      (Codes.ofTokens tokens).distance.length ≤ 30 := by
  have hliteral := (covers_literal tokens).length_le
  have hdistance := (covers_distance tokens).length_le
  rw [size_tally] at hliteral hdistance
  obtain ⟨width, -, hget⟩ := coded_blockEnd tokens
  have hend : blockEnd < (Codes.ofTokens tokens).literal.length :=
    (List.getElem?_eq_some_iff.1 hget).1
  exact ⟨⟨hend, hliteral⟩, List.length_pos_iff.2 (covers_distance tokens).length_pos, hdistance⟩

end OfTokens

section Pieces

/-- How many bits say how long a run is. -/
def runWidth : (symbol : Nat) → Nat
  | 16 => 2
  | 17 => 3
  | 18 => 7
  | _ => 0

/-- A piece with the field that its symbol has. -/
structure LengthPiece.Sound (piece : LengthPiece) : Prop where
  symbol_lt : piece.1 < 19
  width_eq : piece.2.width = runWidth piece.1
  value_lt : piece.2.value < 2 ^ piece.2.width

/-- What a piece adds to lengths, the last first. -/
def LengthPiece.unroll (done : List Nat) : LengthPiece → Option (List Nat)
  | (16, more) => done.head?.map fun last ↦ List.replicate (3 + more.value) last ++ done
  | (17, more) => some (List.replicate (3 + more.value) 0 ++ done)
  | (18, more) => some (List.replicate (11 + more.value) 0 ++ done)
  | (length, _) => some (length :: done)

/-- What pieces add to lengths, the last first. -/
def unroll (pieces : List LengthPiece) (done : List Nat) : Option (List Nat) :=
  pieces.foldlM LengthPiece.unroll done

private theorem unroll_append {a b : List LengthPiece} {done middle : List Nat}
    (h : unroll a done = some middle) : unroll (a ++ b) done = unroll b middle := by
  rw [unroll, List.foldlM_append]
  exact congrArg (· >>= _) h

private theorem replicate_join {a k full n : Nat} (h : k + full = n) (done : List Nat) :
    List.replicate k a ++ (List.replicate full a ++ done) = List.replicate n a ++ done := by
  rw [← List.append_assoc, List.replicate_append_replicate, h]

private theorem unroll_replicate {piece : LengthPiece} {length size : Nat} {done : List Nat}
    (h : ∀ full, piece.unroll (List.replicate full length ++ done) =
      some (List.replicate size length ++ (List.replicate full length ++ done))) (k : Nat) :
    unroll (List.replicate k piece) done = some (List.replicate (size * k) length ++ done) := by
  induction k with
  | zero => rfl
  | succ k ih =>
    have hlast : unroll [piece] (List.replicate (size * k) length ++ done) =
        some (List.replicate (size * (k + 1)) length ++ done) := by
      have hsize : size + size * k = size * (k + 1) := by rw [Nat.mul_succ, Nat.add_comm]
      rw [unroll, List.foldlM_cons, h, replicate_join hsize]
      rfl
    rw [List.replicate_succ', unroll_append ih, hlast]

private theorem unroll_plain {symbol : Nat} (h : symbol < 16) (field : Field) (done : List Nat) :
    LengthPiece.unroll done (symbol, field) = some (symbol :: done) := by
  rw [LengthPiece.unroll] <;> omega

private theorem unroll_singles (k : Nat) {length : Nat} (h : length < 16) (done : List Nat) :
    unroll (List.replicate k (length, ⟨0, 0⟩)) done = some (List.replicate k length ++ done) := by
  have hall := @unroll_replicate (length, ⟨0, 0⟩) length 1 done
    (fun full ↦ unroll_plain h ⟨0, 0⟩ _) k
  rwa [Nat.one_mul] at hall

private theorem unroll_zeroRun (n : Nat) (done : List Nat) :
    unroll (zeroRun n) done = some (List.replicate n 0 ++ done) := by
  have hmore : n - 138 * ((n - 1) / 138) + 138 * ((n - 1) / 138) = n := by omega
  rw [zeroRun, unroll_append (@unroll_replicate (18, ⟨127, 7⟩) 0 138 done (fun _ ↦ rfl) _)]
  generalize n - 138 * ((n - 1) / 138) = more at hmore
  split
  next hlong =>
    have hsize : 11 + (more - 11) + 138 * ((n - 1) / 138) = n := by omega
    exact congrArg some (replicate_join hsize done)
  next =>
    split
    next hlong =>
      have hsize : 3 + (more - 3) + 138 * ((n - 1) / 138) = n := by omega
      exact congrArg some (replicate_join hsize done)
    next => rw [unroll_singles _ (by omega), replicate_join hmore]

private theorem unroll_repeatRun (n : Nat) {length : Nat} (h : length < 16) (done : List Nat) :
    unroll (repeatRun length n) (length :: done) =
      some (List.replicate n length ++ length :: done) := by
  have hmore : n - 6 * ((n - 1) / 6) + 6 * ((n - 1) / 6) = n := by omega
  have hrepeat (full : Nat) (field : Field) :
      LengthPiece.unroll (List.replicate full length ++ length :: done) (16, field) =
        some (List.replicate (3 + field.value) length ++
          (List.replicate full length ++ length :: done)) := by
    cases full <;> rfl
  rw [repeatRun,
    unroll_append (@unroll_replicate (16, ⟨3, 2⟩) length 6 _ (fun full ↦ hrepeat full ⟨3, 2⟩) _)]
  generalize n - 6 * ((n - 1) / 6) = more at hmore
  split
  next hlong =>
    have hsize : 3 + (more - 3) + 6 * ((n - 1) / 6) = n := by omega
    rw [unroll, List.foldlM_cons, hrepeat]
    exact congrArg some (replicate_join hsize _)
  next => rw [unroll_singles _ h, replicate_join hmore]

private theorem eq_replicate_of_isChain {first : Nat} {more : List Nat}
    (h : (first :: more).IsChain fun a b ↦ a == b) : more = List.replicate more.length first := by
  induction more generalizing first with
  | nil => rfl
  | cons second more ih =>
    rw [List.isChain_cons_cons] at h
    obtain rfl : first = second := by simpa using h.1
    rw [List.length_cons, List.replicate_succ, ← ih h.2]

private def runPieces (run : List Nat) : List LengthPiece :=
  match run with
  | [] => []
  | 0 :: _ => zeroRun run.length
  | length :: more => (length, ⟨0, 0⟩) :: repeatRun length more.length

private theorem unroll_runPieces {run : List Nat} (hrun : run.IsChain fun a b ↦ a == b)
    (hle : ∀ length ∈ run, length < 16) (done : List Nat) :
    unroll (runPieces run) done = some (run.reverse ++ done) := by
  fun_cases runPieces run with
  | case1 => rfl
  | case2 more =>
    have hmore := eq_replicate_of_isChain hrun
    rw [unroll_zeroRun, hmore, ← List.replicate_succ, List.reverse_replicate, List.length_replicate]
  | case3 length more hne =>
    have hmore := eq_replicate_of_isChain hrun
    have hlength : length < 16 := hle length List.mem_cons_self
    have hfirst : unroll [(length, ⟨0, 0⟩)] done = some (length :: done) :=
      unroll_singles 1 hlength done
    rw [← List.singleton_append, unroll_append hfirst,
      unroll_repeatRun _ hlength, List.reverse_cons, List.append_assoc]
    conv => rhs; rw [hmore, List.reverse_replicate]
    rfl

private theorem unroll_lengthPieces {lengths : List Nat} (hle : ∀ length ∈ lengths, length < 16)
    (done : List Nat) : unroll (lengthPieces lengths) done = some (lengths.reverse ++ done) := by
  have hruns : ∀ runs : List (List Nat), (∀ run ∈ runs, run.IsChain fun a b ↦ a == b) →
      (∀ run ∈ runs, ∀ length ∈ run, length < 16) → ∀ done,
      unroll (runs.flatMap runPieces) done = some (runs.flatten.reverse ++ done) := by
    intro runs hchain hle
    induction runs with
    | nil => exact fun done ↦ rfl
    | cons run runs ih =>
      intro done
      have hfirst := unroll_runPieces (hchain run List.mem_cons_self)
        (hle run List.mem_cons_self) done
      rw [List.flatMap_cons, unroll_append hfirst,
        ih (fun r hr ↦ hchain r (List.mem_cons_of_mem _ hr))
          (fun r hr ↦ hle r (List.mem_cons_of_mem _ hr)),
        List.flatten_cons, List.reverse_append, List.append_assoc]
  have hflatten := List.flatten_splitBy (· == ·) lengths
  have hall := hruns (lengths.splitBy (· == ·)) (fun run hrun ↦ List.isChain_of_mem_splitBy hrun)
    (fun run hrun length hlength ↦
      hle length (hflatten ▸ List.mem_flatten_of_mem hrun hlength)) done
  rw [hflatten] at hall
  exact hall

private theorem sound_single {length : Nat} (h : length < 16) :
    LengthPiece.Sound (length, ⟨0, 0⟩) := by
  refine ⟨Nat.lt_trans h (by decide), ?_, Nat.one_pos⟩
  show 0 = runWidth length
  rw [runWidth] <;> omega

private theorem sound_zeroRun (n : Nat) : ∀ piece ∈ zeroRun n, LengthPiece.Sound piece := by
  have hmore : n - 138 * ((n - 1) / 138) ≤ 138 := by omega
  intro piece hpiece
  rw [zeroRun, List.mem_append] at hpiece
  obtain hfull | hlast := hpiece
  · obtain rfl := (List.mem_replicate.1 hfull).2
    exact ⟨by decide, rfl, by decide⟩
  · split at hlast
    · obtain rfl := List.mem_singleton.1 hlast
      exact ⟨show 18 < 19 by decide, rfl, show _ - 11 < 128 by omega⟩
    · split at hlast
      · obtain rfl := List.mem_singleton.1 hlast
        exact ⟨show 17 < 19 by decide, rfl, show _ - 3 < 8 by omega⟩
      · obtain rfl := (List.mem_replicate.1 hlast).2
        exact sound_single (by omega)

private theorem sound_repeatRun {length : Nat} (h : length < 16) (n : Nat) :
    ∀ piece ∈ repeatRun length n, LengthPiece.Sound piece := by
  have hmore : n - 6 * ((n - 1) / 6) ≤ 6 := by omega
  intro piece hpiece
  rw [repeatRun, List.mem_append] at hpiece
  obtain hfull | hlast := hpiece
  · obtain rfl := (List.mem_replicate.1 hfull).2
    exact ⟨by decide, rfl, by decide⟩
  · split at hlast
    · obtain rfl := List.mem_singleton.1 hlast
      exact ⟨show 16 < 19 by decide, rfl, show _ - 3 < 4 by omega⟩
    · obtain rfl := (List.mem_replicate.1 hlast).2
      exact sound_single h

private theorem sound_lengthPieces {lengths : List Nat} (hle : ∀ length ∈ lengths, length < 16) :
    ∀ piece ∈ lengthPieces lengths, LengthPiece.Sound piece := by
  intro piece hpiece
  obtain ⟨run, hrun, hpiece⟩ := List.mem_flatMap.1 hpiece
  have hflatten := List.flatten_splitBy (· == ·) lengths
  have hrunLe : ∀ length ∈ run, length < 16 := fun length hlength ↦
    hle length (hflatten ▸ List.mem_flatten_of_mem hrun hlength)
  replace hpiece : piece ∈ runPieces run := hpiece
  revert hpiece
  fun_cases runPieces run with
  | case1 => exact fun h ↦ absurd h List.not_mem_nil
  | case2 more => exact fun h ↦ sound_zeroRun _ piece h
  | case3 length more hne =>
    intro h
    have hlength : length < 16 := hrunLe length List.mem_cons_self
    obtain rfl | h := List.mem_cons.1 h
    · exact sound_single hlength
    · exact sound_repeatRun hlength _ piece h

end Pieces

section Reading

variable {code : PrefixCode} {n fuel : Nat} {done middle : List Nat} {b : Bits} {more : List Bool}

private theorem length_lt_of_unroll {piece : LengthPiece} (hsound : piece.Sound)
    (h : piece.unroll done = some middle) : done.length < middle.length := by
  obtain ⟨symbol, field⟩ := piece
  have hlt : symbol < 19 := hsound.symbol_lt
  obtain rfl | rfl | rfl | hplain :
    symbol = 16 ∨ symbol = 17 ∨ symbol = 18 ∨ symbol < 16 := by omega
  · obtain ⟨last, -, rfl⟩ := Option.map_eq_some_iff.1 h
    rw [List.length_append, List.length_replicate]
    omega
  · obtain rfl := Option.some.inj h
    rw [List.length_append, List.length_replicate]
    omega
  · obtain rfl := Option.some.inj h
    rw [List.length_append, List.length_replicate]
    omega
  · obtain rfl := Option.some.inj ((unroll_plain hplain field done).symm.trans h)
    exact Nat.lt_succ_self _

-- One round of the reader: the symbol of a piece, and the bits that say how long its run is.
private theorem codeLengths_succ {piece : LengthPiece} {width : Nat} (hsound : piece.Sound)
    (hshort : ¬ n ≤ done.length) (hsymbol : code.symbol? b = some (piece.1, b.skip width))
    (hrest : (b.skip width).rest = lowBits piece.2.width piece.2.value ++ more)
    (hunroll : piece.unroll done = some middle) :
    Inflate.codeLengths code n (fuel + 1) done b =
      Inflate.codeLengths code n fuel middle (b.skip (width + piece.2.width)) := by
  have hnumber := Bits.number?_of_rest hsound.value_lt hrest
  rw [hsound.width_eq, Bits.skip_skip] at hnumber
  rw [hsound.width_eq, Inflate.codeLengths, if_neg hshort, hsymbol]
  obtain ⟨symbol, field⟩ := piece
  have hlt : symbol < 19 := hsound.symbol_lt
  simp only [Option.bind_eq_bind, Option.bind_some] at hnumber ⊢
  obtain rfl | rfl | rfl | hplain :
    symbol = 16 ∨ symbol = 17 ∨ symbol = 18 ∨ symbol < 16 := by omega
  · obtain ⟨last, hlast, rfl⟩ := Option.map_eq_some_iff.1 hunroll
    simp only [runWidth] at hnumber ⊢
    simp only [hnumber, hlast, Option.bind_some]
  · obtain rfl := Option.some.inj hunroll
    simp only [runWidth] at hnumber ⊢
    simp only [hnumber, Option.bind_some]
  · obtain rfl := Option.some.inj hunroll
    simp only [runWidth] at hnumber ⊢
    simp only [hnumber, Option.bind_some]
  · obtain rfl := Option.some.inj ((unroll_plain hplain field done).symm.trans hunroll)
    have hwidth : runWidth symbol = 0 := by rw [runWidth] <;> omega
    rw [hwidth]
    split
    · omega
    · omega
    · omega
    · rfl

/-- The fields of pieces, given the field of each symbol. -/
def pieceFields (symbolField : Nat → Field) (pieces : List LengthPiece) : List Field :=
  pieces.flatMap fun piece ↦ [symbolField piece.1, piece.2]

private theorem pieceFields_cons (symbolField : Nat → Field) (piece : LengthPiece)
    (pieces : List LengthPiece) :
    pieceFields symbolField (piece :: pieces) =
      symbolField piece.1 :: piece.2 :: pieceFields symbolField pieces := rfl

private theorem length_le_of_unroll {pieces : List LengthPiece} {final : List Nat}
    (hsound : ∀ piece ∈ pieces, LengthPiece.Sound piece) (h : unroll pieces done = some final) :
    done.length ≤ final.length := by
  induction pieces generalizing done with
  | nil => rw [Option.some.inj h]
  | cons piece pieces ih =>
    obtain ⟨middle, hmiddle, hfinal⟩ := Option.bind_eq_some_iff.1 h
    have hlt := length_lt_of_unroll (hsound piece List.mem_cons_self) hmiddle
    exact (Nat.le_of_lt hlt).trans (ih (fun p hp ↦ hsound p (List.mem_cons_of_mem _ hp)) hfinal)

/-- Reading pieces gives the lengths that they stand for. -/
theorem codeLengths_of_rest {pieces : List LengthPiece} {symbolField : Nat → Field}
    {final : List Nat} (hsound : ∀ piece ∈ pieces, LengthPiece.Sound piece)
    (hcode : ∀ piece ∈ pieces, ∀ (b : Bits) (more : List Bool),
      b.rest = lowBits (symbolField piece.1).width (symbolField piece.1).value ++ more →
        code.symbol? b = some (piece.1, b.skip (symbolField piece.1).width))
    (hunroll : unroll pieces done = some final) (hfuel : pieces.length < fuel)
    (hrest : b.rest = fieldBits (pieceFields symbolField pieces) ++ more) :
    Inflate.codeLengths code final.length fuel done b =
      some (final.reverse, b.skip (fieldBits (pieceFields symbolField pieces)).length) := by
  obtain ⟨fuel, rfl⟩ := Nat.exists_eq_add_one_of_ne_zero (Nat.ne_of_gt (Nat.zero_lt_of_lt hfuel))
  induction pieces generalizing done fuel b with
  | nil =>
    obtain rfl : done = final := Option.some.inj hunroll
    rw [Inflate.codeLengths, if_pos (Nat.le_refl _)]
    rfl
  | cons piece pieces ih =>
    have hsound' : ∀ p ∈ pieces, LengthPiece.Sound p := fun p hp ↦
      hsound p (List.mem_cons_of_mem _ hp)
    obtain ⟨fuel, rfl⟩ := Nat.exists_eq_add_one_of_ne_zero
      (show fuel ≠ 0 by rintro rfl; simp at hfuel)
    obtain ⟨middle, hmiddle, hfinal⟩ := Option.bind_eq_some_iff.1 hunroll
    rw [pieceFields_cons] at hrest ⊢
    obtain ⟨hfront, hnext⟩ := rest_skip_field hrest
    obtain ⟨hrun, hlast⟩ := rest_skip_field hnext
    have hshort : ¬ final.length ≤ done.length := Nat.not_le.2
      (Nat.lt_of_lt_of_le (length_lt_of_unroll (hsound piece List.mem_cons_self) hmiddle)
        (length_le_of_unroll hsound' hfinal))
    have hsymbol := hcode piece List.mem_cons_self b _ hfront
    rw [codeLengths_succ (hsound piece List.mem_cons_self) hshort hsymbol hrun hmiddle]
    rw [Bits.skip_skip] at hlast
    rw [ih hsound' (fun p hp ↦ hcode p (List.mem_cons_of_mem _ hp)) hfinal hlast fuel
      (Nat.lt_of_succ_lt_succ hfuel), Bits.skip_skip, length_fieldBits_cons, length_fieldBits_cons,
      Nat.add_assoc]

end Reading

section Given

variable {b : Bits} {more : List Bool}

private theorem numbers_of_rest {width : Nat} {values : List Nat}
    (hlt : ∀ value ∈ values, value < 2 ^ width)
    (hrest : b.rest = fieldBits (values.map (⟨·, width⟩)) ++ more) :
    Inflate.numbers width values.length b =
      some (values, b.skip (fieldBits (values.map (⟨·, width⟩))).length) := by
  induction values generalizing b with
  | nil => rfl
  | cons value values ih =>
    obtain ⟨hfront, hnext⟩ := rest_skip_field hrest
    have hread := Bits.number?_of_rest (hlt value List.mem_cons_self) hfront
    have hlater := ih (fun v hv ↦ hlt v (List.mem_cons_of_mem _ hv)) hnext
    simp only [List.length_cons, Inflate.numbers, hread, hlater, Option.bind_eq_bind,
      Option.bind_some, Bits.skip_skip, List.map_cons, length_fieldBits_cons]
    rfl

private theorem exists_zeros (values : List Nat) :
    ∃ k, values = List.replicate k 0 ++ values.dropWhile (· = 0) := by
  induction values with
  | nil => exact ⟨0, rfl⟩
  | cons value values ih =>
    by_cases h : value = 0
    · obtain ⟨k, hk⟩ := ih
      refine ⟨k + 1, ?_⟩
      rw [List.dropWhile_cons_of_pos (by simpa using h), List.replicate_succ, List.cons_append,
        ← hk, h]
    · exact ⟨0, by rw [List.dropWhile_cons_of_neg (by simpa using h)]; rfl⟩

private theorem lookup_zip_zeros (keys : List Nat) (k symbol : Nat) :
    ((keys.zip (List.replicate k 0)).lookup symbol).getD 0 = 0 := by
  induction keys generalizing k with
  | nil => simp
  | cons key keys ih =>
    cases k with
    | zero => simp
    | succ k =>
      rw [List.replicate_succ, List.zip_cons_cons, List.lookup_cons]
      split
      · rfl
      · exact ih k

private theorem lookup_zip_append_zeros (keys values : List Nat) (k symbol : Nat) :
    ((keys.zip (values ++ List.replicate k 0)).lookup symbol).getD 0 =
      ((keys.zip values).lookup symbol).getD 0 := by
  induction keys generalizing values with
  | nil => simp
  | cons key keys ih =>
    cases values with
    | nil => simpa using lookup_zip_zeros (key :: keys) k symbol
    | cons value values =>
      rw [List.cons_append, List.zip_cons_cons, List.zip_cons_cons, List.lookup_cons,
        List.lookup_cons]
      split
      · rfl
      · exact ih values

private theorem lookup_zip_map {keys : List Nat} (value : Nat → Nat) {symbol : Nat}
    (h : symbol ∈ keys) : (keys.zip (keys.map value)).lookup symbol = some (value symbol) := by
  induction keys with
  | nil => exact absurd h List.not_mem_nil
  | cons key keys ih =>
    rw [List.map_cons, List.zip_cons_cons, List.lookup_cons]
    by_cases heq : symbol = key
    · simp [heq]
    · have hne : (symbol == key) = false := by simpa using heq
      rw [hne]
      exact ih ((List.mem_cons.1 h).resolve_left heq)

end Given

section Padded

variable {longest : Nat} {lengths : List Nat} (k : Nat)

private theorem count_append_zeros {n : Nat} (hn : n ≠ 0) :
    (lengths ++ List.replicate k 0).count n = lengths.count n := by
  rw [List.count_append, List.count_replicate]
  simp [Ne.symm hn]

private theorem kraft_append_zeros (width : Nat) :
    kraft (lengths ++ List.replicate k 0) width = kraft lengths width :=
  kraft_congr fun n hn _ ↦ count_append_zeros k (by omega)

private theorem codeOf_append_zeros {symbol width : Nat} (h : symbol < lengths.length) :
    codeOf (lengths ++ List.replicate k 0) symbol width = codeOf lengths symbol width := by
  rw [codeOf, codeOf, List.take_append_of_le_length h.le]
  cases width with
  | zero => rfl
  | succ width => rw [firstOf, firstOf, kraft_append_zeros]

private theorem roomy_append_zeros (h : Roomy longest lengths) :
    Roomy longest (lengths ++ List.replicate k 0) := by
  refine ⟨fun length hmem ↦ ?_, by rw [kraft_append_zeros]; exact h.kraft_le⟩
  obtain hmem | hmem := List.mem_append.1 hmem
  · exact h.le_longest length hmem
  · rw [(List.mem_replicate.1 hmem).2]
    exact Nat.zero_le _

private theorem symbolField_append_zeros (h : Roomy longest lengths) {symbol : Nat}
    (hcoded : Coded lengths symbol) :
    Coded (lengths ++ List.replicate k 0) symbol ∧
      symbolField longest (lengths ++ List.replicate k 0) symbol =
        symbolField longest lengths symbol := by
  obtain ⟨width, hwidth, hget⟩ := hcoded
  have hlt := (List.getElem?_eq_some_iff.1 hget).1
  have hget' : (lengths ++ List.replicate k 0)[symbol]? = some width := by
    rw [List.getElem?_append_left hlt, hget]
  refine ⟨⟨width, hwidth, hget'⟩, ?_⟩
  rw [symbolField_eq (roomy_append_zeros k h).le_longest hwidth hget',
    symbolField_eq h.le_longest hwidth hget, codeOf_append_zeros k hlt]

end Padded

section Front

variable {codes : Codes}

private def pieces (codes : Codes) : List LengthPiece :=
  lengthPieces codes.literal ++ lengthPieces codes.distance

private def pieceTally (codes : Codes) : Array Nat :=
  (pieces codes).foldl (fun (counts : Array Nat) (symbol, _) ↦ counts.modify symbol (· + 1))
    (Array.replicate Inflate.lengthOrder.length 0)

private def frontLengths (codes : Codes) : List Nat := codeLengths 7 (pieceTally codes)

private def allGiven (codes : Codes) : List Nat :=
  Inflate.lengthOrder.map fun symbol ↦ (frontLengths codes)[symbol]?.getD 0

private def given (codes : Codes) : List Nat :=
  (allGiven codes).take 4 ++ (((allGiven codes).drop 4).reverse.dropWhile (· = 0)).reverse

private theorem codesInFront_eq (codes : Codes) :
    codesInFront codes = ⟨codes.literal.length - 257, 5⟩ :: ⟨codes.distance.length - 1, 5⟩ ::
      ⟨(given codes).length - 4, 4⟩ :: ((given codes).map (⟨·, 3⟩) ++
        pieceFields (symbolField 7 (frontLengths codes)) (pieces codes)) := by
  rw [codesInFront, given, allGiven, frontLengths, pieceTally, pieces]
  dsimp only
  rw [List.cons_append, List.cons_append, List.cons_append, pieceFields]
  simp only [symbolField]

private theorem pieceTally_eq : pieceTally codes = tally 19 ((pieces codes).map (·.1)) := by
  rw [pieceTally, tally, List.foldl_map]
  rfl

private theorem covers_frontLengths :
    Covers 7 (tally 19 ((pieces codes).map (·.1))) (frontLengths codes) := by
  rw [frontLengths, pieceTally_eq]
  exact covers_tally (by decide) (by decide) (by decide)

private theorem exists_allGiven :
    ∃ k, allGiven codes = given codes ++ List.replicate k 0 := by
  obtain ⟨k, hk⟩ := exists_zeros ((allGiven codes).drop 4).reverse
  have hdrop := congrArg List.reverse hk
  rw [List.reverse_reverse, List.reverse_append, List.reverse_replicate] at hdrop
  refine ⟨k, ?_⟩
  rw [given, List.append_assoc, ← hdrop, List.take_append_drop]

private theorem length_allGiven : (allGiven codes).length = 19 := by
  rw [allGiven, List.length_map]
  rfl

private theorem length_given : 4 ≤ (given codes).length ∧ (given codes).length ≤ 19 := by
  obtain ⟨k, hk⟩ := @exists_allGiven codes
  have hlength := congrArg List.length hk
  rw [length_allGiven, List.length_append, List.length_replicate] at hlength
  refine ⟨?_, by omega⟩
  rw [given, List.length_append, List.length_take, length_allGiven]
  omega

private theorem lt_of_mem_given {length : Nat} (h : length ∈ given codes) : length < 2 ^ 3 := by
  obtain ⟨k, hk⟩ := @exists_allGiven codes
  have hmem : length ∈ allGiven codes := hk ▸ List.mem_append_left _ h
  obtain ⟨symbol, -, rfl⟩ := List.mem_map.1 hmem
  cases hget : (frontLengths codes)[symbol]? with
  | none => exact Nat.two_pow_pos 3
  | some width =>
    have := covers_frontLengths.roomy.le_longest width (List.mem_of_getElem? hget)
    show width < 8
    omega

-- The reader puts the given lengths back in order, with zeros for those that were left out.
private theorem map_lookup_given :
    ((List.range 19).map fun symbol ↦
      ((Inflate.lengthOrder.zip (given codes)).lookup symbol).getD 0) =
      frontLengths codes ++ List.replicate (19 - (frontLengths codes).length) 0 := by
  obtain ⟨k, hk⟩ := @exists_allGiven codes
  have hlookup : ∀ symbol < 19,
      ((Inflate.lengthOrder.zip (given codes)).lookup symbol).getD 0 =
        (frontLengths codes)[symbol]?.getD 0 := by
    intro symbol hsymbol
    have hmem : symbol ∈ Inflate.lengthOrder := by
      revert symbol
      decide
    rw [← lookup_zip_append_zeros _ _ k, ← hk, allGiven, lookup_zip_map _ hmem, Option.getD_some]
  have hlength := (@covers_frontLengths codes).length_le
  rw [size_tally] at hlength
  apply List.ext_getElem?
  intro symbol
  by_cases hsymbol : symbol < 19
  · rw [List.getElem?_map, List.getElem?_range hsymbol, Option.map_some, hlookup symbol hsymbol]
    by_cases hin : symbol < (frontLengths codes).length
    · rw [List.getElem?_append_left hin, List.getElem?_eq_getElem hin, Option.getD_some]
    · rw [List.getElem?_append_right (by omega), List.getElem?_replicate, if_pos (by omega),
        List.getElem?_eq_none (by omega), Option.getD_none]
  · rw [List.getElem?_eq_none (by simp; omega), List.getElem?_eq_none]
    rw [List.length_append, List.length_replicate]
    omega

private theorem coded_of_mem_pieces (hsound : ∀ piece ∈ pieces codes, LengthPiece.Sound piece)
    {piece : LengthPiece} (h : piece ∈ pieces codes) : Coded (frontLengths codes) piece.1 :=
  coded_of_mem covers_frontLengths (hsound piece h).symbol_lt (List.mem_map_of_mem h)

private theorem length_le_pieceFields {symbolField : Nat → Field} {pieces : List LengthPiece}
    (h : ∀ piece ∈ pieces, 1 ≤ (symbolField piece.1).width) :
    pieces.length ≤ (fieldBits (pieceFields symbolField pieces)).length := by
  induction pieces with
  | nil => exact Nat.zero_le _
  | cons piece pieces ih =>
    have hfirst := h piece List.mem_cons_self
    have hlater := ih fun p hp ↦ h p (List.mem_cons_of_mem _ hp)
    rw [pieceFields_cons, length_fieldBits_cons, length_fieldBits_cons, List.length_cons]
    omega

/-- Lengths that can be given in front of a block. -/
structure Codes.Givable (codes : Codes) : Prop where
  literal_lt : ∀ length ∈ codes.literal, length < 16
  distance_lt : ∀ length ∈ codes.distance, length < 16
  length_literal : 257 ≤ codes.literal.length ∧ codes.literal.length ≤ 286
  length_distance : 1 ≤ codes.distance.length ∧ codes.distance.length ≤ 30

theorem givable_ofTokens (tokens : Array Token) : (Codes.ofTokens tokens).Givable := by
  obtain ⟨hliteral, hdistance⟩ := length_ofTokens tokens
  exact ⟨fun l hl ↦ Nat.lt_succ_of_le ((covers_literal tokens).roomy.le_longest l hl),
    fun l hl ↦ Nat.lt_succ_of_le ((covers_distance tokens).roomy.le_longest l hl), hliteral, hdistance⟩

namespace Codes.Givable

variable (h : codes.Givable)

include h

private theorem sound_pieces : ∀ piece ∈ pieces codes, LengthPiece.Sound piece := by
  intro piece hpiece
  obtain hpiece | hpiece := List.mem_append.1 hpiece
  · exact sound_lengthPieces h.literal_lt piece hpiece
  · exact sound_lengthPieces h.distance_lt piece hpiece

private theorem unroll_pieces :
    unroll (pieces codes) [] = some (codes.literal ++ codes.distance).reverse := by
  rw [pieces, unroll_append (unroll_lengthPieces h.literal_lt []),
    unroll_lengthPieces h.distance_lt, List.append_nil, List.reverse_append]

/-- Each field in front of a block has room for its value. -/
theorem value_lt {field : Field} (hfield : field ∈ codesInFront codes) :
    field.value < 2 ^ field.width := by
  have hliteral := h.length_literal
  have hdistance := h.length_distance
  have hgiven := @length_given codes
  rw [codesInFront_eq] at hfield
  simp only [List.mem_cons, List.mem_append, List.mem_map] at hfield
  obtain rfl | rfl | rfl | ⟨length, hlength, rfl⟩ | hfield := hfield
  · show codes.literal.length - 257 < 2 ^ 5
    omega
  · show codes.distance.length - 1 < 2 ^ 5
    omega
  · show (given codes).length - 4 < 2 ^ 4
    omega
  · exact lt_of_mem_given hlength
  · obtain ⟨piece, hpiece, hfield⟩ := List.mem_flatMap.1 hfield
    have hcoded := coded_of_mem_pieces h.sound_pieces hpiece
    simp only [List.mem_cons, List.not_mem_nil, or_false] at hfield
    obtain hfield | hfield := hfield
    · rw [hfield]
      exact hcoded.value_lt covers_frontLengths.roomy.le_longest
    · rw [hfield]
      exact (h.sound_pieces piece hpiece).value_lt

/-- Reading the codes in front of a block gives these codes. -/
theorem givenCodes_of_rest {b : Bits} {more : List Bool}
    (hrest : b.rest = fieldBits (codesInFront codes) ++ more) :
    Inflate.givenCodes b = some (.ofLengths codes.literal, .ofLengths codes.distance,
      b.skip (fieldBits (codesInFront codes)).length) := by
  have hliteral := h.length_literal
  have hdistance := h.length_distance
  have hgiven := @length_given codes
  have hroomy := (@covers_frontLengths codes).roomy
  rw [codesInFront_eq] at hrest ⊢
  obtain ⟨hfront₁, hrest₁⟩ := rest_skip_field hrest
  obtain ⟨hfront₂, hrest₂⟩ := rest_skip_field hrest₁
  obtain ⟨hfront₃, hrest₃⟩ := rest_skip_field hrest₂
  simp only [Bits.skip_skip] at hrest₂ hfront₃ hrest₃
  have hread₁ := Bits.number?_of_rest (show codes.literal.length - 257 < 2 ^ 5 by omega) hfront₁
  have hread₂ := Bits.number?_of_rest (show codes.distance.length - 1 < 2 ^ 5 by omega) hfront₂
  have hread₃ := Bits.number?_of_rest (show (given codes).length - 4 < 2 ^ 4 by omega) hfront₃
  rw [fieldBits_append, List.append_assoc] at hrest₃
  have hread₄ := numbers_of_rest (fun value hvalue ↦ lt_of_mem_given hvalue) hrest₃
  have hrest₄ := Bits.rest_skip_of_eq hrest₃
  simp only [Bits.skip_skip] at hread₂ hread₃ hread₄ hrest₄
  generalize hpos : 5 + 5 + 4 + (fieldBits ((given codes).map (⟨·, 3⟩))).length = pos at hread₄ hrest₄
  -- The reader has the lengths of the codes for lengths, with zeros behind them.
  have hcode : ∀ piece ∈ pieces codes, ∀ (b : Bits) (more : List Bool),
      b.rest = lowBits (symbolField 7 (frontLengths codes) piece.1).width
        (symbolField 7 (frontLengths codes) piece.1).value ++ more →
      (PrefixCode.ofLengths (frontLengths codes ++
        List.replicate (19 - (frontLengths codes).length) 0)).symbol? b =
          some (piece.1, b.skip (symbolField 7 (frontLengths codes) piece.1).width) := by
    intro piece hpiece b more hrest
    obtain ⟨hcoded, hfield⟩ := symbolField_append_zeros (19 - (frontLengths codes).length) hroomy
      (coded_of_mem_pieces h.sound_pieces hpiece)
    rw [← hfield] at hrest ⊢
    exact hcoded.symbol?_of_rest (roomy_append_zeros _ hroomy) (by decide) hrest
  have hfuel : (pieces codes).length < (b.skip pos).left + 1 := by
    have := @length_le_pieceFields _ (pieces codes) fun piece hpiece ↦
      (coded_of_mem_pieces h.sound_pieces hpiece).width_pos hroomy.le_longest
    rw [Bits.left_eq, hrest₄, List.length_append]
    omega
  have hread₅ := codeLengths_of_rest h.sound_pieces hcode h.unroll_pieces hfuel hrest₄
  have htotal : codes.literal.length - 257 + 257 + (codes.distance.length - 1 + 1) =
      (codes.literal ++ codes.distance).reverse.length := by
    rw [List.length_reverse, List.length_append]
    omega
  have hcount : (given codes).length - 4 + 4 = (given codes).length := by omega
  have hall : codes.literal.length - 257 + 257 = codes.literal.length := by omega
  simp only [Inflate.givenCodes, hread₁, hread₂, hread₃, hcount, hread₄, Option.bind_eq_bind,
    Option.bind_some, map_lookup_given, htotal, hread₅, List.reverse_reverse]
  rw [hall, List.take_left, List.drop_left]
  simp only [Option.pure_def, Bits.skip_skip, length_fieldBits_cons, fieldBits_append,
    List.length_append, ← hpos, Nat.add_assoc]

end Codes.Givable

end Front

end BrainPiet.Png.Deflate
