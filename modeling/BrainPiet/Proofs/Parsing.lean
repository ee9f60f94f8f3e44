import BrainPiet.Proofs.Brackets
import BrainPiet.Proofs.Nesting

/-!
# What is parsed and what is refused

A text is parsed exactly when its brackets balance. Each bracket is then labelled with the number of
pairs around it, its own included. A text that does not balance is refused at the first bracket that
closes nothing, or else at the last bracket that is never closed.

Labels are read off the levels of the brackets. The offset of a refusal comes from the stack of
brackets that are open, and `Pending` is what this stack holds on every way through the text.
-/

namespace BrainPiet

open Brackets

namespace Source

/-- The eight characters that are instructions. -/
def isInstruction (c : Char) : Bool := c ∈ ['+', '-', '>', '<', '[', ']', ',', '.']

/-- The characters of instructions. -/
def chars (code : List Instruction) : List Char := code.map (·.symbol.char)

/-- The instructions are those of the text, in order and with the depths of their loops. -/
structure Labelled (text : List Char) (code : List Instruction) : Prop where
  chars : chars code = text.filter isInstruction
  paired : ∀ (k : Nat), (Source.chars code)[k]? = some '[' ∨ (Source.chars code)[k]? = some ']' →
    ∃! q : Nat × Nat, Pair (Source.chars code) q.1 q.2 ∧ (k = q.1 ∨ k = q.2)
  bracket : ∀ i j, Pair (Source.chars code) i j →
    code[i]? = some ⟨.loopOpen, (enclosing (Source.chars code) i j).card⟩ ∧
      code[j]? = some ⟨.loopClose, (enclosing (Source.chars code) i j).card⟩
  inner : ∀ i j k outer inner, Pair (Source.chars code) i j → i < k → k < j →
    code[i]? = some outer → code[k]? = some inner → ¬inner.symbol.IsAction →
      outer.depth < inner.depth
  action : ∀ i ∈ code, i.symbol.IsAction → i.depth = 0
  deepest : IsGreatest (Set.range (level text)) (maxDepth code)

/-- The text is refused where a bracket closes nothing for the first time, or where the last bracket
stands that is never closed. -/
def Rejected (text : List Char) (fault : Malformed) : Prop :=
  (∃ k, text[k]? = some ']' ∧ level text (k + 1) < 0 ∧ (∀ i ≤ k, 0 ≤ level text i) ∧
    fault = .unmatchedClose k) ∨
  (∀ i, 0 ≤ level text i) ∧ ∃ k, text[k]? = some '[' ∧ (∀ j, ¬Pair text k j) ∧
    (∀ i, k < i → text[i]? = some '[' → ∃ j, Pair text i j) ∧
    fault = .unclosed (level text text.length).toNat k

end Source

namespace Symbol

private theorem char_of_ofChar? {c : Char} {a : Symbol} (h : ofChar? c = some a) : a.char = c := by
  unfold ofChar? at h
  split at h <;> cases h <;> rfl

private theorem isInstruction_char (a : Symbol) : Source.isInstruction a.char = true := by
  cases a <;> decide

private theorem isInstruction_of_none {c : Char} (h : ofChar? c = none) :
    Source.isInstruction c = false := by
  rw [Source.isInstruction, decide_eq_false_iff_not]
  intro hc
  simp only [List.mem_cons, List.not_mem_nil, or_false] at hc
  rcases hc with rfl | rfl | rfl | rfl | rfl | rfl | rfl | rfl <;> cases h

theorem char_eq_open {a : Symbol} : a.char = '[' ↔ a = loopOpen := by cases a <;> decide

private theorem char_eq_close {a : Symbol} : a.char = ']' ↔ a = loopClose := by cases a <;> decide

end Symbol

namespace Source

private theorem getElem?_chars {code : List Instruction} {k : Nat} {c : Char} :
    (chars code)[k]? = some c ↔ ∃ i, code[k]? = some i ∧ i.symbol.char = c := by
  rw [chars, List.getElem?_map, Option.map_eq_some_iff]

/-- Some instruction is as deep as the deepest, unless all have depth zero. -/
theorem exists_maxDepth (code : List Instruction) :
    maxDepth code = 0 ∨ ∃ i ∈ code, i.depth = maxDepth code := by
  rw [maxDepth, List.foldl_max]
  cases hmax : (code.map (·.depth)).max? with
  | none => exact .inl rfl
  | some d =>
    obtain ⟨i, hi, hd⟩ := List.mem_map.mp (List.max?_eq_some_iff.mp hmax).1
    exact .inr ⟨i, hi, by rw [hd, Option.getD_some, Nat.zero_max]⟩

end Source

namespace Brackets

private theorem range_level_filter (text : List Char) :
    Set.range (level (text.filter Source.isInstruction)) = Set.range (level text) := by
  have hlevel {whole part : List Char} (h : part <+: whole) :
      level whole part.length = part.count '[' - part.count ']' := by
    rw [level, ← List.prefix_iff_eq_take.mp h]
  have hcount (part : List Char) : ((part.filter Source.isInstruction).count '[' : Int) -
      (part.filter Source.isInstruction).count ']' = part.count '[' - part.count ']' := by
    rw [List.count_filter rfl, List.count_filter rfl]
  ext n
  constructor
  · rintro ⟨k, rfl⟩
    obtain ⟨part, hpart, heq⟩ := List.prefix_filter_iff.mp
      (List.take_prefix k (text.filter Source.isInstruction))
    exact ⟨part.length, by rw [hlevel hpart, ← hcount, ← heq, level]⟩
  · rintro ⟨k, rfl⟩
    have hpart := (List.take_prefix k text).filter Source.isInstruction
    exact ⟨_, by rw [hlevel hpart, hcount, level]⟩

private theorem balanced_filter (text : List Char) :
    Balanced (text.filter Source.isInstruction) ↔ Balanced text := by
  have hend : level (text.filter Source.isInstruction)
      (text.filter Source.isInstruction).length = level text text.length := by
    rw [level, level, List.take_length, List.take_length, List.count_filter rfl,
      List.count_filter rfl]
  have hrange (other : List Char) :
      (∀ k, 0 ≤ level other k) ↔ ∀ n ∈ Set.range (level other), 0 ≤ n :=
    Set.forall_mem_range.symm
  rw [balanced_iff, balanced_iff, hend, hrange, hrange, range_level_filter]

end Brackets

namespace Nests

variable {n k : Nat} {code : List Instruction} {i : Instruction}

private theorem exists_rest (h : Nests n (i :: code)) :
    ∃ m, Nests m code ∧ ∀ k, n + level (Source.chars (i :: code)) (k + 1) =
      m + level (Source.chars code) k := by
  have hlevel (k : Nat) := level_cons i.symbol.char (Source.chars code) k
  simp only [Symbol.char_eq_open, Symbol.char_eq_close] at hlevel
  obtain ⟨a, d⟩ := i
  dsimp only at hlevel
  rcases a.action_or_bracket with ha | rfl | rfl
  · refine ⟨n, ((cons_action ha).mp h).2, ?_⟩
    intro k
    have hk := hlevel k
    rw [if_neg ha.1, if_neg ha.2, add_zero, sub_zero] at hk
    exact congrArg ((n : Int) + ·) hk
  · refine ⟨n + 1, (cons_open.mp h).2, ?_⟩
    intro k
    have hk := hlevel k
    rw [if_pos rfl, if_neg (by decide), sub_zero] at hk
    rw [Source.chars, List.map_cons, ← Source.chars, hk]
    omega
  · obtain ⟨hpos, -, hrest⟩ := cons_close.mp h
    refine ⟨n - 1, hrest, ?_⟩
    intro k
    have hk := hlevel k
    rw [if_neg (by decide), if_pos rfl, add_zero] at hk
    rw [Source.chars, List.map_cons, ← Source.chars, hk]
    omega

/-- The levels of nested instructions, counted on from the loops around them, never drop below zero
and end at zero. -/
theorem level_spec (h : Nests n code) :
    (∀ k, 0 ≤ n + level (Source.chars code) k) ∧
      n + level (Source.chars code) code.length = 0 := by
  induction code generalizing n with
  | nil =>
    obtain rfl : n = 0 := h
    simp [level, Source.chars]
  | cons i code ih =>
    obtain ⟨m, hm, hshift⟩ := exists_rest h
    obtain ⟨hnonneg, hend⟩ := ih hm
    refine ⟨?_, (hshift _).trans hend⟩
    intro k
    cases k with
    | zero =>
      rw [level_zero]
      omega
    | succ k =>
      rw [hshift]
      exact hnonneg k

/-- The depth of a bracket is the level inside of its loop. -/
theorem depth_spec (h : Nests n code) (hi : code[k]? = some i) :
    (i.symbol = .loopOpen → (i.depth : Int) = n + level (Source.chars code) (k + 1)) ∧
      (i.symbol = .loopClose → (i.depth : Int) = n + level (Source.chars code) k) ∧
      (i.symbol.IsAction → i.depth = 0) := by
  induction code generalizing n k with
  | nil => cases hi
  | cons first code ih =>
    cases k with
    | zero =>
      cases hi
      obtain ⟨a, d⟩ := i
      refine ⟨?_, ?_, ?_⟩
      · rintro rfl
        have hopen : level (Source.chars (⟨.loopOpen, d⟩ :: code)) (0 + 1) = 0 + 1 :=
          level_open rfl
        have hd := (cons_open.mp h).1
        dsimp only
        omega
      · rintro rfl
        obtain ⟨-, hd, -⟩ := cons_close.mp h
        rw [level_zero]
        dsimp only
        omega
      · intro ha
        exact ((cons_action ha).mp h).1
    | succ k =>
      obtain ⟨m, hm, hshift⟩ := exists_rest h
      obtain ⟨hopen, hclose, haction⟩ := ih hm hi
      rw [hshift, hshift]
      exact ⟨hopen, hclose, haction⟩

/-- Nested instructions balance. -/
theorem balanced (h : Nests 0 code) : Balanced (Source.chars code) := by
  obtain ⟨hnonneg, hend⟩ := h.level_spec
  have hlen : (Source.chars code).length = code.length := List.length_map _
  rw [balanced_iff, hlen]
  constructor
  · intro k
    have := hnonneg k
    omega
  · omega

/-- The deepest loop is as deep as the highest level. -/
theorem isGreatest_maxDepth (h : Nests 0 code) :
    IsGreatest (Set.range (level (Source.chars code))) (Source.maxDepth code) := by
  constructor
  · rcases Source.exists_maxDepth code with hzero | ⟨i, hi, hdepth⟩
    · exact ⟨0, by rw [level_zero, hzero]; rfl⟩
    · obtain ⟨k, hk⟩ := List.mem_iff_getElem?.mp hi
      obtain ⟨hopen, hclose, haction⟩ := h.depth_spec hk
      rw [← hdepth]
      rcases i.symbol.action_or_bracket with ha | ha | ha
      · exact ⟨0, by rw [level_zero, haction ha]; rfl⟩
      · exact ⟨k + 1, by rw [hopen ha]; omega⟩
      · exact ⟨k, by rw [hclose ha]; omega⟩
  · rintro _ ⟨k, rfl⟩
    by_contra hlt
    have hpos : 0 < level (Source.chars code) k := by omega
    obtain ⟨j, -, hopen, hlevel, -⟩ := exists_open hpos (Int.le_refl _)
    obtain ⟨i, hi, hchar⟩ := Source.getElem?_chars.mp hopen
    have hdepth := (h.depth_spec hi).1 (Symbol.char_eq_open.mp hchar)
    have hle := depth_le_maxDepth (List.mem_of_getElem? hi)
    rw [level_open hopen] at hdepth
    omega

/-- Both brackets of a pair are labelled with the number of pairs around them. -/
theorem getElem?_pair (h : Nests 0 code) {i j : Nat} (hpair : Pair (Source.chars code) i j) :
    code[i]? = some ⟨.loopOpen, (enclosing (Source.chars code) i j).card⟩ ∧
      code[j]? = some ⟨.loopClose, (enclosing (Source.chars code) i j).card⟩ := by
  have hcard := hpair.card_enclosing h.balanced
  obtain ⟨-, hi, hj, -, hlevel⟩ := pair_iff.mp hpair
  obtain ⟨⟨a, d⟩, ha, hopen⟩ := Source.getElem?_chars.mp hi
  obtain ⟨⟨b, e⟩, hb, hclose⟩ := Source.getElem?_chars.mp hj
  obtain rfl := Symbol.char_eq_open.mp hopen
  obtain rfl := Symbol.char_eq_close.mp hclose
  have hd := (h.depth_spec ha).1 rfl
  have he := (h.depth_spec hb).2.1 rfl
  dsimp only at hd he
  constructor
  · rw [ha, show d = (enclosing (Source.chars code) i j).card by omega]
  · rw [hb, show e = (enclosing (Source.chars code) i j).card by omega]

/-- Brackets inside of a pair are labelled with a larger number. -/
theorem depth_lt_of_inner (h : Nests 0 code) {i j : Nat} {outer inner : Instruction}
    (hpair : Pair (Source.chars code) i j) (hik : i < k) (hkj : k < j)
    (houter : code[i]? = some outer) (hinner : code[k]? = some inner)
    (hbracket : ¬inner.symbol.IsAction) : outer.depth < inner.depth := by
  obtain ⟨-, hi, -, habove, -⟩ := pair_iff.mp hpair
  obtain ⟨i', hi', hopen⟩ := Source.getElem?_chars.mp hi
  rw [houter] at hi'
  cases hi'
  have hd := (h.depth_spec houter).1 (Symbol.char_eq_open.mp hopen)
  obtain ⟨hinnerOpen, hinnerClose, -⟩ := h.depth_spec hinner
  have hk := habove k hik (by omega)
  have hk' := habove (k + 1) (by omega) hkj
  rcases inner.symbol.action_or_bracket with ha | ha | ha
  · exact absurd ha hbracket
  · have he := hinnerOpen ha
    have hlevel := level_open (Source.getElem?_chars.mpr ⟨inner, hinner, by rw [ha]; rfl⟩)
    omega
  · have he := hinnerClose ha
    have hlevel := level_close (Source.getElem?_chars.mpr ⟨inner, hinner, by rw [ha]; rfl⟩)
    omega

end Nests

namespace Source

private theorem error_of_map {f : List Instruction → List Instruction}
    {r : Except Malformed (List Instruction)} {fault : Malformed} (h : r.map f = .error fault) :
    r = .error fault := by
  cases r with
  | error e => exact h
  | ok a => cases h

/-- The instructions that are scanned have the characters of the text, comments left out. -/
theorem chars_of_scan {offset : Nat} {opened : List Nat} {text : List Char}
    {code : List Instruction} (h : scan offset opened text = .ok code) :
    chars code = text.filter isInstruction := by
  induction text generalizing offset opened code with
  | nil =>
    cases opened with
    | nil =>
      cases h
      rfl
    | cons last outer => cases h
  | cons c rest ih =>
    rw [scan_cons] at h
    cases hsymbol : Symbol.ofChar? c with
    | none =>
      rw [hsymbol] at h
      rw [List.filter_cons_of_neg (by simp [Symbol.isInstruction_of_none hsymbol])]
      exact ih h
    | some a =>
      obtain rfl := Symbol.char_of_ofChar? hsymbol
      rw [List.filter_cons_of_pos a.isInstruction_char]
      rw [hsymbol] at h
      cases a with
      | loopOpen =>
        obtain ⟨code', hcode, rfl⟩ := ok_of_map h
        exact congrArg ('[' :: ·) (ih hcode)
      | loopClose =>
        cases opened with
        | nil => cases h
        | cons last outer =>
          obtain ⟨code', hcode, rfl⟩ := ok_of_map h
          exact congrArg (']' :: ·) (ih hcode)
      | _ =>
        obtain ⟨code', hcode, rfl⟩ := ok_of_map h
        exact congrArg (_ :: ·) (ih hcode)

/-- What is parsed is labelled as it should be. -/
theorem labelled_of_parse {text : String} {code : List Instruction} (h : parse text = .ok code) :
    Labelled text.toList code := by
  have hchars := chars_of_scan h
  have hnests := nests_of_parse h
  refine ⟨hchars, fun k hk ↦ hnests.balanced.existsUnique_pair hk,
    fun i j hpair ↦ hnests.getElem?_pair hpair,
    fun i j k outer inner hpair hik hkj houter hinner ↦
      hnests.depth_lt_of_inner hpair hik hkj houter hinner, ?_, ?_⟩
  · intro i hi
    obtain ⟨k, hk⟩ := List.mem_iff_getElem?.mp hi
    exact (hnests.depth_spec hk).2.2
  · rw [← range_level_filter, ← hchars]
    exact hnests.isGreatest_maxDepth

/-- The stack of open brackets behind the characters that were read. Each of its entries is the
place of an opening bracket; the level there is the number of entries below, and has stayed above
since. -/
structure Pending (done : List Char) (opened : List Nat) : Prop where
  nonneg : ∀ k, 0 ≤ level done k
  height : level done done.length = opened.length
  place : ∀ last outer, last :: outer <:+ opened → done[last]? = some '[' ∧
    level done last = outer.length ∧
      ∀ k, last < k → k ≤ done.length → outer.length < level done k

private theorem pending_nil : Pending [] [] := by
  refine ⟨?_, rfl, ?_⟩
  · intro k
    simp [level]
  · intro last outer h
    cases List.suffix_nil.mp h

namespace Pending

variable {done : List Char} {opened outer : List Nat} {last : Nat} {c : Char}

private theorem level_snoc (done : List Char) (c : Char) :
    level (done ++ [c]) (done.length + 1) = level done done.length +
      (if c = '[' then 1 else 0) - if c = ']' then 1 else 0 := by
  rw [level_succ, level_append_left [c] (Nat.le_refl _), List.getElem?_concat_length]
  simp only [Option.some.injEq]

private theorem nonneg_snoc (h : Pending done opened)
    (hend : 0 ≤ level (done ++ [c]) (done.length + 1)) (k : Nat) : 0 ≤ level (done ++ [c]) k := by
  have hlen : (done ++ [c]).length = done.length + 1 := List.length_append
  rcases Nat.lt_or_ge done.length k with hk | hk
  · rw [level_of_length_le (hlen ▸ hk), hlen]
    exact hend
  · rw [level_append_left [c] hk]
    exact h.nonneg k

private theorem place_snoc (h : Pending done opened) (hs : last :: outer <:+ opened)
    (hend : outer.length < level (done ++ [c]) (done.length + 1)) :
    (done ++ [c])[last]? = some '[' ∧ level (done ++ [c]) last = outer.length ∧
      ∀ k, last < k → k ≤ (done ++ [c]).length → outer.length < level (done ++ [c]) k := by
  obtain ⟨hplace, hlevel, habove⟩ := h.place last outer hs
  have hlt := (List.getElem?_eq_some_iff.mp hplace).1
  refine ⟨?_, ?_, ?_⟩
  · rw [List.getElem?_append_left hlt, hplace]
  · rw [level_append_left [c] (by omega), hlevel]
  · intro k hlast hk
    rw [List.length_append, List.length_singleton] at hk
    rcases Nat.lt_or_eq_of_le hk with hk | rfl
    · rw [level_append_left [c] (by omega)]
      exact habove k hlast (by omega)
    · exact hend

/-- Any other character leaves the stack alone. -/
theorem skip (h : Pending done opened) (ho : c ≠ '[') (hc : c ≠ ']') :
    Pending (done ++ [c]) opened := by
  have hend := level_snoc done c
  rw [if_neg ho, if_neg hc, add_zero, sub_zero, h.height] at hend
  refine ⟨h.nonneg_snoc (by omega), ?_, ?_⟩
  · rw [List.length_append, List.length_singleton, hend]
  · intro last outer hs
    have hlen := hs.length_le
    rw [List.length_cons] at hlen
    exact h.place_snoc hs (by omega)

/-- An opening bracket is put on the stack. -/
theorem push (h : Pending done opened) : Pending (done ++ ['[']) (done.length :: opened) := by
  have hend := level_snoc done '['
  rw [if_pos rfl, if_neg (by decide), sub_zero, h.height] at hend
  refine ⟨h.nonneg_snoc (by omega), ?_, ?_⟩
  · rw [List.length_append, List.length_singleton, hend, List.length_cons]
    rfl
  · intro last outer hs
    rcases List.suffix_cons_iff.mp hs with heq | hs
    · cases heq
      refine ⟨List.getElem?_concat_length, ?_, ?_⟩
      · rw [level_append_left _ (Nat.le_refl _), h.height]
      · intro k hlast hk
        rw [List.length_append, List.length_singleton] at hk
        rw [show k = done.length + 1 by omega, hend]
        omega
    · have hlen := hs.length_le
      rw [List.length_cons] at hlen
      exact h.place_snoc hs (by omega)

/-- A closing bracket takes the last entry off the stack. -/
theorem pop (h : Pending done (last :: outer)) : Pending (done ++ [']']) outer := by
  have hend := level_snoc done ']'
  rw [if_neg (by decide), if_pos rfl, add_zero, h.height, List.length_cons] at hend
  refine ⟨h.nonneg_snoc (by omega), ?_, ?_⟩
  · rw [List.length_append, List.length_singleton, hend]
    omega
  · intro last' outer' hs
    have hlen := hs.length_le
    rw [List.length_cons] at hlen
    exact h.place_snoc (hs.trans (List.suffix_cons _ _)) (by omega)

private theorem rejected_close (h : Pending done []) (rest : List Char) :
    Rejected (done ++ ']' :: rest) (.unmatchedClose done.length) := by
  have hlevel {k : Nat} (hk : k ≤ done.length) : level (done ++ ']' :: rest) k = level done k :=
    level_append_left _ hk
  have hclose : (done ++ ']' :: rest)[done.length]? = some ']' := by simp
  refine .inl ⟨done.length, hclose, ?_, ?_, rfl⟩
  · rw [level_close hclose, hlevel (Nat.le_refl _), h.height]
    decide
  · intro i hi
    rw [hlevel hi]
    exact h.nonneg i

private theorem rejected_end (h : Pending done (last :: outer)) :
    Rejected done (.unclosed (outer.length + 1) last) := by
  have hheight := h.height
  rw [List.length_cons] at hheight
  obtain ⟨hplace, hbelow, habove⟩ := h.place last outer List.suffix_rfl
  refine .inr ⟨h.nonneg, last, hplace, ?_, ?_, ?_⟩
  · intro j hpair
    have hbehind := hpair.level_behind
    have hlevel := habove (j + 1) (Nat.lt_succ_of_lt hpair.1) hpair.lt_length
    rw [level_open hplace] at hbehind
    omega
  · intro i hi hopen
    have hlen := (List.getElem?_eq_some_iff.mp hopen).1
    have hlevel := habove i hi (by omega)
    apply exists_pair_of_open hopen hlen
    rw [level_open hopen, hheight]
    omega
  · rw [hheight]
    rfl

end Pending

/-- A text is refused for the reason that the stack of open brackets gives. -/
theorem rejected_of_scan {done rest : List Char} {opened : List Nat} {fault : Malformed}
    (hdone : Pending done opened) (h : scan done.length opened rest = .error fault) :
    Rejected (done ++ rest) fault := by
  induction rest generalizing done opened with
  | nil =>
    rw [List.append_nil]
    cases opened with
    | nil => cases h
    | cons last outer =>
      cases h
      exact hdone.rejected_end
  | cons c rest ih =>
    have hlen : (done ++ [c]).length = done.length + 1 := List.length_append
    rw [scan_cons, ← hlen] at h
    rw [List.append_cons]
    cases hsymbol : Symbol.ofChar? c with
    | none =>
      rw [hsymbol] at h
      refine ih (hdone.skip ?_ ?_) h
      · rintro rfl
        cases hsymbol
      · rintro rfl
        cases hsymbol
    | some a =>
      obtain rfl := Symbol.char_of_ofChar? hsymbol
      rw [hsymbol] at h
      cases a with
      | loopOpen => exact ih hdone.push (error_of_map h)
      | loopClose =>
        cases opened with
        | nil =>
          cases h
          rw [← List.append_cons]
          exact hdone.rejected_close rest
        | cons last outer => exact ih hdone.pop (error_of_map h)
      | _ => exact ih (hdone.skip (by decide) (by decide)) (error_of_map h)

/-- A text that is refused does not balance. -/
theorem Rejected.not_balanced {text : List Char} {fault : Malformed} (h : Rejected text fault) :
    ¬Balanced text := by
  intro hbalanced
  rcases h with ⟨k, -, hneg, -⟩ | ⟨-, k, hopen, hpair, -⟩
  · have := (balanced_iff.mp hbalanced).1 (k + 1)
    omega
  · obtain ⟨⟨i, j⟩, ⟨hij, hk⟩, -⟩ := hbalanced.existsUnique_pair (.inl hopen)
    dsimp only at hij hk
    rcases hk with rfl | rfl
    · exact hpair j hij
    · exact absurd (hopen.symm.trans hij.2.2.1) (by decide)

end Source

/-- A text is parsed exactly when its brackets balance. The instructions are then those of the text,
and the brackets of each pair carry the number of pairs around them. Otherwise the text is refused
at the first bracket that closes nothing, or at the last one that is never closed. -/
theorem parse_labels_pairs (text : String) :
    ((∃ code, Source.parse text = .ok code) ↔ Balanced text.toList) ∧
    (∀ code, Source.parse text = .ok code → Source.Labelled text.toList code) ∧
    ∀ fault, Source.parse text = .error fault → Source.Rejected text.toList fault := by
  have hrejected (fault : Malformed) (h : Source.parse text = .error fault) :
      Source.Rejected text.toList fault := Source.rejected_of_scan Source.pending_nil h
  refine ⟨?_, fun code h ↦ Source.labelled_of_parse h, hrejected⟩
  constructor
  · rintro ⟨code, h⟩
    rw [← balanced_filter, ← Source.chars_of_scan h]
    exact (nests_of_parse h).balanced
  · intro hbalanced
    cases hparse : Source.parse text with
    | ok code => exact ⟨code, rfl⟩
    | error fault => exact absurd hbalanced (hrejected fault hparse).not_balanced

/-- Comments between brackets, a bracket that is never closed in front of a pair, and a bracket that
closes nothing behind one. -/
theorem parse_labels_pairs_comments :
    Balanced "a[b[+]]".toList ∧ (∃ code, Source.parse "a[b[+]]" = .ok code ∧
      Source.Labelled "a[b[+]]".toList code ∧ code[0]? = some ⟨.loopOpen, 1⟩ ∧
        code[1]? = some ⟨.loopOpen, 2⟩) ∧
    Source.parse "x[+[]" = .error (.unclosed 1 1) ∧
    Source.Rejected "x[+[]".toList (.unclosed 1 1) ∧
    Source.parse "+[]]" = .error (.unmatchedClose 3) ∧
    Source.Rejected "+[]]".toList (.unmatchedClose 3) := by
  have hnested : Source.parse "a[b[+]]" = .ok [⟨.loopOpen, 1⟩, ⟨.loopOpen, 2⟩, ⟨.increment, 0⟩,
    ⟨.loopClose, 2⟩, ⟨.loopClose, 1⟩] := by rfl
  have hunclosed : Source.parse "x[+[]" = .error (.unclosed 1 1) := by rfl
  have hunmatched : Source.parse "+[]]" = .error (.unmatchedClose 3) := by rfl
  obtain ⟨hbalanced, hlabelled, -⟩ := parse_labels_pairs "a[b[+]]"
  obtain ⟨-, -, hunclosed'⟩ := parse_labels_pairs "x[+[]"
  obtain ⟨-, -, hunmatched'⟩ := parse_labels_pairs "+[]]"
  exact ⟨hbalanced.mp ⟨_, hnested⟩, ⟨_, hnested, hlabelled _ hnested, rfl, rfl⟩, hunclosed,
    hunclosed' _ hunclosed, hunmatched, hunmatched' _ hunmatched⟩

end BrainPiet
