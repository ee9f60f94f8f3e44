import Mathlib.Data.Finset.Prod
import Mathlib.Order.Interval.Finset.Nat

/-!
# Brackets in a text

The level of a place in a text is how many brackets are open there. A text is balanced when its
level never drops below zero and is zero in the end, and two brackets are a pair when the text
between them is balanced. All that is known of pairs is read off the levels: from a bracket to its
partner the level stays where it was, and behind the partner it is lower. So each level that is open
at a place of a balanced text belongs to one pair around that place.
-/

namespace BrainPiet.Brackets

/-- How many brackets are open behind some characters of a text; below zero if more were closed. -/
def level (text : List Char) (k : Nat) : Int :=
  (text.take k).count '[' - (text.take k).count ']'

/-- No beginning of the text closes more brackets than it opens, and the text closes as many. -/
def Balanced (text : List Char) : Prop :=
  (∀ k ≤ text.length, 0 ≤ level text k) ∧ level text text.length = 0

instance (text : List Char) : Decidable (Balanced text) := inferInstanceAs (Decidable (_ ∧ _))

/-- An opening and a closing bracket belong together: the text between them is balanced. -/
def Pair (text : List Char) (i j : Nat) : Prop :=
  i < j ∧ text[i]? = some '[' ∧ text[j]? = some ']' ∧ Balanced ((text.take j).drop (i + 1))

instance (text : List Char) (i j : Nat) : Decidable (Pair text i j) :=
  inferInstanceAs (Decidable (_ ∧ _))

/-- The pairs around two places, or at these places. -/
def enclosing (text : List Char) (i j : Nat) : Finset (Nat × Nat) :=
  {q ∈ Finset.range text.length ×ˢ Finset.range text.length |
    Pair text q.1 q.2 ∧ q.1 ≤ i ∧ j ≤ q.2}

variable {text : List Char} {i j k : Nat}

@[simp] theorem level_zero (text : List Char) : level text 0 = 0 := by simp [level]

/-- One character changes the level by one at most. -/
theorem level_succ (text : List Char) (k : Nat) :
    level text (k + 1) = level text k + (if text[k]? = some '[' then 1 else 0) -
      if text[k]? = some ']' then 1 else 0 := by
  simp only [level, List.take_add_one, List.count_append]
  cases text[k]? with
  | none => simp
  | some c =>
    simp only [Option.toList_some, List.count_singleton, beq_iff_eq, Option.some.injEq]
    split_ifs <;> omega

theorem level_open (h : text[k]? = some '[') : level text (k + 1) = level text k + 1 := by
  rw [level_succ, h]
  simp

theorem level_close (h : text[k]? = some ']') : level text (k + 1) = level text k - 1 := by
  rw [level_succ, h]
  simp

/-- The first character shifts all levels behind it. -/
theorem level_cons (c : Char) (text : List Char) (k : Nat) :
    level (c :: text) (k + 1) = level text k + (if c = '[' then 1 else 0) -
      if c = ']' then 1 else 0 := by
  simp only [level, List.take_succ_cons, List.count_cons, beq_iff_eq]
  split_ifs <;> omega

/-- Behind its end a text keeps its level. -/
theorem level_of_length_le (h : text.length ≤ k) : level text k = level text text.length := by
  rw [level, level, List.take_of_length_le h, List.take_length]

/-- What stands behind a place does not matter for its level. -/
theorem level_append_left (more : List Char) (h : k ≤ text.length) :
    level (text ++ more) k = level text k := by
  rw [level, level, List.take_append_of_le_length h]

private theorem level_part (h : i + k ≤ j) :
    level ((text.take j).drop i) k = level text (i + k) - level text i := by
  have hpart : ((text.take j).drop i).take k = (text.drop i).take k := by
    rw [List.drop_take, List.take_take, Nat.min_eq_left (by omega)]
  simp only [level, hpart, List.take_add, List.count_append]
  omega

/-- The balance of a text, for all places instead of those inside of it. -/
theorem balanced_iff :
    Balanced text ↔ (∀ k, 0 ≤ level text k) ∧ level text text.length = 0 := by
  constructor
  · rintro ⟨hnonneg, hend⟩
    refine ⟨?_, hend⟩
    intro k
    rcases Nat.le_total k text.length with hk | hk
    · exact hnonneg k hk
    · rw [level_of_length_le hk, hend]
  · rintro ⟨hnonneg, hend⟩
    exact ⟨fun k _ ↦ hnonneg k, hend⟩

/-- A pair in terms of levels. -/
theorem pair_iff : Pair text i j ↔ i < j ∧ text[i]? = some '[' ∧ text[j]? = some ']' ∧
    (∀ k, i < k → k ≤ j → level text (i + 1) ≤ level text k) ∧
      level text j = level text (i + 1) := by
  refine and_congr_right fun hij ↦ and_congr_right fun _ ↦ and_congr_right fun hj ↦ ?_
  have hjlt : j < text.length := (List.getElem?_eq_some_iff.mp hj).1
  have hlen : ((text.take j).drop (i + 1)).length = j - (i + 1) := by
    rw [List.length_drop, List.length_take, Nat.min_eq_left (by omega)]
  have hpart (k : Nat) (hk : i + 1 + k ≤ j) : level ((text.take j).drop (i + 1)) k =
      level text (i + 1 + k) - level text (i + 1) := level_part hk
  rw [Balanced, hlen, hpart (j - (i + 1)) (by omega), Nat.add_sub_cancel' hij, sub_eq_zero]
  refine and_congr_left fun _ ↦ ?_
  constructor
  · intro h k hk hkj
    have hlevel := h (k - (i + 1)) (by omega)
    rw [hpart _ (by omega), Nat.add_sub_cancel' hk] at hlevel
    omega
  · intro h k hk
    have hlevel := h (i + 1 + k) (by omega) (by omega)
    rw [hpart _ (by omega)]
    omega

/-- A level that is open at a place was opened before it, and has not been closed since. -/
theorem exists_open {n : Int} (hn : 0 < n) (hk : n ≤ level text k) :
    ∃ i < k, text[i]? = some '[' ∧ level text i = n - 1 ∧
      ∀ t, i < t → t ≤ k → n ≤ level text t := by
  induction k with
  | zero =>
    rw [level_zero] at hk
    omega
  | succ k ih =>
    by_cases hlow : n ≤ level text k
    · obtain ⟨i, hi, hopen, hlevel, habove⟩ := ih hlow
      refine ⟨i, by omega, hopen, hlevel, ?_⟩
      intro t ht htk
      rcases Nat.lt_or_eq_of_le htk with htk | rfl
      · exact habove t ht (by omega)
      · exact hk
    · have hsucc := level_succ text k
      have hopen : text[k]? = some '[' := by
        by_contra hne
        rw [if_neg hne] at hsucc
        split at hsucc <;> omega
      refine ⟨k, by omega, hopen, ?_, ?_⟩
      · rw [level_open hopen] at hk
        omega
      · intro t ht htk
        rwa [show t = k + 1 by omega]

/-- A level that is open at a place, and no longer at a later one, is closed between them. -/
theorem exists_close {n : Int} {stop : Nat} (hk : n ≤ level text k) (hstop : level text stop < n)
    (hle : k ≤ stop) :
    ∃ j, k ≤ j ∧ j < stop ∧ text[j]? = some ']' ∧ level text j = n ∧
      ∀ t, k ≤ t → t ≤ j → n ≤ level text t := by
  obtain ⟨d, rfl⟩ := Nat.exists_eq_add_of_le hle
  induction d generalizing k with
  | zero => exact absurd hstop (by simpa using hk)
  | succ d ih =>
    by_cases hnext : n ≤ level text (k + 1)
    · rw [← Nat.succ_add_eq_add_succ] at hstop ⊢
      obtain ⟨j, hkj, hj, hclose, hlevel, habove⟩ := ih hnext hstop (Nat.le_add_right _ _)
      refine ⟨j, by omega, hj, hclose, hlevel, ?_⟩
      intro t ht htj
      rcases Nat.eq_or_lt_of_le ht with rfl | ht
      · exact hk
      · exact habove t ht htj
    · have hsucc := level_succ text k
      have hclose : text[k]? = some ']' := by
        by_contra hne
        rw [if_neg hne] at hsucc
        split at hsucc <;> omega
      refine ⟨k, Nat.le_refl k, by omega, hclose, ?_, ?_⟩
      · rw [level_close hclose] at hnext
        omega
      · intro t ht htk
        rwa [show t = k by omega]

/-- An opening bracket has a partner where its level is closed later on. -/
theorem exists_pair_of_open {stop : Nat} (hi : text[i]? = some '[') (hlt : i < stop)
    (hstop : level text stop < level text (i + 1)) : ∃ j, Pair text i j := by
  obtain ⟨j, hij, -, hj, hlevel, habove⟩ := exists_close (Int.le_refl _) hstop hlt
  exact ⟨j, pair_iff.mpr ⟨hij, hi, hj, habove, hlevel⟩⟩

/-- A closing bracket has a partner where some level is open. -/
theorem exists_pair_of_close (hj : text[j]? = some ']') (hpos : 0 < level text j) :
    ∃ i, Pair text i j := by
  obtain ⟨i, hij, hi, hlevel, habove⟩ := exists_open hpos (Int.le_refl _)
  have hopen : level text (i + 1) = level text j := by
    rw [level_open hi]
    omega
  exact ⟨i, pair_iff.mpr ⟨hij, hi, hj, hopen ▸ habove, hopen.symm⟩⟩

private theorem exists_pair_around (h : Balanced text) {n : Int} (hn : 0 < n) (hk : n ≤ level text k)
    (hlen : k ≤ text.length) : ∃ i j, Pair text i j ∧ i < k ∧ k ≤ j ∧ level text (i + 1) = n := by
  obtain ⟨i, hik, hi, hlow, hbefore⟩ := exists_open hn hk
  obtain ⟨j, hkj, -, hj, hlevel, hbehind⟩ := exists_close hk (h.2 ▸ hn) hlen
  have hopen : level text (i + 1) = n := by
    rw [level_open hi, hlow]
    omega
  refine ⟨i, j, pair_iff.mpr ⟨by omega, hi, hj, ?_, hlevel.trans hopen.symm⟩, hik, hkj, hopen⟩
  intro t hit htj
  rw [hopen]
  rcases Nat.le_total t k with ht | ht
  · exact hbefore t hit ht
  · exact hbehind t ht htj

namespace Pair

/-- Behind a pair the level is what it was in front of it. -/
theorem level_behind (h : Pair text i j) : level text (j + 1) = level text (i + 1) - 1 := by
  obtain ⟨-, -, hj, -, hlevel⟩ := pair_iff.mp h
  rw [level_close hj, hlevel]

theorem lt_length (h : Pair text i j) : j < text.length :=
  (List.getElem?_eq_some_iff.mp h.2.2.1).1

private theorem eq_of_level {i' j' : Nat} (h : Pair text i j) (h' : Pair text i' j')
    (hk : i < k ∧ k ≤ j) (hk' : i' < k ∧ k ≤ j')
    (hlevel : level text (i + 1) = level text (i' + 1)) : i = i' ∧ j = j' := by
  have hbehind := h.level_behind
  have hbehind' := h'.level_behind
  obtain ⟨hij, hi, -, habove, -⟩ := pair_iff.mp h
  obtain ⟨hij', hi', -, habove', -⟩ := pair_iff.mp h'
  rw [level_open hi] at hlevel habove hbehind
  rw [level_open hi'] at hlevel habove' hbehind'
  -- in front of the later bracket, or behind the earlier one, the level would be too low
  constructor
  · rcases Nat.lt_trichotomy i i' with hlt | heq | hlt
    · have := habove i' hlt (by omega)
      omega
    · exact heq
    · have := habove' i hlt (by omega)
      omega
  · rcases Nat.lt_trichotomy j j' with hlt | heq | hlt
    · have := habove' (j + 1) (by omega) hlt
      omega
    · exact heq
    · have := habove (j' + 1) (by omega) hlt
      omega

private theorem le_right {i' j' : Nat} (h : Pair text i j) (h' : Pair text i' j') (hi : i' ≤ i)
    (hj : i < j') : j ≤ j' := by
  have hbehind' := h'.level_behind
  obtain ⟨-, -, -, habove, -⟩ := pair_iff.mp h
  obtain ⟨-, -, -, habove', -⟩ := pair_iff.mp h'
  by_contra hlt
  have hinner := habove (j' + 1) (by omega) (by omega)
  have houter := habove' (i + 1) (by omega) hj
  omega

/-- In a balanced text the level of a pair is the number of pairs around it, itself included. -/
theorem card_enclosing (h : Pair text i j) (hbalanced : Balanced text) :
    ((enclosing text i j).card : Int) = level text (i + 1) := by
  obtain ⟨hij, hi, -, habove, -⟩ := pair_iff.mp h
  have hlen := h.lt_length
  have hlow := hbalanced.1 i (by omega)
  have hopen := level_open hi
  have hcard : (enclosing text i j).card =
      (Finset.Icc 1 (level text (i + 1)).toNat).card := by
    apply Finset.card_nbij fun q ↦ (level text (q.1 + 1)).toNat
    · rintro ⟨a, b⟩ hq
      obtain ⟨-, hpair, ha, hb⟩ := Finset.mem_filter.mp hq
      dsimp only at hpair ha hb
      obtain ⟨-, hbracket, -, hinside, -⟩ := pair_iff.mp hpair
      have hle := hinside (i + 1) (by omega) (by omega)
      have hfront := hbalanced.1 a (by omega)
      have hlevel := level_open hbracket
      apply Finset.mem_coe.mpr
      rw [Finset.mem_Icc]
      dsimp only
      omega
    · rintro ⟨a, b⟩ hq ⟨a', b'⟩ hq' heq
      obtain ⟨-, hpair, ha, hb⟩ := Finset.mem_filter.mp hq
      obtain ⟨-, hpair', ha', hb'⟩ := Finset.mem_filter.mp hq'
      dsimp only at hpair ha hb hpair' ha' hb' heq
      have hlevel := level_open hpair.2.1
      have hlevel' := level_open hpair'.2.1
      have hfront := hbalanced.1 a (by omega)
      have hfront' := hbalanced.1 a' (by omega)
      obtain ⟨rfl, rfl⟩ := hpair.eq_of_level hpair' (k := i + 1) (by omega) (by omega) (by omega)
      rfl
    · intro n hn
      obtain ⟨hone, hn⟩ := Finset.mem_Icc.mp (Finset.mem_coe.mp hn)
      obtain ⟨a, b, hpair, ha, hb, hlevel⟩ := exists_pair_around hbalanced (n := n) (by omega)
        (k := i + 1) (by omega) (by omega)
      have hblen := hpair.lt_length
      have hle := h.le_right hpair (by omega) (by omega)
      refine ⟨(a, b), Finset.mem_coe.mpr (Finset.mem_filter.mpr ⟨?_, hpair, by omega, hle⟩), ?_⟩
      · rw [Finset.mem_product, Finset.mem_range, Finset.mem_range]
        exact ⟨by omega, hblen⟩
      · dsimp only
        omega
  rw [hcard, Nat.card_Icc]
  omega

end Pair

/-- Every bracket of a balanced text is in one pair and no other. -/
theorem Balanced.existsUnique_pair (h : Balanced text)
    (hk : text[k]? = some '[' ∨ text[k]? = some ']') :
    ∃! q : Nat × Nat, Pair text q.1 q.2 ∧ (k = q.1 ∨ k = q.2) := by
  have hnonneg := (balanced_iff.mp h).1
  rcases hk with hk | hk
  · have hlen := (List.getElem?_eq_some_iff.mp hk).1
    have hlow : level text text.length < level text (k + 1) := by
      have := hnonneg k
      rw [h.2, level_open hk]
      omega
    obtain ⟨j, hpair⟩ := exists_pair_of_open hk hlen hlow
    refine ⟨(k, j), ⟨hpair, .inl rfl⟩, ?_⟩
    rintro ⟨a, b⟩ ⟨hother, rfl | rfl⟩
    · obtain ⟨-, rfl⟩ := hpair.eq_of_level hother (k := k + 1)
        ⟨Nat.lt_succ_self _, hpair.1⟩ ⟨Nat.lt_succ_self _, hother.1⟩ rfl
      rfl
    · exact absurd (hk.symm.trans hother.2.2.1) (by decide)
  · have hpos : 0 < level text k := by
      have := hnonneg (k + 1)
      rw [level_close hk] at this
      omega
    obtain ⟨i, hpair⟩ := exists_pair_of_close hk hpos
    refine ⟨(i, k), ⟨hpair, .inr rfl⟩, ?_⟩
    rintro ⟨a, b⟩ ⟨hother, rfl | rfl⟩
    · exact absurd (hk.symm.trans hother.2.1) (by decide)
    · obtain ⟨-, -, -, -, hlevel⟩ := pair_iff.mp hpair
      obtain ⟨-, -, -, -, hlevel'⟩ := pair_iff.mp hother
      obtain ⟨rfl, -⟩ := hpair.eq_of_level hother (k := k)
        ⟨hpair.1, Nat.le_refl _⟩ ⟨hother.1, Nat.le_refl _⟩ (hlevel.symm.trans hlevel')
      rfl

end BrainPiet.Brackets
