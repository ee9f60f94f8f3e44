import BrainPiet.Proofs.Png.CodeTree

/-!
# Lengths that leave room

The depths of the leaves of a tree are lengths for their symbols. Where leaves are too deep and are
moved up, room is made for them. So each symbol gets a code, and there is room for all codes.
-/

namespace BrainPiet.Png

namespace CodeLength

/-- Lengths that take up more than all numbers by `surplus`, with enough of the longest to move. -/
structure Crowded (longest surplus : Nat) (lengths : List Nat) : Prop where
  pos : ∀ length ∈ lengths, 1 ≤ length
  le_longest : ∀ length ∈ lengths, length ≤ longest
  length_le : lengths.length ≤ 2 ^ longest
  kraft_eq : kraft lengths longest = 2 ^ longest + surplus
  surplus_lt : surplus ≠ 0 → surplus < lengths.count longest

/-- The counts of lengths up to the longest. -/
def Tallies (longest : Nat) (counts : Array Nat) (lengths : List Nat) : Prop :=
  ∀ n ≤ longest, counts[n]? = some (lengths.count n)

section MakeRoom

variable {longest surplus : Nat} {counts : Array Nat} {lengths : List Nat}

private theorem kraft_of_forall_eq (hpos : 1 ≤ longest) (h : ∀ length ∈ lengths, length = longest) :
    kraft lengths longest = lengths.length := by
  induction lengths with
  | nil => exact kraft_nil longest
  | cons length lengths ih =>
    obtain rfl := h length List.mem_cons_self
    rw [kraft_cons lengths hpos (Nat.le_refl _), ih fun l hl ↦ h l (List.mem_cons_of_mem _ hl),
      Nat.sub_self, Nat.pow_zero, List.length_cons, Nat.add_comm]

private theorem exists_shorter (h : Crowded longest (surplus + 1) lengths) :
    ∃ length ∈ lengths, length < longest := by
  by_contra hnone
  have hall : ∀ length ∈ lengths, length = longest := fun length hmem ↦
    Nat.le_antisymm (h.le_longest _ hmem) (Nat.not_lt.1 fun hlt ↦ hnone ⟨length, hmem, hlt⟩)
  have hsurplus := h.surplus_lt (by omega)
  have hmem : longest ∈ lengths := List.count_pos_iff.1 (by omega)
  have hkraft := kraft_of_forall_eq (h.pos longest hmem) hall
  have := h.kraft_eq
  have := h.length_le
  omega

private theorem shorter_spec {k : Nat} (h : ∃ n, 1 ≤ n ∧ n ≤ k ∧ counts[n]?.getD 0 ≠ 0) :
    makeRoom.shorter counts k ≤ k ∧ counts[makeRoom.shorter counts k]?.getD 0 ≠ 0 ∧
      1 ≤ makeRoom.shorter counts k := by
  induction k with
  | zero =>
    obtain ⟨n, hpos, hle, -⟩ := h
    omega
  | succ k ih =>
    rw [makeRoom.shorter]
    split
    next hzero =>
      obtain ⟨n, hpos, hle, hn⟩ := h
      have hne : n ≠ k + 1 := by
        rintro rfl
        exact hn hzero
      obtain ⟨hk, hrest⟩ := ih ⟨n, hpos, by omega, hn⟩
      exact ⟨by omega, hrest⟩
    next hzero => exact ⟨Nat.le_refl _, hzero, by omega⟩

-- A code of some bits and one of the longest give way to two codes of one bit more than the first.
private theorem Crowded.lengthen (h : Crowded longest (surplus + 1) lengths)
    (hcounts : Tallies longest counts lengths) :
    ∃ lengths', lengths'.length = lengths.length ∧ Crowded longest surplus lengths' ∧
      Tallies longest (makeRoom.lengthen longest counts) lengths' := by
  obtain ⟨m, hmem, hlt⟩ := exists_shorter h
  have hused : counts[m]?.getD 0 ≠ 0 := by
    rw [hcounts m hlt.le, Option.getD_some]
    exact Nat.ne_of_gt (List.count_pos_iff.2 hmem)
  obtain ⟨hle, hn, hpos⟩ := shorter_spec (k := longest - 1) ⟨m, h.pos m hmem, by omega, hused⟩
  generalize hshort : makeRoom.shorter counts (longest - 1) = n at hle hn hpos
  rw [hcounts n (by omega), Option.getD_some] at hn
  have hsurplus := h.surplus_lt (by omega)
  have hfirst := List.perm_cons_erase (List.count_pos_iff.1 (Nat.pos_of_ne_zero hn))
  have hcount : (lengths.erase n).count longest = lengths.count longest :=
    List.count_erase_of_ne (by omega)
  have hsecond := List.perm_cons_erase
    (List.count_pos_iff.1 (show 0 < (lengths.erase n).count longest by omega))
  generalize (lengths.erase n).erase longest = rest at hsecond
  have hperm : lengths.Perm (n :: longest :: rest) := hfirst.trans (hsecond.cons n)
  have hrest : ∀ length ∈ rest, length ∈ lengths := fun length hl ↦
    hperm.mem_iff.2 (List.mem_cons_of_mem _ (List.mem_cons_of_mem _ hl))
  have hlength := hperm.length_eq
  refine ⟨(n + 1) :: (n + 1) :: rest, by simpa using hlength.symm, ⟨?_, ?_, ?_, ?_, ?_⟩, ?_⟩
  · simp only [List.forall_mem_cons]
    exact ⟨by omega, by omega, fun l hl ↦ h.pos l (hrest l hl)⟩
  · simp only [List.forall_mem_cons]
    exact ⟨by omega, by omega, fun l hl ↦ h.le_longest l (hrest l hl)⟩
  · have := h.length_le
    simp only [List.length_cons] at hlength ⊢
    omega
  · have hbefore := (kraft_congr fun k _ _ ↦ hperm.count_eq k).symm.trans h.kraft_eq
    have hpow : 2 ^ (longest - n) = 2 * 2 ^ (longest - (n + 1)) := by
      rw [← Nat.pow_succ']
      congr 1
      omega
    rw [kraft_cons _ hpos (by omega), kraft_cons _ (by omega) (Nat.le_refl _), Nat.sub_self,
      hpow] at hbefore
    rw [kraft_cons _ (by omega) (by omega), kraft_cons _ (by omega) (by omega)]
    omega
  · intro _
    have := hperm.count_eq longest
    rw [List.count_cons_of_ne (by omega), List.count_cons_self] at this
    simp only [List.count_cons]
    omega
  · intro k hk
    have hbefore := hperm.count_eq k
    simp only [List.count_cons, beq_iff_eq] at hbefore ⊢
    simp only [makeRoom.lengthen, hshort, Array.getElem?_modify, hcounts k hk]
    split <;> split <;> split <;> simp_all

/-- Making room leaves no excess. -/
theorem Crowded.makeRoom (h : Crowded longest surplus lengths)
    (hcounts : Tallies longest counts lengths) :
    ∃ lengths', lengths'.length = lengths.length ∧ Crowded longest 0 lengths' ∧
      Tallies longest (makeRoom longest (2 * surplus) counts) lengths' := by
  induction surplus generalizing counts lengths with
  | zero =>
    refine ⟨lengths, rfl, h, ?_⟩
    rwa [Nat.mul_zero, CodeLength.makeRoom]
  | succ surplus ih =>
    obtain ⟨lengths', hlength, hcrowded, htallies⟩ := h.lengthen hcounts
    obtain ⟨final, hfinal, hroom⟩ := ih hcrowded htallies
    refine ⟨final, hfinal.trans hlength, ?_⟩
    rwa [Nat.mul_succ, CodeLength.makeRoom]

private theorem count_flatMap_replicate (count : Nat → Nat) (n : Nat) :
    ((List.range longest).reverse.flatMap fun k ↦ List.replicate (count (k + 1)) (k + 1)).count n =
      if 1 ≤ n ∧ n ≤ longest then count n else 0 := by
  induction longest with
  | zero => simp; omega
  | succ longest ih =>
    rw [List.range_succ, List.reverse_append, List.reverse_singleton, List.singleton_append,
      List.flatMap_cons, List.count_append, ih, List.count_replicate]
    by_cases h : n = longest + 1
    · subst h
      simp
    · simp only [beq_iff_eq, Ne.symm h, if_false, Nat.zero_add]
      congr 1
      simp only [eq_iff_iff]
      omega

private theorem Tallies.perm_inOrder (hcounts : Tallies longest counts lengths)
    (hpos : ∀ length ∈ lengths, 1 ≤ length) (hle : ∀ length ∈ lengths, length ≤ longest) :
    ((List.range longest).reverse.flatMap fun n ↦
      List.replicate (counts[n + 1]?.getD 0) (n + 1)).Perm lengths := by
  rw [List.perm_iff_count]
  intro n
  rw [count_flatMap_replicate fun k ↦ counts[k]?.getD 0]
  split
  next h => rw [hcounts n h.2, Option.getD_some]
  next h =>
    exact (List.count_eq_zero.2 fun hmem ↦ h ⟨hpos n hmem, hle n hmem⟩).symm

end MakeRoom

/-- Symbols with lengths that leave room for the codes of all of them. -/
structure Assigned (longest : Nat) (symbols : List Nat) (pairs : List (Nat × Nat)) : Prop where
  perm : (pairs.map (·.1)).Perm symbols
  pos : ∀ p ∈ pairs, 1 ≤ p.2
  le_longest : ∀ p ∈ pairs, p.2 ≤ longest
  kraft_le : kraft (pairs.map (·.2)) longest ≤ 2 ^ longest

private theorem assigned_of_zip {longest : Nat} {symbols lengths joined : List Nat}
    (hsymbols : joined.Perm symbols) (hlength : lengths.length = symbols.length)
    (hcrowded : Crowded longest 0 lengths) {inOrder : List Nat} (hperm : inOrder.Perm lengths) :
    Assigned longest symbols (joined.zip inOrder) := by
  have hsame : joined.length = inOrder.length :=
    hsymbols.length_eq.trans (hlength.symm.trans hperm.length_eq.symm)
  have hmem : ∀ p ∈ joined.zip inOrder, p.2 ∈ lengths := fun p hp ↦
    hperm.mem_iff.1 (List.of_mem_zip (a := p.1) (b := p.2) hp).2
  refine ⟨?_, fun p hp ↦ hcrowded.pos _ (hmem p hp),
    fun p hp ↦ hcrowded.le_longest _ (hmem p hp), ?_⟩
  · exact (List.map_fst_zip hsame.le).symm ▸ hsymbols
  · rw [List.map_snd_zip hsame.ge, kraft_congr fun k _ _ ↦ hperm.count_eq k, hcrowded.kraft_eq]
    exact Nat.le_refl _

section OfTree

variable {longest : Nat} {tree : CodeTree}

private theorem exists_fork (h : tree.lone = []) :
    ∃ weight depth first second, tree = .fork weight depth first second := by
  cases tree with
  | leaf symbol weight => simp [CodeTree.lone] at h
  | fork weight depth first second => exact ⟨weight, depth, first, second, rfl⟩

private theorem two_mul_kraft_of_fork (hlongest : 1 ≤ longest) (htree : tree.lone = []) :
    2 * kraft (tree.lifted longest 0) longest = 2 * 2 ^ longest + tree.excess longest 0 := by
  obtain ⟨weight, depth, first, second, rfl⟩ := exists_fork htree
  have hfirst := first.two_mul_kraft_lifted hlongest (Nat.le_refl 1)
  have hsecond := second.two_mul_kraft_lifted hlongest (Nat.le_refl 1)
  have hpow : 2 ^ longest = 2 * 2 ^ (longest - 1) := by
    rw [← Nat.pow_succ', Nat.succ_eq_add_one, Nat.sub_add_cancel hlongest]
  rw [CodeTree.lifted_fork, kraft_append, CodeTree.excess_fork, if_neg (by omega), hpow,
    Nat.zero_add]
  omega

private theorem pos_of_mem_depths (htree : tree.lone = []) {p : Nat × Nat}
    (h : p ∈ (tree.depths 0).1) : 1 ≤ p.2 := by
  obtain ⟨weight, depth, first, second, rfl⟩ := exists_fork htree
  obtain h | h := List.mem_append.1 h
  · exact CodeTree.le_of_mem_depths h
  · exact CodeTree.le_of_mem_depths h

private theorem assigned_of_excess_eq_zero (hlongest : 1 ≤ longest) (htree : tree.lone = [])
    (hexcess : tree.excess longest 0 = 0) : Assigned longest tree.symbols (tree.depths 0).1 := by
  have hle : ∀ p ∈ (tree.depths 0).1, p.2 ≤ longest := by
    intro p hp
    obtain hzero | hmem := CodeTree.mem_depths hp
    · omega
    · have hnot := List.filter_eq_nil_iff.1 (List.eq_nil_of_length_eq_zero hexcess) p.2 hmem
      simpa using hnot
  have hlifted : tree.lifted longest 0 = (tree.depths 0).1.map (·.2) :=
    List.map_congr_left fun p hp ↦ Nat.min_eq_left (hle p hp)
  have hkraft := two_mul_kraft_of_fork hlongest htree
  rw [hlifted, hexcess] at hkraft
  exact ⟨.of_eq (tree.map_fst_depths 0), fun p ↦ pos_of_mem_depths htree, hle, by omega⟩

private theorem crowded_lifted (hlongest : 1 ≤ longest) (htree : tree.lone = [])
    (hsize : tree.symbols.length ≤ 2 ^ longest) :
    ∃ surplus, tree.excess longest 0 = 2 * surplus ∧
      Crowded longest surplus (tree.lifted longest 0) := by
  have hkraft := two_mul_kraft_of_fork hlongest htree
  refine ⟨kraft (tree.lifted longest 0) longest - 2 ^ longest, by omega, ⟨?_, ?_, ?_, by omega, ?_⟩⟩
  · intro length hlength
    obtain ⟨p, hp, rfl⟩ := List.mem_map.1 hlength
    exact Nat.le_min.2 ⟨pos_of_mem_depths htree hp, hlongest⟩
  · intro length hlength
    obtain ⟨p, hp, rfl⟩ := List.mem_map.1 hlength
    exact Nat.min_le_right ..
  · rwa [CodeTree.lifted, List.length_map, ← List.length_map (·.1), tree.map_fst_depths]
  · intro hsurplus
    have := tree.excess_lt_count_lifted (show tree.excess longest 0 ≠ 0 by omega)
    omega

private theorem tallies_lifted :
    Tallies longest ((tree.depths 0).1.foldl (fun (counts : Array Nat) (_, length) ↦
      counts.modify (min length longest) (· + 1)) (Array.replicate (longest + 1) 0))
      (tree.lifted longest 0) := by
  intro n hn
  have hfold : (tree.depths 0).1.foldl (fun (counts : Array Nat) (_, length) ↦
      counts.modify (min length longest) (· + 1)) (Array.replicate (longest + 1) 0) =
        (tree.lifted longest 0).foldl (fun counts place ↦ counts.modify place (· + 1))
          (Array.replicate (longest + 1) 0) := by
    rw [CodeTree.lifted, List.foldl_map]
  rw [hfold, getElem?_foldl_modify, Array.getElem?_replicate, if_pos (by omega)]
  simp

end OfTree

variable {longest : Nat} {weights : List (Nat × Nat)}

private theorem two_le_length_atLeastTwo (weights : List (Nat × Nat)) :
    2 ≤ (atLeastTwo weights).length := by
  cases weights with
  | nil => exact Nat.le_refl 2
  | cons p more =>
    cases more with
    | nil => exact Nat.le_refl 2
    | cons q more => simp [atLeastTwo]

/-- Each symbol gets a code, and there is room for all of them. -/
theorem assigned_ofWeights (hlongest : 1 ≤ longest)
    (hsize : (atLeastTwo weights).length ≤ 2 ^ longest) :
    Assigned longest ((atLeastTwo weights).map (·.1)) (ofWeights longest weights) := by
  have htwo := two_le_length_atLeastTwo weights
  generalize hleaves : (atLeastTwo weights).map (fun (symbol, weight) ↦
    CodeTree.leaf symbol weight) = leaves
  have hlength : leaves.length = (atLeastTwo weights).length := by rw [← hleaves, List.length_map]
  have hheap := Heap.perm_ofList leaves
  have hheapSize : (Heap.ofList leaves).size = leaves.length := by simpa using hheap.length_eq
  obtain ⟨tree, all, hall, hsymbols, hlone, hmany⟩ :=
    Heap.exists_joinAll leaves.length [] (show 1 ≤ (Heap.ofList leaves).size by omega) (by omega)
  have htree : tree.lone = [] := hmany (by omega)
  have hleafSymbols : leaves.flatMap CodeTree.symbols = (atLeastTwo weights).map (·.1) := by
    rw [← hleaves, List.flatMap_map]
    exact (List.map_eq_flatMap ..).symm
  have hleafLone : leaves.flatMap CodeTree.lone = (atLeastTwo weights).map (·.1) := by
    rw [← hleaves, List.flatMap_map]
    exact (List.map_eq_flatMap ..).symm
  have htreeSymbols : tree.symbols.Perm ((atLeastTwo weights).map (·.1)) :=
    hleafSymbols ▸ hsymbols.trans (hheap.flatMap_right _)
  have hallSymbols : all.Perm ((atLeastTwo weights).map (·.1)) := by
    rw [htree, List.append_nil, List.nil_append] at hlone
    exact hleafLone ▸ hlone.trans (hheap.flatMap_right _)
  rw [ofWeights]
  simp only [hleaves, hall]
  split
  next hexcess =>
    have hassigned := assigned_of_excess_eq_zero hlongest htree hexcess
    exact { hassigned with perm := hassigned.perm.trans htreeSymbols }
  next hexcess =>
    have hsymbolsSize : tree.symbols.length ≤ 2 ^ longest := by
      rwa [htreeSymbols.length_eq, List.length_map]
    obtain ⟨surplus, hsurplus, hcrowded⟩ := crowded_lifted hlongest htree hsymbolsSize
    obtain ⟨lengths, hlengths, hroom, htallies⟩ := hcrowded.makeRoom tallies_lifted
    have hliftedLength : (tree.lifted longest 0).length = (atLeastTwo weights).length := by
      rw [CodeTree.lifted, List.length_map, ← List.length_map (·.1), tree.map_fst_depths,
        htreeSymbols.length_eq, List.length_map]
    have hinOrder := htallies.perm_inOrder hroom.pos hroom.le_longest
    rw [← hsurplus] at hinOrder
    exact assigned_of_zip hallSymbols (by rw [hlengths, hliftedLength, List.length_map]) hroom
      hinOrder

end CodeLength

namespace Deflate

section SetAll

private abbrev setAll (pairs : List (Nat × Nat)) (lengths : Array Nat) : Array Nat :=
  pairs.foldl (fun (lengths : Array Nat) (symbol, length) ↦
    lengths.setIfInBounds symbol length) lengths

variable {pairs : List (Nat × Nat)} {lengths : Array Nat}

private theorem size_setAll : (setAll pairs lengths).size = lengths.size := by
  induction pairs generalizing lengths with
  | nil => rfl
  | cons p pairs ih => rw [setAll, List.foldl_cons, ih, Array.size_setIfInBounds]

private theorem getElem?_setAll_of_notMem {symbol : Nat} (h : symbol ∉ pairs.map (·.1)) :
    (setAll pairs lengths)[symbol]? = lengths[symbol]? := by
  induction pairs generalizing lengths with
  | nil => rfl
  | cons p pairs ih =>
    rw [List.map_cons, List.mem_cons, not_or] at h
    rw [setAll, List.foldl_cons, ih h.2, Array.getElem?_setIfInBounds_ne (Ne.symm h.1)]

private theorem getElem?_setAll {p : Nat × Nat} (hnodup : (pairs.map (·.1)).Nodup) (hp : p ∈ pairs)
    (hlt : p.1 < lengths.size) : (setAll pairs lengths)[p.1]? = some p.2 := by
  induction pairs generalizing lengths with
  | nil => exact absurd hp List.not_mem_nil
  | cons q pairs ih =>
    rw [List.map_cons, List.nodup_cons] at hnodup
    rw [setAll, List.foldl_cons]
    obtain rfl | hp := List.mem_cons.1 hp
    · rw [getElem?_setAll_of_notMem hnodup.1, Array.getElem?_setIfInBounds_self_of_lt hlt]
    · exact ih hnodup.2 hp (by simpa using hlt)

-- Each symbol is set once, in the place of a zero, so lengths other than zero are only added.
private theorem count_setAll {n : Nat} (hn : n ≠ 0) (hnodup : (pairs.map (·.1)).Nodup)
    (hzero : ∀ symbol ∈ pairs.map (·.1), lengths[symbol]? = some 0) :
    (setAll pairs lengths).toList.count n = lengths.toList.count n + (pairs.map (·.2)).count n := by
  induction pairs generalizing lengths with
  | nil => simp
  | cons p pairs ih =>
    rw [List.map_cons, List.nodup_cons] at hnodup
    rw [List.map_cons, List.forall_mem_cons] at hzero
    have hzero' : ∀ symbol ∈ pairs.map (·.1),
        (lengths.setIfInBounds p.1 p.2)[symbol]? = some 0 := fun symbol hsymbol ↦ by
      rw [Array.getElem?_setIfInBounds_ne fun h : p.1 = symbol ↦ hnodup.1 (h ▸ hsymbol)]
      exact hzero.2 symbol hsymbol
    obtain ⟨hlt, hget⟩ := Array.getElem?_eq_some_iff.1 hzero.1
    rw [setAll, List.foldl_cons, ih hnodup.2 hzero', Array.toList_setIfInBounds,
      List.count_set (by simpa using hlt), Array.getElem_toList, hget, List.map_cons,
      List.count_cons]
    simp only [beq_iff_eq, Ne.symm hn, if_false]
    omega

end SetAll

section Used

variable {counts : Array Nat}

private abbrev used (counts : Array Nat) : List (Nat × Nat) :=
  (counts.toList.zipIdx.filter fun (count, _) ↦ count ≠ 0).map fun (count, symbol) ↦ (symbol, count)

private theorem map_fst_used :
    ((used counts).map (·.1)).Sublist (List.range counts.size) := by
  have hrange : counts.toList.zipIdx.map (·.2) = List.range counts.size := by
    rw [List.zipIdx_map_snd, List.range_eq_range']
    rfl
  rw [← hrange, List.map_map]
  exact List.filter_sublist.map fun p : Nat × Nat ↦ p.2

private theorem mem_used {symbol count : Nat} (h : counts[symbol]? = some count)
    (hcount : count ≠ 0) : symbol ∈ (used counts).map (·.1) := by
  simp only [List.map_map, List.mem_map, List.mem_filter, Function.comp]
  refine ⟨(count, symbol), ⟨?_, by simpa using hcount⟩, rfl⟩
  rw [List.mk_mem_zipIdx_iff_getElem?, Array.getElem?_toList]
  exact h

end Used

section AtLeastTwo

open CodeLength (atLeastTwo)

variable {weights : List (Nat × Nat)}

private theorem nodup_atLeastTwo (h : (weights.map (·.1)).Nodup) :
    ((atLeastTwo weights).map (·.1)).Nodup := by
  fun_cases atLeastTwo weights with
  | case1 => decide
  | case2 symbol weight =>
    by_cases hsymbol : symbol < 2
    · simp [hsymbol]
    · simp [hsymbol]
      omega
  | case3 => exact h

private theorem lt_of_mem_atLeastTwo {size symbol : Nat} (hsize : 3 ≤ size)
    (h : ∀ symbol ∈ weights.map (·.1), symbol < size)
    (hsymbol : symbol ∈ (atLeastTwo weights).map (·.1)) : symbol < size := by
  revert hsymbol
  fun_cases atLeastTwo weights with
  | case1 =>
    simp
    omega
  | case2 first weight =>
    have hfirst := h first (by simp)
    by_cases hlt : first < 2
    · simp [hlt]
      omega
    · simp [hlt]
      omega
  | case3 => exact h symbol

private theorem mem_atLeastTwo {symbol : Nat} (h : symbol ∈ weights.map (·.1)) :
    symbol ∈ (atLeastTwo weights).map (·.1) := by
  fun_cases atLeastTwo weights with
  | case1 => simp at h
  | case2 first weight =>
    obtain rfl : symbol = first := by simpa using h
    simp
  | case3 => exact h

private theorem length_atLeastTwo_le : (atLeastTwo weights).length ≤ max weights.length 2 := by
  fun_cases atLeastTwo weights with
  | case1 => simp
  | case2 => simp
  | case3 => exact Nat.le_max_left ..

end AtLeastTwo

section LengthsOf

variable {longest : Nat} {symbols : List Nat} {pairs : List (Nat × Nat)}

private abbrev sizeFor (pairs : List (Nat × Nat)) (least : Nat) : Nat :=
  pairs.foldl (fun size (symbol, _) ↦ max size (symbol + 1)) least

private theorem sizeFor_le {least bound : Nat} (hleast : least ≤ bound)
    (h : ∀ p ∈ pairs, p.1 < bound) : sizeFor pairs least ≤ bound := by
  induction pairs generalizing least with
  | nil => exact hleast
  | cons p pairs ih =>
    exact ih (Nat.max_le.2 ⟨hleast, h p List.mem_cons_self⟩)
      fun q hq ↦ h q (List.mem_cons_of_mem _ hq)

private theorem le_sizeFor (pairs : List (Nat × Nat)) (least : Nat) :
    least ≤ sizeFor pairs least ∧ ∀ p ∈ pairs, p.1 < sizeFor pairs least := by
  induction pairs generalizing least with
  | nil => simp
  | cons p pairs ih =>
    obtain ⟨hleast, hpairs⟩ := ih (max least (p.1 + 1))
    rw [Nat.max_le] at hleast
    rw [sizeFor, List.foldl_cons, List.forall_mem_cons]
    exact ⟨hleast.1, hleast.2, hpairs⟩

private def lengthsOf (pairs : List (Nat × Nat)) : List Nat :=
  (setAll pairs (Array.replicate (sizeFor pairs 0) 0)).toList

private theorem getElem?_lengthsOf (hnodup : (pairs.map (·.1)).Nodup) {p : Nat × Nat}
    (hp : p ∈ pairs) : (lengthsOf pairs)[p.1]? = some p.2 := by
  rw [lengthsOf, Array.getElem?_toList]
  exact getElem?_setAll hnodup hp (by simpa using (le_sizeFor pairs 0).2 p hp)

private theorem count_lengthsOf (hnodup : (pairs.map (·.1)).Nodup) {n : Nat} (hn : n ≠ 0) :
    (lengthsOf pairs).count n = (pairs.map (·.2)).count n := by
  have hzero : ∀ symbol ∈ pairs.map (·.1),
      (Array.replicate (sizeFor pairs 0) 0)[symbol]? = some 0 := by
    intro symbol hsymbol
    obtain ⟨p, hp, rfl⟩ := List.mem_map.1 hsymbol
    rw [Array.getElem?_replicate, if_pos ((le_sizeFor pairs 0).2 p hp)]
  rw [lengthsOf, count_setAll hn hnodup hzero]
  simp [List.count_replicate, Ne.symm hn]

private theorem length_lengthsOf_le {bound : Nat} (h : ∀ p ∈ pairs, p.1 < bound) :
    (lengthsOf pairs).length ≤ bound := by
  rw [lengthsOf, Array.length_toList, size_setAll, Array.size_replicate]
  exact sizeFor_le (Nat.zero_le _) h

private theorem roomy_lengthsOf (hnodup : (pairs.map (·.1)).Nodup)
    (h : CodeLength.Assigned longest symbols pairs) : Roomy longest (lengthsOf pairs) := by
  refine ⟨?_, ?_⟩
  · intro length hmem
    by_cases hzero : length = 0
    · omega
    · have hpos := List.count_pos_iff.2 hmem
      rw [count_lengthsOf hnodup hzero] at hpos
      obtain ⟨p, hp, rfl⟩ := List.mem_map.1 (List.count_pos_iff.1 hpos)
      exact h.le_longest p hp
  · rw [kraft_congr fun n hn _ ↦ count_lengthsOf hnodup (by omega)]
    exact h.kraft_le

end LengthsOf

variable {longest : Nat} {counts : Array Nat}

/-- Lengths for the symbols that are counted. -/
structure Covers (longest : Nat) (counts : Array Nat) (lengths : List Nat) : Prop where
  roomy : Roomy longest lengths
  exists_length : ∀ symbol count : Nat, counts[symbol]? = some count → count ≠ 0 →
    ∃ length ≠ 0, lengths[symbol]? = some length
  length_le : lengths.length ≤ counts.size
  length_pos : lengths ≠ []

/-- Each symbol that is used gets a code, and there is room for all codes. -/
theorem covers_codeLengths (hlongest : 1 ≤ longest) (hleast : 3 ≤ counts.size)
    (hmost : counts.size ≤ 2 ^ longest) : Covers longest counts (codeLengths longest counts) := by
  have hsub := @map_fst_used counts
  have hlt : ∀ symbol ∈ (used counts).map (·.1), symbol < counts.size := fun symbol h ↦
    List.mem_range.1 (hsub.subset h)
  have hfew : (CodeLength.atLeastTwo (used counts)).length ≤ 2 ^ longest := by
    have hlength : (used counts).length ≤ counts.size := by simpa using hsub.length_le
    have := @length_atLeastTwo_le (used counts)
    omega
  have hassigned := CodeLength.assigned_ofWeights hlongest hfew
  have hcodes : codeLengths longest counts =
      lengthsOf (CodeLength.ofWeights longest (used counts)) := rfl
  rw [hcodes]
  generalize CodeLength.ofWeights longest (used counts) = pairs at hassigned
  have hnodup := hassigned.perm.nodup_iff.2 (nodup_atLeastTwo (hsub.nodup List.nodup_range))
  refine ⟨roomy_lengthsOf hnodup hassigned, ?_, ?_, ?_⟩
  · intro symbol count hsymbol hused
    have hmem := hassigned.perm.mem_iff.2 (mem_atLeastTwo (mem_used hsymbol hused))
    obtain ⟨p, hp, rfl⟩ := List.mem_map.1 hmem
    exact ⟨p.2, Nat.ne_of_gt (hassigned.pos p hp), getElem?_lengthsOf hnodup hp⟩
  · exact length_lengthsOf_le fun p hp ↦
      lt_of_mem_atLeastTwo hleast hlt (hassigned.perm.mem_iff.1 (List.mem_map_of_mem hp))
  · have htwo := CodeLength.two_le_length_atLeastTwo (used counts)
    have hperm := hassigned.perm.length_eq
    rw [List.length_map, List.length_map] at hperm
    obtain ⟨p, hp⟩ := List.exists_mem_of_length_pos (show 0 < pairs.length by omega)
    intro hnil
    have hget := getElem?_lengthsOf hnodup hp
    rw [hnil, List.getElem?_nil] at hget
    cases hget

end Deflate

end BrainPiet.Png
