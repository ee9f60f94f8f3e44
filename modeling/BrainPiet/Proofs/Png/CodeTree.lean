import BrainPiet.Proofs.Png.PrefixCode

/-!
# Trees of symbols

Joining trees keeps their symbols, so the tree that is left has a leaf for each symbol. The leaves
of a tree take up all numbers of any length, and more where leaves that are too deep are moved up.
-/

namespace BrainPiet.Png

section Kraft

variable {longest : Nat}

theorem kraft_nil (longest : Nat) : kraft [] longest = 0 := by
  induction longest with
  | zero => rfl
  | succ longest ih => simp [kraft, ih]

theorem kraft_append (a b : List Nat) (longest : Nat) :
    kraft (a ++ b) longest = kraft a longest + kraft b longest := by
  induction longest with
  | zero => rfl
  | succ longest ih =>
    simp only [kraft, ih, List.count_append]
    omega

/-- A code of some bits takes up all numbers that start with it. -/
theorem kraft_cons {length : Nat} (lengths : List Nat) (hpos : 1 ≤ length)
    (hle : length ≤ longest) :
    kraft (length :: lengths) longest = 2 ^ (longest - length) + kraft lengths longest := by
  have hshort : ∀ width < length, kraft (length :: lengths) width = kraft lengths width := by
    intro width hwidth
    induction width with
    | zero => rfl
    | succ width ih => simp [kraft, ih (by omega), Nat.ne_of_gt hwidth]
  induction longest with
  | zero => omega
  | succ longest ih =>
    obtain hlt | rfl := Nat.lt_or_eq_of_le hle
    · have hpow : 2 ^ (longest + 1 - length) = 2 * 2 ^ (longest - length) := by
        rw [Nat.succ_sub (by omega), Nat.pow_succ']
      simp only [kraft, ih (by omega), hpow, List.count_cons, beq_iff_eq, Nat.ne_of_lt hlt,
        if_false]
      omega
    · simp only [kraft, hshort longest (by omega), List.count_cons_self, Nat.sub_self, Nat.pow_zero]
      omega

/-- Only how often each length occurs counts. -/
theorem kraft_congr {a b : List Nat} (h : ∀ n, 1 ≤ n → n ≤ longest → a.count n = b.count n) :
    kraft a longest = kraft b longest := by
  induction longest with
  | zero => rfl
  | succ longest ih =>
    rw [kraft, kraft, ih fun n hn hle ↦ h n hn (by omega), h (longest + 1) (by omega) (by omega)]

end Kraft

namespace CodeTree

/-- The symbols of a tree. -/
def symbols : CodeTree → List Nat
  | leaf symbol _ => [symbol]
  | fork _ _ first second => first.symbols ++ second.symbols

/-- The symbol of a tree that has one only. -/
def lone : CodeTree → List Nat
  | leaf symbol _ => [symbol]
  | fork _ _ _ _ => []

theorem map_fst_depths (tree : CodeTree) (level : Nat) :
    (tree.depths level).1.map (·.1) = tree.symbols := by
  induction tree generalizing level with
  | leaf => rfl
  | fork _ _ first second ihFirst ihSecond => simp [depths, symbols, ihFirst, ihSecond]

theorem le_of_mem_depths {tree : CodeTree} {level : Nat} {p : Nat × Nat}
    (h : p ∈ (tree.depths level).1) : level ≤ p.2 := by
  induction tree generalizing level with
  | leaf symbol weight =>
    obtain rfl : p = (symbol, level) := by simpa [depths] using h
    exact Nat.le_refl level
  | fork _ _ first second ihFirst ihSecond =>
    obtain h | h := List.mem_append.1 h
    · exact Nat.le_of_succ_le (ihFirst h)
    · exact Nat.le_of_succ_le (ihSecond h)

/-- The depth of a leaf is that of the tree or of one below it. -/
theorem mem_depths {tree : CodeTree} {level : Nat} {p : Nat × Nat}
    (h : p ∈ (tree.depths level).1) : p.2 = level ∨ p.2 ∈ (tree.depths level).2 := by
  induction tree generalizing level with
  | leaf symbol weight =>
    obtain rfl : p = (symbol, level) := by simpa [depths] using h
    exact .inl rfl
  | fork _ _ first second ihFirst ihSecond =>
    simp only [depths, List.mem_cons, List.mem_append]
    obtain h | h := List.mem_append.1 h
    · obtain heq | hmem := ihFirst h
      · exact .inr (.inl heq)
      · exact .inr (.inr (.inr (.inl hmem)))
    · obtain heq | hmem := ihSecond h
      · exact .inr (.inl heq)
      · exact .inr (.inr (.inr (.inr hmem)))

/-- The depths of the leaves, none deeper than `longest`. -/
def lifted (tree : CodeTree) (longest level : Nat) : List Nat :=
  (tree.depths level).1.map fun p ↦ min p.2 longest

/-- How many trees below a tree are too deep. -/
def excess (tree : CodeTree) (longest level : Nat) : Nat :=
  ((tree.depths level).2.filter (longest < ·)).length

section Lifted

variable {longest level : Nat}

private theorem lifted_leaf (symbol weight : Nat) :
    (leaf symbol weight).lifted longest level = [min level longest] := rfl

theorem lifted_fork (weight depth : Nat) (first second : CodeTree) :
    (fork weight depth first second).lifted longest level =
      first.lifted longest (level + 1) ++ second.lifted longest (level + 1) := by
  simp [lifted, depths]

theorem excess_fork (weight depth : Nat) (first second : CodeTree) :
    (fork weight depth first second).excess longest level =
      (if longest ≤ level then 2 else 0) +
        (first.excess longest (level + 1) + second.excess longest (level + 1)) := by
  simp only [excess, depths, List.filter_cons, decide_eq_true_eq, Nat.lt_succ_iff]
  split
  · simp only [List.length_cons, List.filter_append, List.length_append]
    omega
  · simp only [List.filter_append, List.length_append, Nat.zero_add]

/-- The leaves take up what their tree does, and half of what is too deep beyond it. -/
theorem two_mul_kraft_lifted (tree : CodeTree) (hlongest : 1 ≤ longest) (hlevel : 1 ≤ level) :
    2 * kraft (tree.lifted longest level) longest =
      2 * 2 ^ (longest - level) + tree.excess longest level := by
  induction tree generalizing level with
  | leaf symbol weight =>
    have hmin : longest - min level longest = longest - level := by omega
    rw [lifted_leaf, kraft_cons [] (by omega) (by omega), kraft_nil, hmin]
    rfl
  | fork weight depth first second ihFirst ihSecond =>
    have hfirst := @ihFirst (level + 1) (by omega)
    have hsecond := @ihSecond (level + 1) (by omega)
    rw [lifted_fork, kraft_append, excess_fork]
    by_cases h : longest ≤ level
    · have hzero : longest - level = 0 := by omega
      have hbelow : longest - (level + 1) = 0 := by omega
      rw [hbelow] at hfirst hsecond
      rw [hzero, if_pos h]
      omega
    · have hpow : 2 ^ (longest - level) = 2 * 2 ^ (longest - (level + 1)) := by
        rw [← Nat.pow_succ']
        congr 1
        omega
      rw [hpow, if_neg h]
      omega

private theorem two_mul_count_lifted (tree : CodeTree) (hlevel : longest ≤ level) :
    2 * (tree.lifted longest level).count longest = 2 + tree.excess longest level := by
  induction tree generalizing level with
  | leaf symbol weight => simp [lifted_leaf, Nat.min_eq_right hlevel, excess, depths]
  | fork weight depth first second ihFirst ihSecond =>
    have hfirst := @ihFirst (level + 1) (by omega)
    have hsecond := @ihSecond (level + 1) (by omega)
    rw [lifted_fork, List.count_append, excess_fork, if_pos hlevel]
    omega

/-- Where trees are too deep, there are more of the longest codes than half as many. -/
theorem excess_lt_count_lifted (tree : CodeTree) (h : tree.excess longest level ≠ 0) :
    tree.excess longest level + 2 ≤ 2 * (tree.lifted longest level).count longest := by
  induction tree generalizing level with
  | leaf => exact absurd rfl h
  | fork weight depth first second ihFirst ihSecond =>
    by_cases hlevel : longest ≤ level
    · rw [two_mul_count_lifted _ hlevel]
      omega
    · have hfirst := @ihFirst (level + 1)
      have hsecond := @ihSecond (level + 1)
      rw [excess_fork, if_neg hlevel] at h ⊢
      rw [lifted_fork, List.count_append]
      by_cases hf : first.excess longest (level + 1) = 0
      · have := hsecond (by omega)
        omega
      · by_cases hs : second.excess longest (level + 1) = 0
        · have := hfirst hf
          omega
        · have := hfirst hf
          have := hsecond hs
          omega

end Lifted

end CodeTree

namespace Heap

private theorem perm_set_set {heap : Heap} {i j : Nat} {least : CodeTree} (tree : CodeTree)
    (hi : i < heap.size) (hne : i ≠ j) (hj : heap[j]? = some least) :
    ((heap.setIfInBounds i least).setIfInBounds j tree).toList.Perm
      (heap.setIfInBounds i tree).toList := by
  obtain ⟨hlt, hget⟩ := Array.getElem?_eq_some_iff.1 hj
  have hsize : (heap.setIfInBounds i tree).size = heap.size := Array.size_setIfInBounds
  have hswap : ((heap.setIfInBounds i tree).swap i j (hsize ▸ hi) (hsize ▸ hlt)).toList.Perm
      (heap.setIfInBounds i tree).toList := Array.perm_iff_toList_perm.1 (Array.swap_perm ..)
  simpa [Array.swap_def, hi, hne, hget, Array.setIfInBounds, hlt] using hswap

private theorem perm_sift (tree : CodeTree) (fuel : Nat) {heap : Heap} {place : Nat}
    (hplace : place < heap.size) :
    (sift tree fuel heap place).toList.Perm (heap.setIfInBounds place tree).toList := by
  induction fuel generalizing heap place with
  | zero => exact .refl _
  | succ fuel ih =>
    rw [sift]
    split
    next => exact .refl _
    next first hfirst =>
      split
      next child least hchild =>
        obtain ⟨hget, hlt⟩ : heap[child]? = some least ∧ place < child := by
          split at hchild
          · split at hchild <;> obtain ⟨rfl, rfl⟩ := Prod.mk.inj hchild
            · exact ⟨by assumption, by omega⟩
            · exact ⟨hfirst, by omega⟩
          · obtain ⟨rfl, rfl⟩ := Prod.mk.inj hchild
            exact ⟨hfirst, by omega⟩
        split
        · exact .refl _
        · have hin : child < (heap.setIfInBounds place least).size := by
            simpa using (Array.getElem?_eq_some_iff.1 hget).1
          exact (ih hin).trans (perm_set_set tree hplace (Nat.ne_of_lt hlt) hget)

private theorem size_sift (tree : CodeTree) (fuel : Nat) {heap : Heap} {place : Nat}
    (hplace : place < heap.size) : (sift tree fuel heap place).size = heap.size := by
  simpa using (perm_sift tree fuel hplace).length_eq

/-- A heap is made of the given trees. -/
theorem perm_ofList (trees : List CodeTree) : (ofList trees).toList.Perm trees := by
  rw [ofList]
  refine List.foldlRecOn (motive := fun (heap : Heap) ↦ heap.toList.Perm trees) _ _ (.refl _) ?_
  intro heap h place _
  split
  next tree htree =>
    obtain ⟨hlt, hget⟩ := Array.getElem?_eq_some_iff.1 htree
    have hsame : heap.setIfInBounds place tree = heap := by
      rw [← hget]
      simp [Array.setIfInBounds, hlt]
    exact (hsame ▸ perm_sift tree heap.size hlt).trans h
  next => exact h

private theorem exists_joinAll_succ (fuel : Nat) {heap : Heap} (joined : List Nat)
    (h : 2 ≤ heap.size) :
    ∃ (first second : CodeTree) (tail : List CodeTree) (next : Heap),
      heap.toList.Perm (first :: second :: tail) ∧ next.toList.Perm (first.join second :: tail) ∧
      joinAll (fuel + 1) heap joined = joinAll fuel next (joined ++ first.lone ++ second.lone) := by
  obtain ⟨trees⟩ := heap
  obtain ⟨first, rest, rfl⟩ := List.exists_cons_of_length_pos (Nat.zero_lt_of_lt h)
  obtain rfl | ⟨mid, last, hrest⟩ := List.eq_nil_or_concat rest
  · exact absurd h (by simp)
  obtain rfl : rest = mid ++ [last] := by rw [hrest, List.concat_eq_append]
  have hpop : (first :: mid ++ [last]).toArray.pop = (first :: mid).toArray := by
    rw [List.pop_toArray, List.dropLast_concat]
  have hback : (first :: mid ++ [last]).toArray.back? = some last := by
    rw [List.back?_toArray, List.getLast?_concat]
  have hsift := perm_sift last (first :: mid ++ [last]).toArray.size
    (show 0 < (first :: mid).toArray.size by simp)
  generalize hheap : sift last (first :: mid ++ [last]).toArray.size (first :: mid).toArray 0 = heap
    at hsift
  have hlast : heap.toList.Perm (last :: mid) := by simpa using hsift
  obtain ⟨trees⟩ := heap
  obtain ⟨second, tail, rfl⟩ := List.exists_cons_of_length_pos
    (show 0 < trees.length by have := hlast.length_eq; simp at this; omega)
  refine ⟨first, second, tail, sift (first.join second) (second :: tail).toArray.size
    (second :: tail).toArray 0, ?_, ?_, ?_⟩
  · exact .cons first ((List.perm_append_singleton last mid).trans hlast.symm)
  · simpa using perm_sift (first.join second) (second :: tail).toArray.size
      (show 0 < (second :: tail).toArray.size by simp)
  · have hnot : ¬ (first :: mid ++ [last]).toArray.size < 2 := by simp
    simp only [List.cons_append] at hpop hback hheap hnot
    simp only [joinAll, hnot, if_false, hback, hpop, Option.getD_some, hheap]
    rfl

/-- One tree is left of several, with their symbols. All of these are collected. -/
theorem exists_joinAll (fuel : Nat) {heap : Heap} (joined : List Nat) (hpos : 1 ≤ heap.size)
    (hfuel : heap.size ≤ fuel + 1) :
    ∃ tree all, joinAll fuel heap joined = (#[tree], all) ∧
      tree.symbols.Perm (heap.toList.flatMap CodeTree.symbols) ∧
      (all ++ tree.lone).Perm (joined ++ heap.toList.flatMap CodeTree.lone) ∧
      (2 ≤ heap.size → tree.lone = []) := by
  induction fuel generalizing heap joined with
  | zero =>
    obtain ⟨tree, rfl⟩ := Array.size_eq_one_iff.1 (Nat.le_antisymm hfuel hpos)
    exact ⟨tree, joined, rfl, by simp, by simp, by simp⟩
  | succ fuel ih =>
    obtain hone | htwo := Nat.eq_or_lt_of_le hpos
    · obtain ⟨tree, rfl⟩ := Array.size_eq_one_iff.1 hone.symm
      exact ⟨tree, joined, rfl, by simp, by simp, by simp⟩
    · obtain ⟨first, second, tail, next, hheap, hnext, hstep⟩ :=
        exists_joinAll_succ fuel joined htwo
      have hsize : heap.size = next.size + 1 := by
        have hbefore := hheap.length_eq
        have hafter := hnext.length_eq
        simp only [Array.length_toList, List.length_cons] at hbefore hafter
        omega
      have hnextPos : 1 ≤ next.size := by omega
      obtain ⟨tree, all, hall, hsymbols, hlone, hmany⟩ :=
        ih (joined ++ first.lone ++ second.lone) hnextPos (by omega)
      refine ⟨tree, all, hstep.trans hall, ?_, ?_, fun _ ↦ ?_⟩
      · refine hsymbols.trans ((hnext.flatMap_right _).trans ?_)
        refine .trans ?_ (hheap.flatMap_right _).symm
        simp [CodeTree.join, CodeTree.symbols]
      · refine hlone.trans (((hnext.flatMap_right _).append_left _).trans ?_)
        refine .trans ?_ ((hheap.flatMap_right _).append_left _).symm
        simp [CodeTree.join, CodeTree.lone]
      · obtain hone | hmore := Nat.eq_or_lt_of_le hnextPos
        · obtain ⟨t, rfl⟩ := Array.size_eq_one_iff.1 hone.symm
          have hjoin : tail = [] ∧ t = first.join second := by
            have := hnext.length_eq
            obtain rfl : tail = [] := by simpa using this
            simpa using hnext
          have htree : tree = t := by
            cases fuel <;> simpa [joinAll] using (congrArg Prod.fst hall).symm
          rw [htree, hjoin.2]
          rfl
        · exact hmany hmore

end Heap

end BrainPiet.Png
