import BrainPiet.Proofs.Walk.Block

/-!
# The two tracks of `read`

Behind its test the tile of `read` forks. The upper track is white and leads to the last addition;
the lower one makes another addition before it.
-/

namespace BrainPiet

open Template (laneRow)

/-- The columns along the lane behind the test, which ends with the given shade. -/
def nothingColumns (t : Shade) : List Column :=
  [⟨1, t.rgb⟩, ⟨1, .white⟩, ⟨1, .white⟩, ⟨2, (t.step .add).rgb⟩,
    ⟨1, ((t.step .add).step .add).rgb⟩, ⟨1, .white⟩]

/-- The columns of the lower track. -/
def byteColumns (t : Shade) : List Column := [⟨1, t.rgb⟩, ⟨1, (t.step .add).rgb⟩, ⟨1, .white⟩]

/-- What is seen of a tile of `read` behind its test. -/
structure ReadShown (view : Pos → Codel) (x : Int) (t : Shade) : Prop where
  fork : Patch view t (comb (x + 12) laneRow [2])
  nothing : ∀ z, x + 12 < z → z < x + 15 → view (z, laneRow) = .white
  byte : Patch view (t.step .add) (comb (x + 12 + 1) (laneRow + 1) [1])
  gap : view (x + 14, laneRow + 1) = .white
  join : Patch view (t.step .add) (comb (x + 15) laneRow [2])
  below : view (x + 15 + 1, laneRow + 1) = .black
  last : Patch view ((t.step .add).step .add) (comb (x + 15 + 1) laneRow [1])
  behind : view (x + 17, laneRow) = .white

namespace Cursor.Shown

variable {D n : Nat} {view : Pos → Codel} {c : Cursor}

private theorem width_read : Stretch.width Symbol.read.blocks = 12 := by decide

private theorem upper_read {s t : Shade} (ht : Stretch.shadeAfter s Symbol.read.blocks = t) (j : Nat)
    (col : Column) (hj : (nothingColumns t)[j]? = some col) :
    (Instruction.tile D s ⟨.read, n⟩).upper[12 + j]? = some col := by
  have hbehind (rows : Nat) : Symbol.read.behind rows t = nothingColumns t := rfl
  rw [← hbehind (loopRows D n), ← ht] at hj
  rw [← width_read]
  exact Instruction.getElem?_upper ⟨.read, n⟩ hj

private theorem below_read {s t : Shade} (ht : Stretch.shadeAfter s Symbol.read.blocks = t) :
    (Instruction.tile D s ⟨.read, n⟩).below = [⟨12, 1, byteColumns t⟩] := by
  subst ht
  rfl

private theorem shelf_read {s : Shade} {x : Int} {j : Nat} (hj : 15 ≤ j) (z : Int) :
    Shelf.cell x (Instruction.tile D s ⟨.read, n⟩).below (x + j, z) = none := by
  have hlen (t : Shade) : (byteColumns t).length = 3 := rfl
  have hout (t : Shade) :
      Column.cell (x + (12 : Nat)) (laneRow + (1 : Nat)) (byteColumns t) (x + j, z) = none := by
    apply Column.cell_outside
    rw [hlen]
    simp only
    omega
  rw [below_read rfl, Shelf.cell, hout]
  rfl

private theorem lane_read (h : c.Shown D view ⟨.read, n⟩) {t : Shade}
    (ht : Stretch.shadeAfter c.shade Symbol.read.blocks = t) :
    view (c.x + 12, laneRow) = .shade t ∧ view (c.x + 13, laneRow) = .white ∧
      view (c.x + 14, laneRow) = .white ∧
        (∀ j : Nat, j < 2 → view (c.x + 15, laneRow + j) = .shade (t.step .add)) ∧
          view (c.x + 16, laneRow) = .shade ((t.step .add).step .add) ∧
            view (c.x + 17, laneRow) = .white := by
  have hpal : t.InPalette := ht ▸ Stretch.inPalette_shadeAfter h.palette _
  have hcol := upper_read (D := D) (n := n) ht
  have hshade {s : Shade} (hs : s.InPalette) {k : Codel} (hk : k = .ofColour s.rgb) :
      k = .shade s := hk.trans (Shade.ofColour_rgb hs)
  refine ⟨hshade hpal (h.upper 12 _ (hcol 0 _ rfl) 0 Nat.one_pos),
    h.upper 13 _ (hcol 1 _ rfl) 0 Nat.one_pos, h.upper 14 _ (hcol 2 _ rfl) 0 Nat.one_pos, ?_,
    hshade (Shade.inPalette_step _ _) (h.upper 16 _ (hcol 4 _ rfl) 0 Nat.one_pos),
    h.upper 17 _ (hcol 5 _ rfl) 0 Nat.one_pos⟩
  intro j hj
  exact hshade (Shade.inPalette_step _ _) (h.upper 15 _ (hcol 3 _ rfl) j hj)

private theorem shelf_row_read (h : c.Shown D view ⟨.read, n⟩) {t : Shade}
    (ht : Stretch.shadeAfter c.shade Symbol.read.blocks = t) :
    view (c.x + 12, laneRow + 1) = .shade t ∧ view (c.x + 13, laneRow + 1) = .shade (t.step .add) ∧
      view (c.x + 14, laneRow + 1) = .white ∧
        ∀ s, view (c.x + 12, laneRow + 2) ≠ .shade s ∧ view (c.x + 13, laneRow + 2) ≠ .shade s := by
  have hpal : t.InPalette := ht ▸ Stretch.inPalette_shadeAfter h.palette _
  have hb := below_read (D := D) (n := n) ht
  have hcover (k : Nat) (col : Column) (hk : k < 3)
      (hcol : (Instruction.tile D c.shade ⟨.read, n⟩).upper[12 + k]? = some col) :
      col.height ≤ 1 := by
    obtain ⟨col', hmem, hle⟩ : ∃ col' ∈ (nothingColumns t)[k]?, col'.height ≤ 1 := by
      obtain rfl | rfl | rfl : k = 0 ∨ k = 1 ∨ k = 2 := by omega
      all_goals exact ⟨_, rfl, Nat.le_refl 1⟩
    rw [upper_read ht k col' hmem, Option.some.injEq] at hcol
    rw [← hcol]
    exact hle
  have hshade {s : Shade} (hs : s.InPalette) {k : Codel} (hk : k = .ofColour s.rgb) :
      k = .shade s := hk.trans (Shade.ofColour_rgb hs)
  have hseen (j : Nat) (col : Column) (hj : (byteColumns t)[j]? = some col)
      (hpos : 0 < col.height) (x : Int) (hx : c.x + 12 + j = x) :
      view (x, laneRow + 1) = .ofColour col.colour := by
    rw [← hx]
    exact h.shelf hb hcover j col hj 0 hpos
  have hunder (j : Nat) (col : Column) (hj : (byteColumns t)[j]? = some col)
      (hone : col.height = 1) (x : Int) (hx : c.x + 12 + j = x) (s : Shade) :
      view (x, laneRow + 2) ≠ .shade s := by
    have hz : laneRow + (1 : Nat) + (col.height : Int) ≤ laneRow + 2 := by
      rw [hone]
      decide
    rw [← hx]
    rcases h.under_shelf hb hcover hj hz with hblack | ⟨-, hrow⟩
    · exact Codel.ne_shade_of_black hblack
    · omega
  have hx (j : Nat) (x : Int) (h : 12 + j = x) : c.x + 12 + j = c.x + x := by omega
  exact ⟨hshade hpal (hseen 0 _ rfl Nat.one_pos _ (hx 0 12 rfl)),
    hshade (Shade.inPalette_step _ _) (hseen 1 _ rfl Nat.one_pos _ (hx 1 13 rfl)),
    hseen 2 _ rfl Nat.one_pos _ (hx 2 14 rfl),
    fun s ↦ ⟨hunder 0 _ rfl rfl _ (hx 0 12 rfl) s, hunder 1 _ rfl rfl _ (hx 1 13 rfl) s⟩⟩

private theorem black_read (h : c.Shown D view ⟨.read, n⟩) :
    view (c.x + 15 + 1, laneRow + 1) = .black := by
  have hcol := upper_read (D := D) (n := n) (s := c.shade) rfl 4 _ rfl
  have hx : c.x + 15 + 1 = c.x + (12 + 4 : Nat) := by omega
  rw [hx]
  rcases h.under hcol (Int.le_refl _) (shelf_read (by decide) _) with hblack | ⟨-, hrow⟩
  · exact hblack
  · simp only at hrow
    omega

private theorem fork_read (h : c.Shown D view ⟨.read, n⟩) {t : Shade}
    (ht : Stretch.shadeAfter c.shade Symbol.read.blocks = t) :
    Patch view t (comb (c.x + 12) laneRow [2]) := by
  obtain ⟨h12, h13, -⟩ := h.lane_read ht
  obtain ⟨h12', h13', -, hunder⟩ := h.shelf_row_read ht
  apply patch_column Nat.two_pos
  · intro j hj
    obtain rfl | rfl : j = 0 ∨ j = 1 := by omega
    · exact h12
    · exact h12'
  · exact h.above_ne (upper_read ht 0 _ rfl) t
  · exact (hunder t).1
  · intro j _
    have hbefore := h.before_behind (show Symbol.read.turn = [⟨[1], .switch⟩] from rfl)
      (show laneRow ≤ laneRow + (j : Int) by omega)
    rw [show (⟨.read, n⟩ : Instruction).symbol = .read from rfl, width_read, ht] at hbefore
    exact hbefore
  · intro j hj
    rw [show c.x + 12 + 1 = c.x + 13 by omega]
    obtain rfl | rfl : j = 0 ∨ j = 1 := by omega
    · exact Codel.ne_shade_of_white h13
    · exact Codel.ne_shade_of_ne h13' (Shade.step_ne t .add)

private theorem byte_read (h : c.Shown D view ⟨.read, n⟩) {t : Shade}
    (ht : Stretch.shadeAfter c.shade Symbol.read.blocks = t) :
    Patch view (t.step .add) (comb (c.x + 12 + 1) (laneRow + 1) [1]) := by
  obtain ⟨-, h13, -⟩ := h.lane_read ht
  obtain ⟨h12', h13', h14', hunder⟩ := h.shelf_row_read ht
  have hx : c.x + 12 + 1 = c.x + 13 := by omega
  rw [hx]
  apply patch_codel h13'
  · exact Codel.ne_shade_of_white h13
  · exact (hunder _).2
  · rw [← hx, Int.add_sub_cancel]
    exact Codel.ne_shade_of_ne h12' (Shade.step_ne t .add).symm
  · rw [show c.x + 13 + 1 = c.x + 14 by omega]
    exact Codel.ne_shade_of_white h14'

private theorem join_read (h : c.Shown D view ⟨.read, n⟩) {t : Shade}
    (ht : Stretch.shadeAfter c.shade Symbol.read.blocks = t) :
    Patch view (t.step .add) (comb (c.x + 15) laneRow [2]) := by
  obtain ⟨-, -, h14, h15, h16, -⟩ := h.lane_read ht
  obtain ⟨-, -, h14', -⟩ := h.shelf_row_read ht
  have hcol := upper_read (D := D) (n := n) ht 3 _ rfl
  apply patch_column Nat.two_pos h15
  · exact h.above_ne hcol _
  · exact h.under_ne hcol (Int.le_refl _) (shelf_read (by decide) _) _
  · intro j hj
    rw [show c.x + 15 - 1 = c.x + 14 by omega]
    obtain rfl | rfl : j = 0 ∨ j = 1 := by omega
    · exact Codel.ne_shade_of_white h14
    · exact Codel.ne_shade_of_white h14'
  · intro j hj
    obtain rfl | rfl : j = 0 ∨ j = 1 := by omega
    · rw [show c.x + 15 + 1 = c.x + 16 by omega]
      exact Codel.ne_shade_of_ne h16 (Shade.step_ne _ .add)
    · exact Codel.ne_shade_of_black h.black_read

private theorem last_read (h : c.Shown D view ⟨.read, n⟩) {t : Shade}
    (ht : Stretch.shadeAfter c.shade Symbol.read.blocks = t) :
    Patch view ((t.step .add).step .add) (comb (c.x + 15 + 1) laneRow [1]) := by
  obtain ⟨-, -, -, h15, h16, h17⟩ := h.lane_read ht
  have hbelow := h.black_read
  have hx : c.x + 15 + 1 = c.x + 16 := by omega
  rw [hx] at hbelow ⊢
  apply patch_codel h16
  · exact h.above_ne (upper_read ht 4 _ rfl) _
  · exact Codel.ne_shade_of_black hbelow
  · rw [← hx, Int.add_sub_cancel]
    exact Codel.ne_shade_of_ne (h15 0 Nat.two_pos) (Shade.step_ne _ .add).symm
  · rw [show c.x + 16 + 1 = c.x + 17 by omega]
    exact Codel.ne_shade_of_white h17

/-- A tile of `read` is seen with both tracks. -/
theorem read (h : c.Shown D view ⟨.read, n⟩) {t : Shade}
    (ht : Stretch.shadeAfter c.shade Symbol.read.blocks = t) : ReadShown view c.x t where
  fork := h.fork_read ht
  nothing := by
    obtain ⟨-, h13, h14, -⟩ := h.lane_read ht
    intro z hz hz'
    obtain rfl | rfl : z = c.x + 13 ∨ z = c.x + 14 := by omega
    · exact h13
    · exact h14
  byte := h.byte_read ht
  gap := (h.shelf_row_read ht).2.2.1
  join := h.join_read ht
  below := h.black_read
  last := h.last_read ht
  behind := (h.lane_read ht).2.2.2.2.2

end Cursor.Shown

namespace Picture

variable {p : Picture} {view : Pos → Codel} {x : Int} {t : Shade} {m : Machine}

private theorem steady_add : Operation.add.Steady := by decide

/-- The upper track leads to the last addition. -/
theorem Renders.path_nothing (hr : p.Renders view) (h : ReadShown view x t)
    (hm : 2 ≤ m.stack.length) :
    p.Path 2 ([none] ++ [some .add]) ⟨m.facing .right .left, (x + 12, laneRow)⟩
      ⟨(m.after .add 2).facing .right .left, (x + 15 + 1, laneRow)⟩ := by
  have hcross : p.Treads 2 ⟨m.facing .right .left, (x + 12, laneRow)⟩ none
      ⟨m.facing .right .left, (x + 15, laneRow)⟩ :=
    hr.treads_right h.fork Nat.two_pos (by decide) (mem_comb_top _ _ Nat.two_pos) hm rfl (by omega)
      h.nothing (h.join.shade _ (mem_comb_top _ _ Nat.two_pos))
  have hadd : p.Treads 2 ⟨m.facing .right .left, (x + 15, laneRow)⟩ (some .add)
      ⟨(m.after .add 2).facing .right .left, (x + 15 + 1, laneRow)⟩ :=
    hr.treads_end h.join Nat.two_pos (by decide) (mem_comb_top _ _ Nat.two_pos) hm rfl
      (h.last.shade _ (mem_comb_top _ _ Nat.one_pos)) (Machine.execute_facing steady_add _ _ _ _)
  exact hcross.path.trans hadd.path

/-- The lower track makes an addition of its own. -/
theorem Renders.path_byte (hr : p.Renders view) (h : ReadShown view x t)
    (hm : 3 ≤ m.stack.length) :
    p.Path 2 ([some .add] ++ [none] ++ [some .add]) ⟨m.facing .right .right, (x + 12, laneRow)⟩
      ⟨((m.after .add 2).after .add 2).facing .right .left, (x + 15 + 1, laneRow)⟩ := by
  have htwo : 2 ≤ (m.after .add 2).stack.length :=
    Machine.leaves_le_length steady_add m 2 (by decide) hm
  have hadd : p.Treads 2 ⟨m.facing .right .right, (x + 12, laneRow)⟩ (some .add)
      ⟨(m.after .add 2).facing .right .right, (x + 12 + 1, laneRow + 1)⟩ :=
    hr.treads_end h.fork Nat.two_pos (by decide) (mem_comb_top _ _ Nat.two_pos) (by omega) (by decide)
      (h.byte.shade _ (mem_comb_top _ _ Nat.one_pos)) (Machine.execute_facing steady_add _ _ _ _)
  have hcross : p.Treads 2 ⟨(m.after .add 2).facing .right .right, (x + 12 + 1, laneRow + 1)⟩ none
      ⟨(m.after .add 2).facing .right .right, (x + 15, laneRow + 1)⟩ := by
    apply hr.treads_right h.byte Nat.one_pos (by decide) (mem_comb_top _ _ Nat.one_pos) htwo (by decide)
      (by omega)
    · intro z hz hz'
      rw [show z = x + 14 by omega]
      exact h.gap
    · exact h.join.shade (x + 15, laneRow + 1) (mem_comb_row (x + 15) laneRow Nat.one_lt_two)
  have hlast : p.Treads 2 ⟨(m.after .add 2).facing .right .right, (x + 15, laneRow + 1)⟩
      (some .add) ⟨((m.after .add 2).after .add 2).facing .right .left, (x + 15 + 1, laneRow)⟩ :=
    hr.treads_column_op h.join Nat.two_pos (mem_comb_row (x + 15) laneRow Nat.one_lt_two)
      (clear_of_row (show (4 : Int) ≤ laneRow + 1 by decide)) htwo h.below
      (h.last.shade _ (mem_comb_top _ _ Nat.one_pos)) (Machine.execute_facing steady_add _ _ _ _)
  exact (hadd.path.trans hcross.path).trans hlast.path

private theorem Renders.treads_behind (hr : p.Renders view) (h : ReadShown view x t) {k : Shade}
    (hnext : view (x + 18, laneRow) = .shade k) (hm : 2 ≤ m.stack.length) :
    p.Treads 2 ⟨m.facing .right .left, (x + 15 + 1, laneRow)⟩ none
      ⟨m.facing .right .left, (x + 18, laneRow)⟩ := by
  apply hr.treads_right h.last Nat.one_pos (by decide) (mem_comb_top _ _ Nat.one_pos) hm rfl
    (by omega) _ hnext
  intro z hz hz'
  rw [show z = x + 17 by omega]
  exact h.behind

/-- A walk passes through a tile of `read`, on the track that the test tells. -/
theorem Renders.path_read {D n : Nat} {c : Cursor} (hr : p.Renders view)
    (h : c.Shown D view ⟨.read, n⟩) (hm : 3 ≤ m.stack.length) :
    ∃ ops, ops ≠ [] ∧ p.Path 2 ops ⟨m.facing .right .left, (c.x, laneRow)⟩
      ⟨(m.act .read).facing .right .left, ((c.next D ⟨.read, n⟩).x, laneRow)⟩ := by
  have hseen := h.read rfl
  have hwidth : Stretch.width (Instruction.symbol ⟨.read, n⟩).blocks = 12 :=
    Cursor.Shown.width_read
  have hx : (c.next D ⟨.read, n⟩).x = c.x + 18 := by
    have hlen (rows : Nat) (t : Shade) : (Symbol.read.behind rows t).length = 6 := rfl
    rw [Cursor.x_next, hlen, hwidth]
    omega
  have hnext := h.after
  have htwo := Nat.le_of_succ_le (Machine.three_le_act hm .read)
  rw [hx] at hnext ⊢
  have hleave := hr.treads_behind hseen hnext htwo
  obtain ⟨v, s, hs⟩ := List.exists_cons_of_length_pos (show 0 < m.stack.length by omega)
  have hlen : 2 ≤ s.length := by
    rw [hs, List.length_cons] at hm
    omega
  cases hin : m.input with
  | nil =>
    have htest := hr.path_blocks h rfl hm (Machine.execute_read_nil hs hin 1)
    have hheight : 2 ≤ (m.setStack (-1 :: 1 :: s)).stack.length := by
      simp only [Machine.stack_setStack, List.length_cons]
      omega
    rw [hwidth] at htest
    rw [Machine.act_read_nil hs hin] at hleave ⊢
    refine ⟨_, ?_, (htest.trans (hr.path_nothing hseen hheight)).trans hleave.path⟩
    exact List.append_ne_nil_of_right_ne_nil _ (List.cons_ne_nil _ _)
  | cons b rest =>
    have htest := hr.path_blocks h rfl hm (Machine.execute_read_cons hs hin 1)
    have hheight : 3 ≤ (Machine.setStack { m with input := rest }
        (b.toNat :: -1 :: 1 :: s)).stack.length := by
      simp only [Machine.stack_setStack, List.length_cons]
      omega
    rw [hwidth] at htest
    rw [Machine.act_read_cons hs hin] at hleave ⊢
    refine ⟨_, ?_, (htest.trans (hr.path_byte hseen hheight)).trans hleave.path⟩
    exact List.append_ne_nil_of_right_ne_nil _ (List.cons_ne_nil _ _)

end Picture

end BrainPiet
