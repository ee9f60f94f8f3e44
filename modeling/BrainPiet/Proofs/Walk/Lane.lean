import BrainPiet.Proofs.Machine.Effect
import BrainPiet.Proofs.Shade
import BrainPiet.Proofs.Walk.Comb

/-!
# Lanes

A lane is a row of blocks, each a comb, and each left to the right by an operation. It is read off
the view as a row of bars, one for each column: where the bars are shown, and framed by other
codels, each block is a patch. A walk that comes along a lane executes its operations.
-/

namespace BrainPiet

/-- A block of a lane: the heights of its columns, and the operation by which it is left. -/
structure Stretch where
  heights : List Nat
  op : Operation
  deriving DecidableEq, Repr

/-- A column of a lane as it is seen. -/
structure Bar where
  height : Nat
  shade : Shade
  deriving DecidableEq, Repr

namespace Stretch

/-- The emission that a block stands for. -/
def emission (b : Stretch) : Emission := ⟨b.op, b.heights.sum⟩

/-- The block of an emission. -/
def ofEmission (e : Emission) : Stretch :=
  ⟨(Column.block e.size.toNat .black).map (·.height), e.op⟩

/-- The block has columns, and each has a codel. -/
def Sound (b : Stretch) : Prop := b.heights ≠ [] ∧ ∀ h ∈ b.heights, 0 < h

instance (b : Stretch) : Decidable b.Sound := inferInstanceAs (Decidable (_ ∧ _))

/-- On this side too the block is left by the top of its last column. -/
def Leads (side : Side) (b : Stretch) : Prop := side = .left ∨ b.heights.getLast? = some 1

instance (side : Side) (b : Stretch) : Decidable (b.Leads side) :=
  inferInstanceAs (Decidable (_ ∨ _))

/-- The number of columns of a lane. -/
def width (lane : List Stretch) : Nat := (lane.map (·.heights.length)).sum

/-- The shade behind a lane. -/
def shadeAfter (s : Shade) (lane : List Stretch) : Shade := lane.foldl (fun s b ↦ s.step b.op) s

/-- The columns of a lane. -/
def bars : Shade → List Stretch → List Bar
  | _, [] => []
  | s, b :: lane => b.heights.map (fun h ↦ ⟨h, s⟩) ++ bars (s.step b.op) lane

@[simp] theorem width_nil : width [] = 0 := rfl

@[simp] theorem width_cons (b : Stretch) (lane : List Stretch) :
    width (b :: lane) = b.heights.length + width lane := by
  simp [width]

@[simp] theorem shadeAfter_nil (s : Shade) : shadeAfter s [] = s := rfl

@[simp] theorem shadeAfter_cons (s : Shade) (b : Stretch) (lane : List Stretch) :
    shadeAfter s (b :: lane) = shadeAfter (s.step b.op) lane := rfl

/-- The columns of a block hold as many codels as its size says. -/
theorem sum_height_block (size : Nat) (c : Rgb) :
    ((Column.block size c).map (·.height)).sum = size := by
  have h (n : Nat) : ((List.replicate n (⟨2, c⟩ : Column)).map (·.height)).sum = 2 * n := by
    simp [Nat.mul_comm]
  simp only [Column.block, List.map_append, List.sum_append, h]
  split <;> simp <;> omega

/-- An emission of a positive size is what its block stands for. -/
theorem emission_ofEmission {e : Emission} (h : 1 ≤ e.size) : (ofEmission e).emission = e := by
  obtain ⟨op, size⟩ := e
  simp only [ofEmission, emission, sum_height_block, Emission.mk.injEq, true_and] at h ⊢
  omega

end Stretch

/-- The bars are seen from a corner on. -/
def Shows (view : Pos → Codel) (x y : Int) (bars : List Bar) : Prop :=
  ∀ (i : Nat) (b : Bar), bars[i]? = some b →
    ∀ j : Nat, j < b.height → view (x + i, y + j) = .shade b.shade

/-- No codel beside a bar extends it, unless it belongs to the next or to the last bar. -/
structure Framed (view : Pos → Codel) (x y : Int) (bars : List Bar) : Prop where
  above : ∀ (i : Nat) (b : Bar), bars[i]? = some b → view (x + i, y - 1) ≠ .shade b.shade
  below : ∀ (i : Nat) (b : Bar), bars[i]? = some b → view (x + i, y + b.height) ≠ .shade b.shade
  right : ∀ (i : Nat) (b : Bar), bars[i]? = some b → ∀ j : Nat, j < b.height →
    view (x + i + 1, y + j) = .shade b.shade →
      ∃ b' : Bar, bars[i + 1]? = some b' ∧ b'.shade = b.shade ∧ j < b'.height
  left : ∀ (i : Nat) (b : Bar), bars[i]? = some b → ∀ j : Nat, j < b.height →
    view (x + i - 1, y + j) = .shade b.shade →
      ∃ (k : Nat) (b' : Bar), i = k + 1 ∧ bars[k]? = some b' ∧ b'.shade = b.shade ∧ j < b'.height

/-- Bars are framed by plain codels and by one another, and a bar of another shade may stand above or
below one that has no higher neighbour. -/
theorem Framed.of_low {view : Pos → Codel} {x y : Int} {bars : List Bar}
    (hshow : Shows view x y bars)
    (habove : ∀ (i : Nat) (b : Bar), bars[i]? = some b → view (x + i, y - 1) ≠ .shade b.shade)
    (hbelow : ∀ (i : Nat) (b : Bar), bars[i]? = some b →
      view (x + i, y + b.height) ≠ .shade b.shade)
    (hlow : ∀ (i : Nat) (b : Bar), bars[i]? = some b → ∀ b' ∈ bars, ∀ j : Nat,
      b.height ≤ j → j < b'.height → ∀ s, view (x + i, y + j) ≠ .shade s)
    (hbefore : ∀ b, bars[0]? = some b → ∀ j : Nat, j < b.height →
      view (x - 1, y + j) ≠ .shade b.shade)
    (hafter : ∀ b, bars[bars.length - 1]? = some b → ∀ j : Nat, j < b.height →
      view (x + bars.length, y + j) ≠ .shade b.shade) : Framed view x y bars := by
  refine ⟨habove, hbelow, ?_, ?_⟩
  · intro i b hi j hj hv
    have hlt : i < bars.length := (List.getElem?_eq_some_iff.mp hi).1
    by_cases hlast : i + 1 < bars.length
    · have hi' := List.getElem?_eq_getElem hlast
      have hcol : x + (i : Int) + 1 = x + ((i + 1 : Nat) : Int) := by omega
      rw [hcol] at hv
      by_cases hj' : j < bars[i + 1].height
      · refine ⟨_, hi', ?_, hj'⟩
        rw [hshow (i + 1) _ hi' j hj', Codel.shade.injEq] at hv
        exact hv
      · exact absurd hv
          (hlow (i + 1) _ hi' b (List.mem_of_getElem? hi) j (by omega) hj b.shade)
    · refine absurd ?_ (hafter b (by rwa [show bars.length - 1 = i by omega]) j hj)
      rw [← hv]
      exact congrArg view (Prod.ext (by simp only; omega) rfl)
  · intro i b hi j hj hv
    cases i with
    | zero =>
      refine absurd ?_ (hbefore b hi j hj)
      rw [← hv]
      exact congrArg view (Prod.ext (by simp) rfl)
    | succ k =>
      have hlt : k + 1 < bars.length := (List.getElem?_eq_some_iff.mp hi).1
      have hk := List.getElem?_eq_getElem (show k < bars.length by omega)
      have hcol : x + ((k + 1 : Nat) : Int) - 1 = x + (k : Int) := by omega
      rw [hcol] at hv
      by_cases hj' : j < bars[k].height
      · refine ⟨k, _, rfl, hk, ?_, hj'⟩
        rw [hshow k _ hk j hj', Codel.shade.injEq] at hv
        exact hv
      · exact absurd hv (hlow k _ hk b (List.mem_of_getElem? hi) j (by omega) hj b.shade)

/-- Each block of a lane is a patch, and the next shade lies to the right of it. -/
def Lane (view : Pos → Codel) (y : Int) : Int → Shade → List Stretch → Prop
  | _, _, [] => True
  | x, s, b :: lane =>
    Patch view s (comb x y b.heights) ∧
      view (x + b.heights.length, y) = .shade (s.step b.op) ∧
      Lane view y (x + b.heights.length) (s.step b.op) lane

variable {view : Pos → Codel} {x y : Int} {s : Shade}

private theorem Shows.drop {pre post : List Bar} (h : Shows view x y (pre ++ post)) :
    Shows view (x + pre.length) y post := by
  intro i b hb j hj
  have hpre : (pre ++ post)[pre.length + i]? = some b := by
    rw [List.getElem?_append_right (by omega), Nat.add_sub_cancel_left]
    exact hb
  rw [← h (pre.length + i) b hpre j hj]
  exact congrArg view (Prod.ext (by simp only; omega) rfl)

private theorem patch_of_framed {hs : List Nat} {rest : List Bar} (hne : hs ≠ [])
    (hpos : ∀ h ∈ hs, 0 < h)
    (hshow : Shows view x y (hs.map (⟨·, s⟩) ++ rest))
    (hframe : Framed view x y (hs.map (⟨·, s⟩) ++ rest))
    (hnext : ∀ b : Bar, rest[0]? = some b → b.shade ≠ s) : Patch view s (comb x y hs) := by
  have hget {i h : Nat} (hi : hs[i]? = some h) :
      (hs.map (fun h ↦ (⟨h, s⟩ : Bar)) ++ rest)[i]? = some ⟨h, s⟩ := by
    have hlt : i < hs.length := (List.getElem?_eq_some_iff.mp hi).1
    rw [List.getElem?_append_left (by simpa using hlt), List.getElem?_map, hi]
    rfl
  have hback {i : Nat} {b : Bar} (hi : (hs.map (fun h ↦ (⟨h, s⟩ : Bar)) ++ rest)[i]? = some b)
      (hb : b.shade = s) (hlt : i ≤ hs.length) : hs[i]? = some b.height := by
    rcases Nat.lt_or_eq_of_le hlt with hlt | rfl
    · rw [List.getElem?_append_left (by simpa using hlt), List.getElem?_map] at hi
      obtain ⟨h, hh, rfl⟩ := Option.map_eq_some_iff.mp hi
      exact hh
    · rw [List.getElem?_append_right (by simp)] at hi
      exact absurd hb (hnext b (by simpa using hi))
  apply patch_comb hne hpos
  · intro q hq
    obtain ⟨i, h, hi, hx, hy1, hy2⟩ := mem_comb.mp hq
    have := hshow i ⟨h, s⟩ (hget hi) (q.2 - y).toNat (by simp only; omega)
    rw [← this]
    exact congrArg view (Prod.ext hx (by simp only; omega))
  · intro q hq d hd
    obtain ⟨i, h, hi, hx, hy1, hy2⟩ := mem_comb.mp hq
    have hilt : i < hs.length := (List.getElem?_eq_some_iff.mp hi).1
    obtain ⟨qx, qy⟩ := q
    simp only at hx hy1 hy2
    subst hx
    obtain ⟨j, rfl⟩ : ∃ j : Nat, qy = y + j := ⟨(qy - y).toNat, by omega⟩
    have hj : j < h := by omega
    simp only [Pos.toward] at hd ⊢
    cases d with
    | right =>
      simp only [Direction.dx, Direction.dy, Int.add_zero] at hd ⊢
      obtain ⟨b', hb', hs', hj'⟩ := hframe.right i ⟨h, s⟩ (hget hi) j hj hd
      exact mem_comb.mpr ⟨i + 1, b'.height, hback hb' hs' (by omega), by simp only; omega,
        by simp only; omega, by simp only; omega⟩
    | left =>
      simp only [Direction.dx, Direction.dy, Int.add_zero] at hd ⊢
      obtain ⟨k, b', rfl, hb', hs', hj'⟩ := hframe.left i ⟨h, s⟩ (hget hi) j hj hd
      exact mem_comb.mpr ⟨k, b'.height, hback hb' hs' (by omega), by simp only; omega,
        by simp only; omega, by simp only; omega⟩
    | down =>
      simp only [Direction.dx, Direction.dy, Int.add_zero] at hd ⊢
      by_cases hlast : j + 1 = h
      · subst hlast
        refine absurd ?_ (hframe.below i ⟨j + 1, s⟩ (hget hi))
        rw [← hd]
        exact congrArg view (Prod.ext rfl (by simp only; omega))
      · exact mem_comb.mpr ⟨i, h, hi, rfl, by simp only; omega, by simp only; omega⟩
    | up =>
      simp only [Direction.dx, Direction.dy, Int.add_zero] at hd ⊢
      by_cases hfirst : j = 0
      · subst hfirst
        refine absurd ?_ (hframe.above i ⟨h, s⟩ (hget hi))
        rw [← hd]
        exact congrArg view (Prod.ext rfl (by simp only; omega))
      · exact mem_comb.mpr ⟨i, h, hi, rfl, by simp only; omega, by simp only; omega⟩

private theorem Framed.drop {hs : List Nat} {rest : List Bar} (hne : hs ≠ [])
    (hframe : Framed view x y (hs.map (⟨·, s⟩) ++ rest))
    (hnext : ∀ b : Bar, rest[0]? = some b → b.shade ≠ s) :
    Framed view (x + hs.length) y rest := by
  have hlen : 0 < hs.length := List.length_pos_iff.mpr hne
  have hget {i : Nat} {b : Bar} (hi : rest[i]? = some b) :
      (hs.map (fun h ↦ (⟨h, s⟩ : Bar)) ++ rest)[hs.length + i]? = some b := by
    rw [List.getElem?_append_right (by simp)]
    simpa using hi
  have hcol (i : Nat) (k : Int) : view (x + hs.length + i, k) = view (x + (hs.length + i : Nat), k) :=
    congrArg view (Prod.ext (by simp only; omega) rfl)
  refine ⟨?_, ?_, ?_, ?_⟩
  · intro i b hi
    rw [hcol]
    exact hframe.above _ b (hget hi)
  · intro i b hi
    rw [hcol]
    exact hframe.below _ b (hget hi)
  · intro i b hi j hj hd
    obtain ⟨b', hb', hs', hj'⟩ := hframe.right (hs.length + i) b (hget hi) j hj (by
      rw [← hd]
      exact congrArg view (Prod.ext (by simp only; omega) rfl))
    rw [Nat.add_assoc, List.getElem?_append_right (by simp)] at hb'
    exact ⟨b', by simpa using hb', hs', hj'⟩
  · intro i b hi j hj hd
    obtain ⟨k, b', hk, hb', hs', hj'⟩ := hframe.left (hs.length + i) b (hget hi) j hj (by
      rw [← hd]
      exact congrArg view (Prod.ext (by simp only; omega) rfl))
    cases i with
    | zero =>
      -- the bar before belongs to the first block and has another shade
      rw [List.getElem?_append_left (by simp; omega), List.getElem?_map] at hb'
      obtain ⟨h, _, rfl⟩ := Option.map_eq_some_iff.mp hb'
      exact absurd hs'.symm (hnext b hi)
    | succ i =>
      obtain rfl : k = hs.length + i := by omega
      rw [List.getElem?_append_right (by simp)] at hb'
      exact ⟨i, b', rfl, by simpa using hb', hs', hj'⟩

/-- The first bar of a lane has the shade in the beginning. -/
theorem head_bars {lane : List Stretch} (hsound : ∀ b ∈ lane, b.Sound) {b : Bar}
    (hb : (Stretch.bars s lane)[0]? = some b) : b.shade = s := by
  cases lane with
  | nil => cases hb
  | cons st lane =>
    obtain ⟨h, hs, heq⟩ := List.exists_cons_of_ne_nil (hsound st List.mem_cons_self).1
    simp only [Stretch.bars, heq, List.map_cons, List.cons_append, List.getElem?_cons_zero,
      Option.some.injEq] at hb
    rw [← hb]

/-- A row of bars that is shown and framed is a lane, if the last shade lies behind it. -/
theorem lane_of_framed {lane : List Stretch} (hsound : ∀ b ∈ lane, b.Sound)
    (hshow : Shows view x y (Stretch.bars s lane)) (hframe : Framed view x y (Stretch.bars s lane))
    (hend : view (x + Stretch.width lane, y) = .shade (Stretch.shadeAfter s lane)) :
    Lane view y x s lane := by
  induction lane generalizing x s with
  | nil => trivial
  | cons b lane ih =>
    obtain ⟨hne, hpos⟩ := hsound b List.mem_cons_self
    have hrest : ∀ c ∈ lane, c.Sound := fun c hc ↦ hsound c (List.mem_cons_of_mem _ hc)
    have hnext : ∀ c : Bar, (Stretch.bars (s.step b.op) lane)[0]? = some c → c.shade ≠ s := by
      intro c hc
      rw [head_bars hrest hc]
      exact Shade.step_ne s b.op
    have hshow' : Shows view (x + b.heights.length) y (Stretch.bars (s.step b.op) lane) := by
      have := hshow.drop
      simpa using this
    have hend' : view (x + b.heights.length + Stretch.width lane, y) =
        .shade (Stretch.shadeAfter (s.step b.op) lane) := by
      rw [← Stretch.shadeAfter_cons, ← hend, Stretch.width_cons]
      exact congrArg view (Prod.ext (by simp only; omega) rfl)
    refine ⟨patch_of_framed hne hpos hshow hframe hnext, ?_,
      ih hrest hshow' (hframe.drop hne hnext) hend'⟩
    cases lane with
    | nil => simpa using hend'
    | cons c lane =>
      obtain ⟨hcne, hcpos⟩ := hrest c List.mem_cons_self
      obtain ⟨h, hs, heq⟩ := List.exists_cons_of_ne_nil hcne
      have hfirst := hshow' 0 ⟨h, s.step b.op⟩ (by simp [Stretch.bars, heq]) 0
        (hcpos h (by rw [heq]; exact List.mem_cons_self))
      simpa using hfirst

namespace Picture

variable {p : Picture} {least : Nat}

/-- A walk to the right leaves a comb by the top of its last column. -/
theorem Renders.opening?_comb (hr : p.Renders view) {hs : List Nat} (hne : hs ≠ [])
    (hpos : ∀ h ∈ hs, 0 < h) {side : Side} (hside : side = .left ∨ hs.getLast? = some 1) {t : Shade}
    (hv : view (x + hs.length, y) = .shade t) (m : Machine) :
    p.opening? (comb x y hs) Adjustment.attempts (m.facing .right side) =
      some ((x + hs.length, y), m.facing .right side) := by
  have hedge := edge_comb (x := x) (y := y) hne hpos hside
  have hnext : Pos.toward (x + hs.length - 1, y) .right = (x + hs.length, y) := by
    simp [Pos.toward, Direction.dx, Direction.dy]
  have hopen := hr.opening?_open hedge (by rw [hnext, hv]; exact Codel.noConfusion) .flip
    Adjustment.attempts.tail m
  rw [hnext] at hopen
  exact hopen

/-- To the right of a comb lies another shade: the operation between the two is executed. -/
theorem Renders.treads_comb (hr : p.Renders view) {hs : List Nat} (hne : hs ≠ [])
    (hpos : ∀ h ∈ hs, 0 < h) (hb : Patch view s (comb x y hs)) {q : Pos} (hq : q ∈ comb x y hs)
    (hclear : Clear q) {m m' : Machine} (hheight : least ≤ m.stack.length) {side : Side}
    (hside : side = .left ∨ hs.getLast? = some 1) {op : Operation}
    (hv : view (x + hs.length, y) = .shade (s.step op))
    (hex : Machine.execute op hs.sum (m.facing .right side) = .ok () m') :
    p.Treads least ⟨m.facing .right side, q⟩ (some op) ⟨m', (x + hs.length, y)⟩ := by
  have hopen := hr.opening?_comb hne hpos hside hv m
  rw [← length_comb x y hs] at hex
  exact hr.treads_shade (m := m.facing .right side) hb hq hclear hheight hopen hv
    (Shade.between_step s op) hex

/-- A walk along a lane executes the operations of its blocks. -/
theorem Renders.path_lane (hr : p.Renders view) (hy : 4 ≤ y) {side : Side} {lane : List Stretch}
    (hsound : ∀ b ∈ lane, b.Sound ∧ b.op.Steady ∧ b.Leads side) (hlane : Lane view y x s lane)
    {m : Machine} (hholds : m.Holds least (lane.map Stretch.emission)) :
    p.Path least (lane.map (some ·.op)) ⟨m.facing .right side, (x, y)⟩
      ⟨(m.afterAll (lane.map Stretch.emission)).facing .right side,
        (x + Stretch.width lane, y)⟩ := by
  induction lane generalizing x s m with
  | nil =>
    simp only [List.map_nil, Machine.afterAll_nil, Stretch.width_nil, Int.natCast_zero,
      Int.add_zero]
    exact .nil _
  | cons b lane ih =>
    obtain ⟨⟨hne, hpos⟩, hsteady, hleads⟩ := hsound b List.mem_cons_self
    obtain ⟨hpatch, hnext, hrest⟩ := hlane
    obtain ⟨hheight, hholds⟩ := hholds
    have hcorner := corner_mem_comb x y hne hpos
    have hstep := hr.treads_comb hne hpos hpatch hcorner (clear_of_row hy) hheight hleads hnext
      (Machine.execute_facing hsteady m b.heights.sum .right side)
    have hpath := ih (fun c hc ↦ hsound c (List.mem_cons_of_mem _ hc)) hrest hholds
    have hwidth : x + (b.heights.length : Int) + (Stretch.width lane : Int) =
        x + (Stretch.width (b :: lane) : Int) := by
      rw [Stretch.width_cons]
      omega
    rw [hwidth] at hpath
    exact .cons hstep hpath

end Picture

end BrainPiet
