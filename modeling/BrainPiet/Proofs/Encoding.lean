import BrainPiet.Proofs.Machine.Progress
import BrainPiet.Proofs.Walk.Tile

/-!
# Operations written along a row

Operations that are written one after the other on a fresh session make a row of blocks, each in one
shade and with as many codels as its size says. A walk from the corner reads them back: it leaves
each block by the operation that was written, and does to the machine what that operation does.
-/

namespace BrainPiet

namespace Machine

/-- Executes emissions one after the other, and lists what a walk would have executed. -/
def replay (code : List Emission) : EStateM WalkFault Machine (List (Option Operation)) := fun m ↦
  match executeAll code m with
  | .ok _ m' => .ok (code.map (some ·.op)) m'
  | .error fault m' => .error (.number fault) m'

variable {e : Emission} {code : List Emission} {m m' : Machine}

private theorem replay_cons_of_ok (h : execute e.op e.size m = .ok () m') :
    replay (e :: code) m = ((some e.op :: ·) <$> replay code) m' := by
  change _ = EStateM.map _ _ _
  have hall : executeAll (e :: code) m = executeAll code m' :=
    forM_cons_of_ok (f := fun e : Emission ↦ execute e.op e.size) h
  rw [EStateM.map, replay, replay, hall]
  cases executeAll code m' <;> rfl

private theorem replay_cons_of_error {fault : NumberFault} (h : execute e.op e.size m = .error fault m') :
    replay (e :: code) m = .error (.number fault) m' := by
  have hall : executeAll (e :: code) m = .error fault m' :=
    forM_cons_of_error (f := fun e : Emission ↦ execute e.op e.size) h
  rw [replay, hall]

private theorem executeAll_facing {d : Direction} {s : Side}
    (hcode : ∀ e ∈ code, e.op ≠ .pointer ∧ e.op ≠ .switch)
    (h : executeAll code (m.facing d s) = .ok () m' ∨
      ∃ fault, executeAll code (m.facing d s) = .error fault m') : m' = m'.facing d s := by
  induction code generalizing m with
  | nil =>
    rcases h with h | ⟨fault, h⟩
    · cases h
      rfl
    · cases h
  | cons e code ih =>
    obtain ⟨hp, hs⟩ := hcode e List.mem_cons_self
    cases hex : execute e.op e.size (m.facing d s) with
    | ok _ mid =>
      have hmid : mid = mid.facing d s := (alters_of_ok hex).facing hp hs
      have hall : executeAll (e :: code) (m.facing d s) = executeAll code mid :=
        forM_cons_of_ok (f := fun e : Emission ↦ execute e.op e.size) hex
      rw [hall, hmid] at h
      exact ih (fun c hc ↦ hcode c (List.mem_cons_of_mem _ hc)) h
    | error fault mid =>
      have hall : executeAll (e :: code) (m.facing d s) = .error fault mid :=
        forM_cons_of_error (f := fun e : Emission ↦ execute e.op e.size) hex
      rw [hall] at h
      rcases h with h | ⟨fault', h⟩
      · cases h
      · cases h
        exact (alters_of_error hex).facing hp hs

end Machine

namespace Picture

/-- Takes some steps from a position, fewer where the walk halts, and lists what they executed. -/
def steps (p : Picture) : (count : Nat) → Pos → EStateM WalkFault Machine (List (Option Operation))
  | 0, _ => pure []
  | count + 1, pos => do
    let arrival ← p.step pos
    match arrival.pos with
    | none => pure [arrival.op]
    | some next => (arrival.op :: ·) <$> p.steps count next

variable {p : Picture} {view : Pos → Codel} {x y : Int} {s : Shade}

/-- A walk along a lane replays the operations of its blocks. -/
theorem Renders.steps_lane (hr : p.Renders view) {lane : List Stretch}
    (hsound : ∀ b ∈ lane, b.Sound ∧ b.op ≠ .pointer ∧ b.op ≠ .switch) (hlane : Lane view y x s lane)
    (m : Machine) :
    p.steps lane.length (x, y) (m.facing .right .left) =
      Machine.replay (lane.map Stretch.emission) (m.facing .right .left) := by
  induction lane generalizing x s m with
  | nil => rfl
  | cons b lane ih =>
    obtain ⟨⟨hne, hpos⟩, hpointer, hswitch⟩ := hsound b List.mem_cons_self
    obtain ⟨hpatch, hnext, hrest⟩ := hlane
    have hcorner := corner_mem_comb x y hne hpos
    have hopen := hr.opening?_comb hne hpos (.inl rfl) hnext m
    have hop := Shade.between_step s b.op
    have hlen : Machine.execute b.op (comb x y b.heights).length (m.facing .right .left) =
        Machine.execute b.op b.heights.sum (m.facing .right .left) := by
      rw [length_comb]
    rw [List.length_cons, List.map_cons, steps]
    cases hex : Machine.execute b.op b.heights.sum (m.facing .right .left) with
    | ok _ m' =>
      have hstep := hr.step_shade hpatch hcorner hopen hnext hop (hlen.trans hex)
      have hm' : m' = m'.facing .right .left :=
        (Machine.alters_of_ok hex).facing hpointer hswitch
      have hlater := ih (fun c hc ↦ hsound c (List.mem_cons_of_mem _ hc)) hrest m'
      rw [← hm'] at hlater
      rw [bind_of_ok hstep, Machine.replay_cons_of_ok hex]
      change EStateM.map _ _ _ = EStateM.map _ _ _
      rw [EStateM.map, EStateM.map, hlater]
      rfl
    | error fault m' =>
      have hstep := hr.step_fault hpatch hcorner hopen hnext hop (hlen.trans hex)
      rw [bind_of_error hstep, Machine.replay_cons_of_error hex]

end Picture

namespace Stretch

private theorem bars_append (s : Shade) (lane more : List Stretch) :
    bars s (lane ++ more) = bars s lane ++ bars (shadeAfter s lane) more := by
  induction lane generalizing s with
  | nil => rfl
  | cons b lane ih => rw [List.cons_append, bars, bars, ih, shadeAfter_cons, List.append_assoc]

private theorem sound_ofEmission {e : Emission} (h : 1 ≤ e.size) : (ofEmission e).Sound := by
  constructor
  · intro hnil
    have hsum := Stretch.sum_height_block e.size.toNat .black
    rw [show (Column.block e.size.toNat .black).map (·.height) = [] from hnil, List.sum_nil] at hsum
    omega
  · intro k hk
    obtain ⟨c, hc, rfl⟩ := List.mem_map.mp hk
    rcases List.mem_append.mp hc with hc | hc
    · rw [(List.mem_replicate.mp hc).2]
      decide
    · split at hc
      · rw [List.mem_singleton.mp hc]
        decide
      · cases hc

end Stretch

/-- Columns are seen from a corner on, and black everywhere else. -/
structure Grounded (view : Pos → Codel) (x y : Int) (cs : List Column) : Prop where
  paints : Paints view x y cs
  blank : ∀ q, Column.cell x y cs q = none → view q = .black

/-- A row of blocks shows its first shade in the corner. -/
theorem Paints.corner {view : Pos → Codel} {x y : Int} {s : Shade} {b : Stretch}
    {lane : List Stretch} (h : Paints view x y ((Stretch.bars s (b :: lane)).map Bar.column))
    (hs : s.InPalette) (hb : b.Sound) : view (x, y) = .shade s := by
  obtain ⟨n, rest, heq⟩ := List.exists_cons_of_ne_nil hb.1
  have hshow := h.shows fun c hc ↦ Stretch.inPalette_of_mem_bars hs hc
  have hfirst : (Stretch.bars s (b :: lane))[0]? = some ⟨n, s⟩ := by
    rw [Stretch.bars, heq]
    rfl
  have hn : 0 < n := hb.2 n (heq ▸ List.mem_cons_self)
  simpa using hshow 0 _ hfirst 0 hn

namespace Grounded

variable {view : Pos → Codel} {x y : Int} {s : Shade}

/-- Above and below a bar there is black. -/
theorem beside {bars : List Bar} (h : Grounded view x y (bars.map Bar.column)) {i : Nat} {c : Bar}
    (hi : bars[i]? = some c) {z : Int} (hz : z < y ∨ y + c.height ≤ z) :
    view (x + i, z) = .black := by
  apply h.blank
  apply Column.cell_below (c := c.column) _ hz
  rw [List.getElem?_map, hi]
  rfl

/-- Bars on black ground are framed, if the next bar has another shade than the last of them. -/
theorem framed {pre post : List Bar} {first : Bar}
    (h : Grounded view x y ((pre ++ first :: post).map Bar.column))
    (hpal : ∀ c ∈ pre ++ first :: post, c.shade.InPalette)
    (hlast : ∀ c, pre.getLast? = some c → first.shade ≠ c.shade) : Framed view x y pre := by
  have hshow := h.paints.shows hpal
  have hget {i : Nat} {c : Bar} (hi : pre[i]? = some c) : (pre ++ first :: post)[i]? = some c := by
    rw [List.getElem?_append_left (List.getElem?_eq_some_iff.mp hi).1, hi]
  have hfirst : (pre ++ first :: post)[pre.length]? = some first := by
    rw [List.getElem?_append_right (Nat.le_refl _), Nat.sub_self]
    rfl
  apply Framed.of_low fun i c hi ↦ hshow i c (hget hi)
  · intro i c hi
    exact Codel.ne_shade_of_black (h.beside (hget hi) (.inl (by omega)))
  · intro i c hi
    exact Codel.ne_shade_of_black (h.beside (hget hi) (.inr (Int.le_refl _)))
  · intro i c hi c' _ j hj _ t
    exact Codel.ne_shade_of_black (h.beside (hget hi) (.inr (by omega)))
  · intro c _ j _
    exact Codel.ne_shade_of_black (h.blank _ (Column.cell_outside _ (.inl (by simp only; omega))))
  · intro c hc j _
    rw [← List.getLast?_eq_getElem?] at hc
    by_cases hj : j < first.height
    · exact Codel.ne_shade_of_ne (hshow _ _ hfirst j hj) (hlast c hc)
    · exact Codel.ne_shade_of_black (h.beside hfirst (.inr (by omega)))

/-- Blocks on black ground are a lane, as far as another block follows. -/
theorem lane {blocks more : List Stretch} {b : Stretch}
    (h : Grounded view x y ((Stretch.bars s (blocks ++ b :: more)).map Bar.column))
    (hs : s.InPalette) (hsound : ∀ c ∈ blocks ++ b :: more, c.Sound) : Lane view y x s blocks := by
  have hbefore : ∀ c ∈ blocks, c.Sound := fun c hc ↦ hsound c (List.mem_append_left _ hc)
  have hb : b.Sound := hsound b (List.mem_append_right _ List.mem_cons_self)
  have hpal : ∀ c ∈ Stretch.bars s (blocks ++ b :: more), c.shade.InPalette :=
    fun c hc ↦ Stretch.inPalette_of_mem_bars hs hc
  have hpaint := h.paints
  rw [Stretch.bars_append] at h hpal hpaint
  rw [List.map_append] at hpaint
  apply lane_of_framed hbefore
  · exact hpaint.left.shows fun c hc ↦ Stretch.inPalette_of_mem_bars hs hc
  · obtain ⟨n, rest, heq⟩ := List.exists_cons_of_ne_nil hb.1
    rw [Stretch.bars, heq] at h hpal
    apply h.framed hpal
    intro c hc
    obtain ⟨op, hop⟩ := Stretch.exists_step_of_getLast? hbefore hc
    rw [hop]
    exact Shade.step_ne c.shade op
  · have hend := hpaint.right.corner (Stretch.inPalette_shadeAfter hs blocks) hb
    rw [List.length_map, Stretch.length_bars] at hend
    exact hend

end Grounded

namespace Drawing

variable {code : List Emission} {st : Session}

/-- Emissions lay the bars of their blocks. -/
theorem forM_emit (hsize : ∀ e ∈ code, 1 ≤ e.size) (hs : st.shade.InPalette) :
    code.forM (fun e ↦ emit e.op e.size) st =
      .ok () (st.lay ((Stretch.bars st.shade (code.map .ofEmission)).map Bar.column)
        (Stretch.shadeAfter st.shade (code.map .ofEmission))) := by
  have hstraight : ∀ k ∈ Stroke.code code, k.Straight := by
    intro k hk
    obtain ⟨e, he, rfl⟩ := List.mem_map.mp hk
    exact hsize e he
  rw [← row_code, ← rowShade_code, ← draw_row hstraight st hs, Stroke.code]
  clear hstraight hsize hs
  induction code generalizing st with
  | nil => rfl
  | cons e code ih =>
    rw [List.map_cons]
    cases hemit : emit e.op e.size st with
    | ok _ mid =>
      rw [forM_cons_of_ok (f := fun e : Emission ↦ emit e.op e.size) hemit,
        forM_cons_of_ok (f := Stroke.draw) (a := .emit e.op e.size) hemit, ih]
    | error fault mid =>
      rw [forM_cons_of_error (f := fun e : Emission ↦ emit e.op e.size) hemit,
        forM_cons_of_error (f := Stroke.draw) (a := .emit e.op e.size) hemit]

private theorem emitNamed_eq (op : Operation) {size : Int} (hheld : Column.sizeFault? size.toNat = none) :
    emitNamed op.name size st = emit op size st := by
  have hshade : st.shade.emitNamed op.name size = st.shade.emit op size := by
    rw [Shade.emitNamed, Operation.ofName?_name]
    cases hcolour : st.shade.colour <;> simp only [hheld]
  change (ofExcept (st.shade.emitNamed op.name size) >>= columns) st =
    (ofExcept (st.shade.emit op size) >>= columns) st
  rw [hshade]

private theorem forM_emitNamed (hheld : ∀ e ∈ code, Column.sizeFault? e.size.toNat = none) :
    code.forM (fun e ↦ emitNamed e.op.name e.size) = code.forM fun e ↦ emit e.op e.size := by
  induction code with
  | nil => rfl
  | cons e code ih =>
    have hnamed : emitNamed e.op.name e.size = emit e.op e.size :=
      funext fun _ ↦ emitNamed_eq e.op (hheld e List.mem_cons_self)
    change (emitNamed e.op.name e.size >>= fun _ ↦ _) = emit e.op e.size >>= fun _ ↦ _
    rw [hnamed, ih fun c hc ↦ hheld c (List.mem_cons_of_mem _ hc)]

end Drawing

/-- A grid that holds nothing but a row of columns is loaded, and shows them on black ground. -/
theorem exists_row_picture (cs : List Column) :
    ∃ p view, Picture.load (({} : Grid).lay 0 0 cs).normalize {} = .ok () p ∧
      p.Renders view ∧ Grounded view 0 0 cs := by
  have hget (q : Pos) : (({} : Grid).lay 0 0 cs).get? q = Column.cell 0 0 cs q := by
    rw [Grid.get?_lay, Grid.get?_empty, Option.or_none]
  have hinside : ∀ q k, (({} : Grid).lay 0 0 cs).get? q = some k → 0 ≤ q.1 ∧ 0 ≤ q.2 := by
    intro q k hk
    rw [hget] at hk
    obtain ⟨i, c, -, hx, hy, -⟩ := Column.cell_eq_some.mp hk
    omega
  obtain ⟨p, hload, hrenders⟩ :=
    Picture.exists_load (Grid.look_normalize (Grid.bounded_empty.lay 0 0 cs) hinside) {}
  refine ⟨p, _, hload, hrenders, ?_, ?_⟩
  · intro i c hi j hj
    apply Grid.codel_of_some
    rw [hget, Column.cell_of_getElem? hi hj]
  · intro q hq
    apply Grid.codel_of_none
    rw [hget, hq]

/-- A walk along the blocks of emissions replays them, up to the last block. -/
theorem Picture.Renders.steps_code {p : Picture} {view : Pos → Codel} {x y : Int} {s : Shade}
    (hr : p.Renders view) (hs : s.InPalette) {code : List Emission}
    (hcode : ∀ e ∈ code, e.op ≠ .pointer ∧ e.op ≠ .switch ∧ 1 ≤ e.size)
    (hground : Grounded view x y ((Stretch.bars s (code.map .ofEmission)).map Bar.column))
    {n : Nat} (hn : n < code.length) (m : Machine) :
    p.steps n (x, y) (m.facing .right .left) =
      Machine.replay (code.take n) (m.facing .right .left) := by
  have hsplit : code = code.take n ++ code[n] :: code.drop (n + 1) := by
    rw [← List.drop_eq_getElem_cons hn, List.take_append_drop]
  have hsound : ∀ b ∈ code.map Stretch.ofEmission,
      b.Sound ∧ b.op ≠ .pointer ∧ b.op ≠ .switch := by
    intro b hb
    obtain ⟨e, he, rfl⟩ := List.mem_map.mp hb
    obtain ⟨hpointer, hswitch, hsize⟩ := hcode e he
    exact ⟨Stretch.sound_ofEmission hsize, hpointer, hswitch⟩
  rw [hsplit, List.map_append, List.map_cons] at hground hsound
  have hlane := hground.lane hs fun b hb ↦ (hsound b hb).1
  have hsteps := hr.steps_lane (fun b hb ↦ hsound b (List.mem_append_left _ hb)) hlane m
  have hemission : ((code.take n).map Stretch.ofEmission).map Stretch.emission = code.take n := by
    rw [List.map_map]
    refine (List.map_congr_left ?_).trans (List.map_id _)
    intro e he
    exact Stretch.emission_ofEmission (hcode e (List.mem_of_mem_take he)).2.2
  rw [hemission, List.length_map, List.length_take_of_le (Nat.le_of_lt hn)] at hsteps
  exact hsteps

/-- Operations other than turning and switching, written one after the other on a fresh session with
blocks of any sizes, make a picture that reads them back. For every input, and for every number of
steps that stays before the last block, a walk from the corner executes the operations in order and
does to the machine what they do, with the heading from the start. Where an operation fails on a
number, the same step fails. Writing by name gives the same session, if the columns of each block can
be held. -/
theorem emissions_read_back {code : List Emission} (hne : code ≠ [])
    (hcode : ∀ e ∈ code, e.op ≠ .pointer ∧ e.op ≠ .switch ∧ 1 ≤ e.size) :
    ∃ st picture, code.forM (fun e ↦ Drawing.emit e.op e.size) {} = .ok () st ∧
      ((∀ e ∈ code, Column.sizeFault? e.size.toNat = none) →
        code.forM (fun e ↦ Drawing.emitNamed e.op.name e.size) {} = .ok () st) ∧
      Picture.load st.grid.normalize {} = .ok () picture ∧ picture.start? = some (0, 0) ∧
      ∀ (input : List UInt8) (n : Nat), n < code.length →
        picture.steps n (0, 0) { input } = Machine.replay (code.take n) { input } ∧
        ∀ m, (Machine.executeAll (code.take n) { input } = .ok () m ∨
            ∃ fault, Machine.executeAll (code.take n) { input } = .error fault m) →
          m.pointer = Direction.right.pointer ∧ m.chooser = Side.left.chooser := by
  have hsize : ∀ e ∈ code, 1 ≤ e.size := fun e he ↦ (hcode e he).2.2
  have hfresh : ({} : Session).shade.InPalette := by decide
  have hemit := Drawing.forM_emit hsize hfresh
  obtain ⟨picture, view, hload, hrenders, hground⟩ :=
    exists_row_picture ((Stretch.bars {} (code.map .ofEmission)).map Bar.column)
  refine ⟨_, picture, hemit, ?_, hload, ?_, ?_⟩
  · intro hheld
    rw [Drawing.forM_emitNamed hheld, hemit]
  · obtain ⟨e, rest, rfl⟩ := List.exists_cons_of_ne_nil hne
    have hsound := Stretch.sound_ofEmission (hsize e List.mem_cons_self)
    exact hrenders.start?_eq (hground.paints.corner hfresh hsound)
  · intro input n hn
    constructor
    · exact hrenders.steps_code hfresh hcode hground hn { input }
    · intro m hm
      have hsteady : ∀ e ∈ code.take n, e.op ≠ .pointer ∧ e.op ≠ .switch := by
        intro e he
        obtain ⟨hpointer, hswitch, -⟩ := hcode e (List.mem_of_mem_take he)
        exact ⟨hpointer, hswitch⟩
      have hface := Machine.executeAll_facing (m := { input }) (d := .right) (s := .left)
        hsteady hm
      rw [hface]
      exact ⟨rfl, rfl⟩

/-- Blocks of odd and even sizes: the sum is written, and a digit of which no number can be made is
met by the step that reads it. -/
theorem emissions_read_back_mixed :
    ∃ st picture, [⟨.push, 5⟩, ⟨.push, 2⟩, ⟨.add, 1⟩, ⟨.outChar, 4⟩, ⟨.inNum, 3⟩, ⟨.pop, 6⟩].forM
        (fun e : Emission ↦ Drawing.emitNamed e.op.name e.size) {} = .ok () st ∧
      Picture.load st.grid.normalize {} = .ok () picture ∧
      picture.steps 4 (0, 0) { input := [0xB2] } =
        .ok [some .push, some .push, some .add, some .outChar]
          { input := [0xB2], output := #[0x07] } ∧
      picture.steps 5 (0, 0) { input := [0xB2] } =
        .error (.number (.notDecimal "²")) { output := #[0x07] } := by
  obtain ⟨st, picture, -, hnamed, hload, -, hsteps⟩ := @emissions_read_back
    [⟨.push, 5⟩, ⟨.push, 2⟩, ⟨.add, 1⟩, ⟨.outChar, 4⟩, ⟨.inNum, 3⟩, ⟨.pop, 6⟩]
    (by decide) (by decide)
  refine ⟨st, picture, hnamed (by decide), hload, ?_, ?_⟩
  · rw [(hsteps [0xB2] 4 (by decide)).1]
    rfl
  · rw [(hsteps [0xB2] 5 (by decide)).1]
    rfl

end BrainPiet
