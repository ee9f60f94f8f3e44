import BrainPiet.Picture.Walk

/-!
# Edges of a block

A machine on its way has one of four directions and one of two sides. The codel by which a block is
left is the only one that exceeds all others of the block, so it depends on the codels of the block
and not on their order.
-/

namespace BrainPiet

/-- The pointer of a direction. -/
def Direction.pointer : Direction → Pointer
  | right => ⟨0⟩
  | down => ⟨1⟩
  | left => ⟨2⟩
  | up => ⟨3⟩

/-- The chooser of a side. -/
def Side.chooser : Side → Chooser
  | left => ⟨0⟩
  | right => ⟨1⟩

/-- The other side. -/
def Side.other : Side → Side
  | left => right
  | right => left

/-- The machine with its heading set. -/
def Machine.facing (m : Machine) (d : Direction) (s : Side) : Machine :=
  { m with pointer := d.pointer, chooser := s.chooser }

@[simp] theorem Direction.direction?_pointer (d : Direction) : d.pointer.direction? = some d := by
  cases d <;> rfl

@[simp] theorem Side.side_chooser (s : Side) : s.chooser.side = s := by cases s <;> rfl

@[simp] theorem Side.flip_chooser (s : Side) : s.chooser.flip = s.other.chooser := by
  cases s <;> rfl

@[simp] theorem Direction.turn_pointer (d : Direction) : d.pointer.turn 1 = d.next.pointer := by
  cases d <;> rfl

namespace Machine

variable (m : Machine) (d e : Direction) (s t : Side)

@[simp] theorem facing_stack : (m.facing d s).stack = m.stack := rfl

@[simp] theorem facing_input : (m.facing d s).input = m.input := rfl

@[simp] theorem facing_output : (m.facing d s).output = m.output := rfl

@[simp] theorem facing_pointer : (m.facing d s).pointer = d.pointer := rfl

@[simp] theorem facing_chooser : (m.facing d s).chooser = s.chooser := rfl

@[simp] theorem facing_facing : (m.facing d s).facing e t = m.facing e t := rfl

end Machine

/-- A blocked attempt flips to the other side. -/
@[simp] theorem Adjustment.apply_flip (m : Machine) (d : Direction) (s : Side) :
    flip.apply (m.facing d s) = m.facing d s.other := by
  simp [apply, Machine.facing]

/-- A blocked attempt turns to the next direction. -/
@[simp] theorem Adjustment.apply_turn (m : Machine) (d : Direction) (s : Side) :
    turn.apply (m.facing d s) = m.facing d.next s := by
  simp [apply, Machine.facing]

/-- A codel that exceeds all others of a block. -/
def Edge (block : List Pos) (d : Direction) (s : Side) (e : Pos) : Prop :=
  e ∈ block ∧ ∀ q ∈ block, q = e ∨ Pos.exceeds d s e q = true

instance (block : List Pos) (d : Direction) (s : Side) (e : Pos) : Decidable (Edge block d s e) :=
  inferInstanceAs (Decidable (_ ∧ _))

/-- The order of a block does not matter for its edges. -/
theorem Edge.perm {block other : List Pos} {d : Direction} {s : Side} {e : Pos}
    (h : Edge block d s e) (hp : other.Perm block) : Edge other d s e :=
  ⟨hp.mem_iff.mpr h.1, fun q hq ↦ h.2 q (hp.mem_iff.mp hq)⟩

/-- To exceed is to lie further along, or as far along and further to the side. -/
theorem Pos.exceeds_iff {d : Direction} {s : Side} {p q : Pos} :
    Pos.exceeds d s p q = true ↔ q.along d < p.along d ∨
      (q.along d = p.along d ∧ q.along (s.of d) < p.along (s.of d)) := by
  simp [Pos.exceeds]

private theorem Pos.exceeds_asymm {d : Direction} {s : Side} {p q : Pos} (h : Pos.exceeds d s p q = true) :
    Pos.exceeds d s q p = false := by
  rw [← Bool.not_eq_true]
  rw [Pos.exceeds_iff] at h ⊢
  omega

private theorem foldl_exceeds (block rest : List Pos) (d : Direction) (s : Side) (e best : Pos)
    (hrest : ∀ q ∈ rest, q ∈ block) (hbest : best ∈ block) (he : e = best ∨ e ∈ rest)
    (hall : ∀ q ∈ block, q = e ∨ Pos.exceeds d s e q = true) :
    rest.foldl (fun best q ↦ if Pos.exceeds d s q best then q else best) best = e := by
  induction rest generalizing best with
  | nil =>
    rcases he with he | he
    · exact he.symm
    · cases he
  | cons q rest ih =>
    rw [List.foldl_cons]
    have hq : q ∈ block := hrest q List.mem_cons_self
    have htail : ∀ r ∈ rest, r ∈ block := fun r hr ↦ hrest r (List.mem_cons_of_mem _ hr)
    rcases hall best hbest with rfl | hgt
    · -- the best codel is the edge already, and nothing exceeds it
      have hkeep : Pos.exceeds d s q best = false := by
        rcases hall q hq with rfl | hgt
        · simp [Pos.exceeds]
        · exact Pos.exceeds_asymm hgt
      rw [hkeep]
      exact ih best htail hbest (.inl rfl)
    · rcases he with rfl | he
      · rw [Pos.exceeds_asymm hgt] at hgt
        cases hgt
      · rcases List.mem_cons.mp he with rfl | he
        · rw [if_pos hgt]
          exact ih e htail hq (.inl rfl)
        · split
          · exact ih q htail hq (.inr he)
          · exact ih best htail hbest (.inr he)

/-- The codel that exceeds all others is the one by which the block is left. -/
theorem edgeCodel?_eq_some {block : List Pos} {d : Direction} {s : Side} {e : Pos}
    (h : Edge block d s e) : edgeCodel? block d s = some e := by
  cases block with
  | nil => cases h.1
  | cons p rest =>
    rw [edgeCodel?, foldl_exceeds (p :: rest) rest d s e p
      (fun q hq ↦ List.mem_cons_of_mem _ hq) List.mem_cons_self (List.mem_cons.mp h.1) h.2]

/-- Of two different codels one exceeds the other. -/
theorem Pos.exceeds_total (d : Direction) (s : Side) {p q : Pos} (h : p ≠ q) :
    Pos.exceeds d s p q = true ∨ Pos.exceeds d s q p = true := by
  obtain ⟨px, py⟩ := p
  obtain ⟨qx, qy⟩ := q
  have hne : ¬(px = qx ∧ py = qy) := fun he ↦ h (Prod.ext he.1 he.2)
  rw [Pos.exceeds_iff, Pos.exceeds_iff]
  cases d <;> cases s <;>
    simp only [Pos.along, Side.of, Direction.next, Direction.dx, Direction.dy] <;> omega

private theorem Pos.exceeds_trans {d : Direction} {s : Side} {p q r : Pos}
    (hpq : Pos.exceeds d s p q = true) (hqr : Pos.exceeds d s q r = true) :
    Pos.exceeds d s p r = true := by
  rw [Pos.exceeds_iff] at hpq hqr ⊢
  omega

/-- Every block has an edge. -/
theorem exists_edge {block : List Pos} (d : Direction) (s : Side) (h : block ≠ []) :
    ∃ e, Edge block d s e := by
  induction block with
  | nil => exact absurd rfl h
  | cons p rest ih =>
    by_cases hrest : rest = []
    · subst hrest
      exact ⟨p, by simp [Edge]⟩
    · obtain ⟨e, he, hall⟩ := ih hrest
      by_cases hpe : p = e
      · subst hpe
        refine ⟨p, List.mem_cons_self, ?_⟩
        intro q hq
        rcases List.mem_cons.mp hq with rfl | hq
        · exact .inl rfl
        · exact hall q hq
      · rcases Pos.exceeds_total d s hpe with hgt | hgt
        · refine ⟨p, List.mem_cons_self, ?_⟩
          intro q hq
          rcases List.mem_cons.mp hq with rfl | hq
          · exact .inl rfl
          · rcases hall q hq with rfl | hq
            · exact .inr hgt
            · exact .inr (Pos.exceeds_trans hgt hq)
        · refine ⟨e, List.mem_cons_of_mem _ he, ?_⟩
          intro q hq
          rcases List.mem_cons.mp hq with rfl | hq
          · exact .inr hgt
          · exact hall q hq

/-- The exit of a block does not depend on the order of its codels. -/
theorem exit?_perm {block other : List Pos} (hp : other.Perm block) (p : Pointer) (c : Chooser) :
    exit? other p c = exit? block p c := by
  have hedge (d : Direction) : edgeCodel? other d c.side = edgeCodel? block d c.side := by
    by_cases h : block = []
    · subst h
      rw [hp.eq_nil]
    · obtain ⟨e, he⟩ := exists_edge d c.side h
      rw [edgeCodel?_eq_some he, edgeCodel?_eq_some (he.perm hp)]
  simp only [exit?, hedge]

/-- The exit of a block by its edge. -/
theorem exit?_eq_some {block : List Pos} {d : Direction} {s : Side} {e : Pos}
    (h : Edge block d s e) : exit? block d.pointer s.chooser = some (e, d) := by
  simp [exit?, edgeCodel?_eq_some h]

end BrainPiet
