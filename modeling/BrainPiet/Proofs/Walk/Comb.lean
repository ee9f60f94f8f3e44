import BrainPiet.Proofs.Walk.Path
import Mathlib.Algebra.GroupWithZero.Nat

/-!
# Combs

A comb is a block whose columns all hang from one row. Every block of a lane is a comb: its columns
are painted from the lane downwards. A comb is connected along its first row, and its edges are the
ends of its outer columns.
-/

namespace BrainPiet

/-- The codels of columns of the given heights, side by side below one row. -/
def comb (x y : Int) : (heights : List Nat) → List Pos
  | [] => []
  | h :: hs => (List.range h).map (fun (j : Nat) ↦ (x, y + (j : Int))) ++ comb (x + 1) y hs

/-- The codels of a comb by its first column and the others. -/
theorem mem_comb_cons {x y : Int} {h : Nat} {hs : List Nat} {q : Pos} :
    q ∈ comb x y (h :: hs) ↔
      (q.1 = x ∧ y ≤ q.2 ∧ q.2 < y + h) ∨ q ∈ comb (x + 1) y hs := by
  obtain ⟨qx, qy⟩ := q
  simp only [comb, List.mem_append, List.mem_map, List.mem_range, Prod.mk.injEq]
  refine or_congr_left ⟨?_, ?_⟩
  · rintro ⟨j, hj, rfl, rfl⟩
    omega
  · rintro ⟨rfl, h1, h2⟩
    exact ⟨(qy - y).toNat, by omega, rfl, by omega⟩

/-- The codels of a comb by the columns' places. -/
theorem mem_comb {x y : Int} {hs : List Nat} {q : Pos} :
    q ∈ comb x y hs ↔ ∃ (i h : Nat), hs[i]? = some h ∧ q.1 = x + i ∧ y ≤ q.2 ∧ q.2 < y + h := by
  induction hs generalizing x with
  | nil => simp [comb]
  | cons h hs ih =>
    rw [mem_comb_cons, ih]
    constructor
    · rintro (⟨h1, h2⟩ | ⟨i, k, hk, h1, h2⟩)
      · exact ⟨0, h, rfl, by omega, h2⟩
      · exact ⟨i + 1, k, by simpa using hk, by omega, h2⟩
    · rintro ⟨i, k, hk, h1, h2⟩
      cases i with
      | zero =>
        simp only [List.getElem?_cons_zero, Option.some.injEq] at hk
        subst hk
        exact .inl ⟨by omega, h2⟩
      | succ i =>
        refine .inr ⟨i, k, by simpa using hk, ?_, h2⟩
        omega

/-- A comb of one column. -/
theorem mem_comb_singleton {x y : Int} {h : Nat} {q : Pos} :
    q ∈ comb x y [h] ↔ q.1 = x ∧ y ≤ q.2 ∧ q.2 < y + h := by
  rw [mem_comb_cons]
  simp [comb]

/-- A single column holds every row of its height. -/
theorem mem_comb_row (x y : Int) {h j : Nat} (hj : j < h) : (x, y + j) ∈ comb x y [h] :=
  mem_comb_singleton.mpr ⟨rfl, by simp only; omega, by simp only; omega⟩

/-- A single column holds its upper end. -/
theorem mem_comb_top (x y : Int) {h : Nat} (hh : 0 < h) : (x, y) ∈ comb x y [h] :=
  mem_comb_singleton.mpr ⟨rfl, Int.le_refl _, by simp only; omega⟩

/-- A comb holds the corner that it starts from. -/
theorem corner_mem_comb (x y : Int) {hs : List Nat} (hne : hs ≠ []) (hpos : ∀ h ∈ hs, 0 < h) :
    (x, y) ∈ comb x y hs := by
  obtain ⟨h, rest, rfl⟩ := List.exists_cons_of_ne_nil hne
  have hh := hpos h List.mem_cons_self
  exact mem_comb_cons.mpr (.inl ⟨rfl, Int.le_refl _, by simp only; omega⟩)

/-- A comb has as many codels as its heights say. -/
theorem length_comb (x y : Int) (hs : List Nat) : (comb x y hs).length = hs.sum := by
  induction hs generalizing x with
  | nil => rfl
  | cons h hs ih => simp [comb, ih]

private theorem lt_of_mem_comb {x y : Int} {hs : List Nat} {q : Pos} (h : q ∈ comb x y hs) :
    x ≤ q.1 := by
  obtain ⟨i, k, _, hx, _⟩ := mem_comb.mp h
  omega

private theorem nodup_comb (x y : Int) (hs : List Nat) : (comb x y hs).Nodup := by
  induction hs generalizing x with
  | nil => exact List.nodup_nil
  | cons h hs ih =>
    rw [comb, List.nodup_append]
    refine ⟨?_, ih (x + 1), ?_⟩
    · apply List.Nodup.map _ List.nodup_range
      intro i j hij
      simp only [Prod.mk.injEq] at hij
      omega
    · rintro a ha b hb rfl
      obtain ⟨j, _, rfl⟩ := List.mem_map.mp ha
      have := lt_of_mem_comb hb
      simp only at this
      omega

private theorem Linked.mono {block larger : List Pos} {a b : Pos} (h : Linked block a b)
    (hsub : ∀ q ∈ block, q ∈ larger) : Linked larger a b :=
  Relation.ReflTransGen.mono (fun _ q hq ↦ ⟨hsub q hq.1, hq.2⟩) _ _ h

private theorem linked_column (x y : Int) {h : Nat} (hs : List Nat) (j : Nat) (hj : j < h) :
    Linked (comb x y (h :: hs)) (x, y) (x, y + j) := by
  induction j with
  | zero =>
    rw [Int.natCast_zero, Int.add_zero]
    exact .refl
  | succ j ih =>
    refine .tail (ih (by omega)) ⟨mem_comb_cons.mpr (.inl ⟨rfl, ?_, ?_⟩), .down, ?_⟩
    · simp only; omega
    · simp only; omega
    · simp [Pos.toward, Direction.dx, Direction.dy, Int.add_assoc]

private theorem linked_comb {x y : Int} {hs : List Nat} (hpos : ∀ h ∈ hs, 0 < h) {q : Pos}
    (hq : q ∈ comb x y hs) : Linked (comb x y hs) (x, y) q := by
  induction hs generalizing x with
  | nil => cases hq
  | cons h hs ih =>
    rcases mem_comb_cons.mp hq with ⟨hx, hy1, hy2⟩ | htail
    · have hlink := linked_column x y hs (q.2 - y).toNat
        (show (q.2 - y).toNat < h by omega)
      have heq : (x, y + ((q.2 - y).toNat : Int)) = q := Prod.ext hx.symm (by simp only; omega)
      rwa [heq] at hlink
    · have hrest : ∀ k ∈ hs, 0 < k := fun k hk ↦ hpos k (List.mem_cons_of_mem _ hk)
      have hstep : Linked (comb x y (h :: hs)) (x, y) (x + 1, y) := by
        refine .single ⟨mem_comb_cons.mpr (.inr ?_), .right, ?_⟩
        · cases hs with
          | nil => cases htail
          | cons k ks =>
            have := hrest k List.mem_cons_self
            exact mem_comb_cons.mpr (.inl ⟨rfl, Int.le_refl _, by simp only; omega⟩)
        · simp [Pos.toward, Direction.dx, Direction.dy]
      exact hstep.trans ((ih hrest htail).mono fun _ hz ↦ mem_comb_cons.mpr (.inr hz))

/-- A comb of one shade that no neighbour extends is a patch. -/
theorem patch_comb {view : Pos → Codel} {s : Shade} {x y : Int} {hs : List Nat} (hne : hs ≠ [])
    (hpos : ∀ h ∈ hs, 0 < h) (hshade : ∀ q ∈ comb x y hs, view q = .shade s)
    (hclosed : ∀ q ∈ comb x y hs, ∀ d, view (q.toward d) = .shade s → q.toward d ∈ comb x y hs) :
    Patch view s (comb x y hs) := by
  refine ⟨hshade, hclosed, nodup_comb x y hs, (x, y), ?_, fun q hq ↦ linked_comb hpos hq⟩
  cases hs with
  | nil => exact absurd rfl hne
  | cons h hs =>
    have := hpos h List.mem_cons_self
    exact mem_comb_cons.mpr (.inl ⟨rfl, Int.le_refl _, by simp only; omega⟩)

/-- To the right, a comb is left by the top of its last column: on the left side always, and on the
right side if that column has one codel. -/
theorem edge_comb {x y : Int} {hs : List Nat} {side : Side} (hne : hs ≠ [])
    (hpos : ∀ h ∈ hs, 0 < h) (hside : side = .left ∨ hs.getLast? = some 1) :
    Edge (comb x y hs) .right side (x + hs.length - 1, y) := by
  have hlen : 0 < hs.length := List.length_pos_iff.mpr hne
  constructor
  · obtain ⟨h, hh⟩ : ∃ h, hs[hs.length - 1]? = some h :=
      ⟨_, List.getElem?_eq_getElem (by omega)⟩
    have := hpos h (List.mem_of_getElem? hh)
    refine mem_comb.mpr ⟨hs.length - 1, h, hh, ?_, Int.le_refl _, by simp only; omega⟩
    simp only
    omega
  · intro q hq
    obtain ⟨i, h, hi, hx, hy, hy'⟩ := mem_comb.mp hq
    have hi' : i < hs.length := (List.getElem?_eq_some_iff.mp hi).1
    have hlast : side = .left ∨ (i = hs.length - 1 → h = 1) := by
      refine hside.imp_right fun hone hlast ↦ ?_
      rw [List.getLast?_eq_getElem?, ← hlast, hi] at hone
      exact Option.some.inj hone
    obtain ⟨qx, qy⟩ := q
    rw [Pos.exceeds_iff]
    cases side with
    | left =>
      simp only [Pos.along, Side.of, Direction.next, Direction.dx, Direction.dy,
        Prod.mk.injEq] at hx hy ⊢
      omega
    | right =>
      rcases hlast with hlast | hlast
      · cases hlast
      · simp only [Pos.along, Side.of, Direction.next, Direction.dx, Direction.dy,
          Prod.mk.injEq] at hx hy hy' ⊢
        omega

/-- The row in which a single column is left. -/
def endRow (y : Int) (h : Nat) : Direction → Side → Int
  | .right, .left | .left, .right | .up, _ => y
  | .right, .right | .left, .left | .down, _ => y + h - 1

/-- The edges of a single column are its two ends. -/
theorem edge_column {x y : Int} {h : Nat} (hh : 0 < h) (d : Direction) (side : Side) :
    Edge (comb x y [h]) d side (x, endRow y h d side) := by
  constructor
  · refine mem_comb_singleton.mpr ⟨rfl, ?_⟩
    cases d <;> cases side <;> simp only [endRow] <;> omega
  · intro q hq
    obtain ⟨hx, hy1, hy2⟩ := mem_comb_singleton.mp hq
    obtain ⟨qx, qy⟩ := q
    simp only at hx hy1 hy2
    subst hx
    rw [Pos.exceeds_iff]
    cases d <;> cases side <;>
      simp only [endRow, Pos.along, Side.of, Direction.next, Direction.dx, Direction.dy,
        Prod.mk.injEq, true_and] <;> omega

/-- A single column of one shade that no neighbour extends is a patch. -/
theorem patch_column {view : Pos → Codel} {s : Shade} {x y : Int} {h : Nat} (hh : 0 < h)
    (hshow : ∀ j : Nat, j < h → view (x, y + j) = .shade s)
    (habove : view (x, y - 1) ≠ .shade s) (hbelow : view (x, y + h) ≠ .shade s)
    (hleft : ∀ j : Nat, j < h → view (x - 1, y + j) ≠ .shade s)
    (hright : ∀ j : Nat, j < h → view (x + 1, y + j) ≠ .shade s) :
    Patch view s (comb x y [h]) := by
  have hrow {q : Pos} (hq : q ∈ comb x y [h]) : ∃ j : Nat, j < h ∧ q = (x, y + j) := by
    obtain ⟨hx, hy1, hy2⟩ := mem_comb_singleton.mp hq
    exact ⟨(q.2 - y).toNat, by omega, Prod.ext hx (by simp only; omega)⟩
  apply patch_comb (List.cons_ne_nil h [])
  · intro k hk
    rw [List.mem_singleton.mp hk]
    exact hh
  · intro q hq
    obtain ⟨j, hj, rfl⟩ := hrow hq
    exact hshow j hj
  · intro q hq d hd
    obtain ⟨j, hj, rfl⟩ := hrow hq
    cases d with
    | right =>
      simp only [Pos.toward, Direction.dx, Direction.dy, Int.add_zero] at hd
      exact absurd hd (hright j hj)
    | left =>
      simp only [Pos.toward, Direction.dx, Direction.dy, Int.add_zero] at hd
      exact absurd hd (hleft j hj)
    | down =>
      simp only [Pos.toward, Direction.dx, Direction.dy, Int.add_zero] at hd ⊢
      by_cases hlast : j + 1 = h
      · subst hlast
        rw [Int.add_assoc] at hd
        exact absurd hd hbelow
      · exact mem_comb_singleton.mpr ⟨rfl, by simp only; omega, by simp only; omega⟩
    | up =>
      simp only [Pos.toward, Direction.dx, Direction.dy, Int.add_zero] at hd ⊢
      cases j with
      | zero =>
        rw [Int.natCast_zero, Int.add_zero] at hd
        exact absurd hd habove
      | succ j => exact mem_comb_singleton.mpr ⟨rfl, by simp only; omega, by simp only; omega⟩

/-- A single codel whose neighbours have other shades is a patch. -/
theorem patch_codel {view : Pos → Codel} {s : Shade} {x y : Int} (hshow : view (x, y) = .shade s)
    (habove : view (x, y - 1) ≠ .shade s) (hbelow : view (x, y + 1) ≠ .shade s)
    (hleft : view (x - 1, y) ≠ .shade s) (hright : view (x + 1, y) ≠ .shade s) :
    Patch view s (comb x y [1]) := by
  have hrow {j : Nat} (hj : j < 1) : y + (j : Int) = y := by omega
  apply patch_column Nat.one_pos _ habove hbelow
  · intro j hj
    rw [hrow hj]
    exact hleft
  · intro j hj
    rw [hrow hj]
    exact hright
  · intro j hj
    rw [hrow hj]
    exact hshow

end BrainPiet
