import BrainPiet.Proofs.Drawing.Extent
import Mathlib.Data.Int.LeastGreatest
import Mathlib.Order.Bounds.Basic

/-!
# Coats of paint

A grid on which rectangles were painted one over the other, anywhere and of any size, shows at each
position the last of them that covers it. Its extent is kept beside the cells and only ever grows,
yet it comes out as the painted cells alone say. So the row that is added below is black.
-/

namespace BrainPiet

/-- A rectangle to be painted in one colour. A side that is not positive makes it empty. -/
structure Coat where
  x : Int
  y : Int
  w : Int
  h : Int
  colour : Rgb
  deriving DecidableEq, Repr

namespace Coat

/-- The position lies in the rectangle. -/
def Covers (c : Coat) (p : Pos) : Prop :=
  c.x ≤ p.1 ∧ p.1 < c.x + c.w ∧ c.y ≤ p.2 ∧ p.2 < c.y + c.h

instance (c : Coat) (p : Pos) : Decidable (c.Covers p) := inferInstanceAs (Decidable (_ ∧ _))

/-- The coat covers the position, and none that is painted over it does. -/
def Topmost (coats : List Coat) (p : Pos) (c : Coat) : Prop :=
  ∃ below above, coats = below ++ c :: above ∧ c.Covers p ∧ ∀ d ∈ above, ¬d.Covers p

private theorem not_topmost_nil (p : Pos) (c : Coat) : ¬Topmost [] p c := by
  rintro ⟨below, above, h, -⟩
  exact List.append_ne_nil_of_right_ne_nil below (List.cons_ne_nil c above) h.symm

private theorem topmost_cons {c d : Coat} {coats : List Coat} {p : Pos} :
    Topmost (d :: coats) p c ↔
      Topmost coats p c ∨ c = d ∧ d.Covers p ∧ ∀ e ∈ coats, ¬e.Covers p := by
  constructor
  · rintro ⟨below, above, h, hcov, habove⟩
    rcases List.cons_eq_append_iff.mp h with ⟨-, h⟩ | ⟨below', -, h⟩
    · cases h
      exact .inr ⟨rfl, hcov, habove⟩
    · exact .inl ⟨below', above, h, hcov, habove⟩
  · rintro (⟨below, above, rfl, hcov, habove⟩ | ⟨rfl, hcov, habove⟩)
    · exact ⟨d :: below, above, rfl, hcov, habove⟩
    · exact ⟨[], coats, rfl, hcov, habove⟩

/-- Where some coat covers a position, one of them is on top. -/
theorem exists_topmost_iff {coats : List Coat} {p : Pos} :
    (∃ c, Topmost coats p c) ↔ ∃ c ∈ coats, c.Covers p := by
  constructor
  · rintro ⟨c, below, above, rfl, hcov, -⟩
    exact ⟨c, List.mem_append_right below List.mem_cons_self, hcov⟩
  · rintro ⟨c, hc, hcov⟩
    induction coats generalizing c with
    | nil => cases hc
    | cons d coats ih =>
      by_cases hlater : ∃ e ∈ coats, e.Covers p
      · obtain ⟨e, he, hcov'⟩ := hlater
        obtain ⟨top, htop⟩ := ih e he hcov'
        exact ⟨top, topmost_cons.mpr (.inl htop)⟩
      · have hnone : ∀ e ∈ coats, ¬e.Covers p := fun e he hcov' ↦ hlater ⟨e, he, hcov'⟩
        rcases List.mem_cons.mp hc with rfl | hc
        · exact ⟨c, topmost_cons.mpr (.inr ⟨rfl, hcov, hnone⟩)⟩
        · exact absurd hcov (hnone c hc)

end Coat

/-- The least length, counted from zero, that reaches past all numbers of a set: one more than the
greatest of them, if that is positive. -/
inductive Reach (s : Set Int) (n : Nat) : Prop
  | empty (hs : s = ∅) (hn : n = 0)
  | past (m : Int) (hm : IsGreatest s m) (hn : (n : Int) = max 0 (1 + m))

private theorem Reach.of_lt {s : Set Int} {n : Nat} (hlt : ∀ m ∈ s, m < n)
    (hlast : 0 < n → ∃ m ∈ s, m + 1 = n) : Reach s n := by
  rcases s.eq_empty_or_nonempty with hs | hs
  · refine .empty hs (Nat.eq_zero_of_not_pos fun hn ↦ ?_)
    obtain ⟨m, hm, -⟩ := hlast hn
    rw [hs] at hm
    exact hm
  · obtain ⟨m, hm, hmax⟩ :=
      Int.exists_greatest_of_bdd ⟨n, fun m hm ↦ Int.le_of_lt (hlt m hm)⟩ hs
    refine .past m ⟨hm, hmax⟩ ?_
    have hle := hlt m hm
    by_cases hn : 0 < n
    · obtain ⟨m', hm', hn'⟩ := hlast hn
      have := hmax m' hm'
      omega
    · omega

namespace Grid

variable {g : Grid}

/-- The positions that are painted. -/
def painted (g : Grid) : Set Pos := {p | ∃ k, g.get? p = some k}

private theorem reach_side {coordinate : Pos → Int} {side : Nat}
    (hin : ∀ p k, g.get? p = some k → coordinate p < side)
    (htouch : 0 < side → ∃ p k, g.get? p = some k ∧ coordinate p + 1 = side) :
    Reach (coordinate '' g.painted) side := by
  apply Reach.of_lt
  · rintro _ ⟨p, ⟨k, hk⟩, rfl⟩
    exact hin p k hk
  · intro hpos
    obtain ⟨p, k, hk, hp⟩ := htouch hpos
    exact ⟨coordinate p, ⟨p, ⟨k, hk⟩, rfl⟩, hp⟩

/-- The row that is added below a grid is black. -/
theorem Bounded.getLast?_normalize (hb : g.Bounded) :
    g.normalize.getLast? = some (List.replicate g.width .black) := by
  have hbelow (x : Nat) : g.get? (x, g.height) = none := by
    rw [Option.eq_none_iff_forall_ne_some]
    intro k hk
    exact Int.lt_irrefl _ (hb _ k hk).2
  rw [normalize, List.range_succ, List.map_append, List.map_singleton, List.getLast?_concat,
    Option.some.injEq, List.eq_replicate_iff]
  refine ⟨by rw [List.length_map, List.length_range], ?_⟩
  intro k hk
  obtain ⟨x, -, rfl⟩ := List.mem_map.mp hk
  rw [hbelow]
  rfl

/-- Paints coats one over the other. -/
def coated (g : Grid) (coats : List Coat) : Grid :=
  coats.foldl (fun g c ↦ g.paint c.x c.y c.colour c.w c.h) g

/-- A position shows the topmost coat, or what was there if no coat covers it. -/
theorem get?_coated {coats : List Coat} {p : Pos} {k : Rgb} :
    (g.coated coats).get? p = some k ↔
      (∃ c, Coat.Topmost coats p c ∧ c.colour = k) ∨
        (∀ c ∈ coats, ¬c.Covers p) ∧ g.get? p = some k := by
  induction coats generalizing g with
  | nil => simp [coated, Coat.not_topmost_nil]
  | cons d coats ih =>
    have hin : p ∈ rectangle d.x d.y d.w d.h ↔ d.Covers p := mem_rectangle
    rw [coated, List.foldl_cons, ← coated, ih, get?_paint]
    simp only [hin, Coat.topmost_cons, List.forall_mem_cons, or_and_right, exists_or]
    by_cases hcov : d.Covers p
    · -- the first coat takes the place of what was there
      simp [hcov]
    · simp [hcov]

/-- Coats extend the extent as needed. -/
theorem Bounded.coated (hb : g.Bounded) (coats : List Coat) : (g.coated coats).Bounded := by
  induction coats generalizing g with
  | nil => exact hb
  | cons c coats ih => exact ih (hb.paint c.x c.y c.colour c.w c.h)

/-- Coats extend the extent no further than they reach. -/
theorem Tight.coated (ht : g.Tight) (coats : List Coat) : (g.coated coats).Tight := by
  induction coats generalizing g with
  | nil => exact ht
  | cons c coats ih => exact ih (ht.paint c.x c.y c.colour c.w c.h)

end Grid

/-- Whatever rectangles are painted on an empty grid, those included that are empty or begin at
negative coordinates, a cell is painted if one of them covers it, and in the colour of the last that
does. The grid reaches past its painted cells and no further. Its rows hold the painted cells on
black ground, and one row more, which is black. -/
theorem coats_determine_grid (coats : List Coat) :
    let g := ({} : Grid).coated coats
    (∀ p, p ∈ g.painted ↔ ∃ c ∈ coats, c.Covers p) ∧
      (∀ p k, g.get? p = some k ↔ ∃ c, Coat.Topmost coats p c ∧ c.colour = k) ∧
      Reach (Prod.fst '' g.painted) g.width ∧ Reach (Prod.snd '' g.painted) g.height ∧
      g.normalize.length = g.height + 1 ∧ (∀ row ∈ g.normalize, row.length = g.width) ∧
      (∀ x y : Nat, x < g.width → y < g.height + 1 →
        g.normalize[y]?.bind (·[x]?) = some ((g.get? (x, y)).getD .black)) ∧
      g.normalize.getLast? = some (List.replicate g.width .black) := by
  intro g
  have hbounded : g.Bounded := Grid.bounded_empty.coated coats
  have htight : g.Tight := Grid.tight_empty.coated coats
  have hcolour (p : Pos) (k : Rgb) :
      g.get? p = some k ↔ ∃ c, Coat.Topmost coats p c ∧ c.colour = k := by
    rw [Grid.get?_coated, Grid.get?_empty]
    simp only [reduceCtorEq, and_false, or_false]
  have hpainted (p : Pos) : p ∈ g.painted ↔ ∃ c ∈ coats, c.Covers p := by
    rw [← Coat.exists_topmost_iff]
    constructor
    · rintro ⟨k, hk⟩
      obtain ⟨c, hc, -⟩ := (hcolour p k).mp hk
      exact ⟨c, hc⟩
    · rintro ⟨c, hc⟩
      exact ⟨c.colour, (hcolour p c.colour).mpr ⟨c, hc, rfl⟩⟩
  exact ⟨hpainted, hcolour, Grid.reach_side (fun p k hk ↦ (hbounded p k hk).1) htight.width,
    Grid.reach_side (fun p k hk ↦ (hbounded p k hk).2) htight.height, g.length_normalize,
    fun _ hrow ↦ Grid.length_of_mem_normalize hrow,
    fun _ _ hx hy ↦ Grid.getElem?_normalize_of_lt hx hy, hbounded.getLast?_normalize⟩

/-- A rectangle across both borders, one that covers its corner, and two that are empty. -/
theorem coats_determine_grid_corner :
    let coats : List Coat :=
      [⟨-2, -1, 4, 2, .white⟩, ⟨5, 7, 0, 3, .white⟩, ⟨1, -4, 1, 6, .grey 7⟩, ⟨9, 1, 3, -1, .white⟩]
    let g := ({} : Grid).coated coats
    g.get? (-2, -1) = some .white ∧ g.get? (1, 0) = some (.grey 7) ∧ (5, 8) ∉ g.painted ∧
      g.width = 2 ∧ g.height = 2 ∧ g.normalize.length = 3 ∧ (∀ row ∈ g.normalize, row.length = 2) ∧
      g.normalize[0]?.bind (·[1]?) = some (.grey 7) ∧
      g.normalize.getLast? = some [.black, .black] := by
  intro coats g
  obtain ⟨hpainted, hcolour, -, -, hlength, hrows, hcell, hlast⟩ := coats_determine_grid coats
  have hcorner : g.get? (1, 0) = some (.grey 7) :=
    (hcolour (1, 0) (.grey 7)).mpr
      ⟨⟨1, -4, 1, 6, .grey 7⟩, ⟨[⟨-2, -1, 4, 2, .white⟩, ⟨5, 7, 0, 3, .white⟩],
        [⟨9, 1, 3, -1, .white⟩], rfl, by decide, by decide⟩, rfl⟩
  have hfar : g.get? (-2, -1) = some .white :=
    (hcolour (-2, -1) .white).mpr
      ⟨⟨-2, -1, 4, 2, .white⟩, ⟨[], [⟨5, 7, 0, 3, .white⟩, ⟨1, -4, 1, 6, .grey 7⟩,
        ⟨9, 1, 3, -1, .white⟩], rfl, by decide, by decide⟩, rfl⟩
  have hempty : (5, 8) ∉ g.painted := by
    rw [hpainted]
    decide
  refine ⟨hfar, hcorner, hempty, rfl, rfl, hlength, hrows, ?_, hlast⟩
  rw [hcell 1 0 (by decide) (by decide)]
  exact congrArg (fun seen ↦ some (seen.getD .black)) hcorner

end BrainPiet
