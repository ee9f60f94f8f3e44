import BrainPiet.Proofs.Picture.Step

/-!
# The blocks of rows of colours

Rows of one length are loaded without a fault. The blocks of the picture are then the components of
equal shades in these rows: nothing is left out, counted twice or put together across a gap, and the
numbers of the blocks follow their first codels row by row.
-/

namespace BrainPiet

/-- Two positions share an edge. -/
def Pos.Adjacent (p q : Pos) : Prop := (p.1 - q.1).natAbs + (p.2 - q.2).natAbs = 1

instance (p q : Pos) : Decidable (p.Adjacent q) := inferInstanceAs (Decidable (_ = 1))

private theorem Pos.adjacent_iff {p q : Pos} : p.Adjacent q ↔ ∃ d, q = p.toward d := by
  obtain ⟨x, y⟩ := p
  obtain ⟨x', y'⟩ := q
  simp only [Adjacent, toward, Prod.mk.injEq]
  constructor
  · intro h
    have hcase : (x' = x + 1 ∧ y' = y) ∨ (x' = x ∧ y' = y + 1) ∨ (x' = x - 1 ∧ y' = y) ∨
        (x' = x ∧ y' = y - 1) := by omega
    rcases hcase with ⟨hx, hy⟩ | ⟨hx, hy⟩ | ⟨hx, hy⟩ | ⟨hx, hy⟩
    · exact ⟨.right, hx, by simp [Direction.dy, hy]⟩
    · exact ⟨.down, by simp [Direction.dx, hx], hy⟩
    · exact ⟨.left, hx, by simp [Direction.dy, hy]⟩
    · exact ⟨.up, by simp [Direction.dx, hx], hy⟩
  · rintro ⟨d, hx, hy⟩
    cases d <;> simp only [Direction.dx, Direction.dy] at hx hy <;> omega

namespace Rows

/-- All rows have one length. -/
def Rectangular (rows : List (List Rgb)) : Prop := ∃ width, ∀ row ∈ rows, row.length = width

/-- The length of the first row, or zero if there is none. -/
def width (rows : List (List Rgb)) : Nat := (rows.head?.map List.length).getD 0

/-- Rows of one length have that of the first row. -/
theorem Rectangular.length_eq {rows : List (List Rgb)} (h : Rectangular rows) :
    ∀ row ∈ rows, row.length = width rows := by
  intro row hrow
  obtain ⟨n, hn⟩ := h
  cases rows with
  | nil => cases hrow
  | cons first rest => exact (hn row hrow).trans (hn first List.mem_cons_self).symm

/-- The shade that the rows show at a position. There is none outside of them, and none where the
colour is black, white or foreign to the palette. -/
def shadeAt? (rows : List (List Rgb)) (p : Pos) : Option Shade :=
  if 0 ≤ p.1 ∧ 0 ≤ p.2 then
    rows[p.2.toNat]?.bind fun row ↦ row[p.1.toNat]?.bind Shade.ofColour?
  else none

/-- A path leads from one position to another, each of its codels of one shade and beside the codel
before it. -/
def Connected (rows : List (List Rgb)) (p q : Pos) : Prop :=
  ∃ s, shadeAt? rows p = some s ∧
    Relation.ReflTransGen (fun a b ↦ Pos.Adjacent a b ∧ shadeAt? rows b = some s) p q

end Rows

/-- A colour shows a shade when the palette has it. -/
theorem Codel.ofColour_eq_shade {k : Rgb} {s : Shade} :
    Codel.ofColour k = .shade s ↔ Shade.ofColour? k = some s := by
  unfold ofColour
  by_cases hblack : k = .black
  · subst hblack
    have hnone : Shade.ofColour? .black = none := by decide
    rw [if_pos rfl, hnone]
    simp
  · by_cases hwhite : k = .white
    · subst hwhite
      have hnone : Shade.ofColour? .white = none := by decide
      rw [if_neg hblack, if_pos rfl, hnone]
      simp
    · rw [if_neg hblack, if_neg hwhite]
      cases Shade.ofColour? k with
      | none => simp
      | some t => simp

namespace Canvas

variable {rows : List (List Rgb)} {p : Pos}

/-- The rectangle of a canvas is as wide as the first row and as high as there are rows. -/
theorem inside_ofRows : (ofRows rows).Inside p ↔
    (0 ≤ p.1 ∧ 0 ≤ p.2) ∧ p.1.toNat < Rows.width rows ∧ p.2.toNat < rows.length := by
  change (0 ≤ p.1 ∧ p.1 < (Rows.width rows : Int) ∧ 0 ≤ p.2 ∧ p.2 < (rows.length : Int)) ↔ _
  omega

/-- Inside a canvas a position shows the codel of its colour, if its row is long enough. -/
theorem look_of_inside (hp : (ofRows rows).Inside p) :
    (ofRows rows).look p =
      (rows[p.2.toNat]?.bind fun row ↦ row[p.1.toNat]?).map Codel.ofColour := by
  rw [look, if_pos hp]
  cases hrow : rows[p.2.toNat]? with
  | none => simp [ofRows, hrow]
  | some row => simp [ofRows, hrow]

/-- No codel is missing when no row is shorter than the first one. -/
theorem full_ofRows_iff : (ofRows rows).Full ↔ ∀ row ∈ rows, Rows.width rows ≤ row.length := by
  constructor
  · intro hfull row hrow
    by_contra hshort
    -- the first codel that the row lacks
    obtain ⟨y, hy, rfl⟩ := List.mem_iff_getElem.mp hrow
    have hin : (ofRows rows).Inside ((rows[y].length : Int), (y : Int)) := by
      rw [inside_ofRows]
      exact ⟨⟨Int.natCast_nonneg _, Int.natCast_nonneg _⟩, Nat.lt_of_not_le hshort, hy⟩
    obtain ⟨k, hk⟩ := hfull (rows[y].length, y)
    rw [look_of_inside hin] at hk
    simp [hy] at hk
  · intro hlong p
    by_cases hp : (ofRows rows).Inside p
    · obtain ⟨-, hx, hy⟩ := inside_ofRows.mp hp
      have hx' := Nat.lt_of_lt_of_le hx (hlong _ (List.getElem_mem hy))
      rw [look_of_inside hp]
      simp [hy, hx']
    · exact ⟨.black, if_neg hp⟩

private theorem full_ofRows (h : Rows.Rectangular rows) : (ofRows rows).Full :=
  full_ofRows_iff.mpr fun row hrow ↦ Nat.le_of_eq (h.length_eq row hrow).symm

private theorem look_eq_shade_iff (h : Rows.Rectangular rows) {s : Shade} :
    (ofRows rows).look p = some (.shade s) ↔ Rows.shadeAt? rows p = some s := by
  by_cases hp : (ofRows rows).Inside p
  · rw [look_of_inside hp, Rows.shadeAt?, if_pos (inside_ofRows.mp hp).1, ← Option.bind_assoc,
      Option.map_eq_some_iff, Option.bind_eq_some_iff]
    simp only [Codel.ofColour_eq_shade]
  · constructor
    · intro hlook
      exact absurd (inside_of_look hlook (by simp)) hp
    · intro hs
      exfalso
      apply hp
      unfold Rows.shadeAt? at hs
      split at hs
      · next hpos =>
        obtain ⟨row, hrow, hs⟩ := Option.bind_eq_some_iff.mp hs
        obtain ⟨k, hk, -⟩ := Option.bind_eq_some_iff.mp hs
        obtain ⟨hy, rfl⟩ := List.getElem?_eq_some_iff.mp hrow
        obtain ⟨hx, -⟩ := List.getElem?_eq_some_iff.mp hk
        rw [h.length_eq _ (List.getElem_mem hy)] at hx
        exact inside_ofRows.mpr ⟨hpos, hx, hy⟩
      · cases hs

private theorem joined_iff (h : Rows.Rectangular rows) {p q : Pos} {s : Shade}
    (hp : Rows.shadeAt? rows p = some s) :
    (ofRows rows).Joined s p q ↔ Rows.Connected rows p q := by
  have hstep : (ofRows rows).Adjoins s =
      fun a b ↦ Pos.Adjacent a b ∧ Rows.shadeAt? rows b = some s := by
    ext a b
    rw [Adjoins, look_eq_shade_iff h, Pos.adjacent_iff, and_comm]
  rw [Joined, hstep]
  constructor
  · exact fun hpath ↦ ⟨s, hp, hpath⟩
  · rintro ⟨t, ht, hpath⟩
    rw [hp] at ht
    cases ht
    exact hpath

end Canvas

/-- Rows of one length are loaded, and the picture renders their codels. -/
theorem Picture.exists_renders {rows : List (List Rgb)} (h : Rows.Rectangular rows)
    (init : Picture) :
    ∃ p, load rows init = .ok () p ∧
      p.Renders fun q ↦ ((Canvas.ofRows rows).look q).getD .black := by
  apply exists_load
  intro q
  obtain ⟨k, hk⟩ := Canvas.full_ofRows h q
  rw [hk, Option.getD_some]

/-- The blocks are the components of equal shades, each codel in its place once, with the numbers of
the blocks for labels and in the order of their first codels. -/
structure Partition.Exact (rows : List (List Rgb)) (part : Partition) : Prop where
  once : ∀ p, part.blocks.toList.flatten.count p = if (Rows.shadeAt? rows p).isSome then 1 else 0
  connected : ∀ p q, (∃ members ∈ part.blocks, p ∈ members ∧ q ∈ members) ↔
    Rows.Connected rows p q
  label : ∀ (p : Pos) (id : Nat), part.labels[p]? = some id ↔
    ∃ members, part.blocks[id]? = some members ∧ p ∈ members
  leader : ∀ members ∈ part.blocks, ∃ p : Pos, p.Leads members
  order : ∀ (i j : Nat) (a b : List Pos) (p q : Pos), part.blocks[i]? = some a →
    part.blocks[j]? = some b → p.Leads a → q.Leads b → (i < j ↔ p.Before q)

namespace Canvas

variable {rows : List (List Rgb)} {part : Partition}

/-- A codel is in one block at most. -/
theorem Divided.eq_of_mem {c : Canvas} (h : c.Divided part) {i j : Nat} {a b : List Pos} {p : Pos}
    (hi : part.blocks[i]? = some a) (hj : part.blocks[j]? = some b) (ha : p ∈ a) (hb : p ∈ b) :
    i = j := by
  have hlabel := (h.label p i).mpr ⟨a, hi, ha⟩
  rw [(h.label p j).mpr ⟨b, hj, hb⟩] at hlabel
  exact (Option.some.inj hlabel).symm

/-- No codel stands twice in the blocks, put together. -/
theorem Divided.nodup_flatten {c : Canvas} (h : c.Divided part) :
    part.blocks.toList.flatten.Nodup := by
  rw [List.nodup_flatten]
  constructor
  · intro members hmem
    obtain ⟨id, hid⟩ := List.mem_iff_getElem?.mp hmem
    exact h.nodup id members (by rwa [Array.getElem?_toList] at hid)
  · rw [List.pairwise_iff_getElem]
    intro i j hi hj hij p ha hb
    have hi' := List.getElem?_eq_getElem hi
    have hj' := List.getElem?_eq_getElem hj
    rw [Array.getElem?_toList] at hi' hj'
    exact absurd (h.eq_of_mem hi' hj' ha hb) (Nat.ne_of_lt hij)

/-- A block of a canvas of rows holds what is connected to any of its codels. -/
theorem Divided.mem_iff_connected (hrows : Rows.Rectangular rows) (h : (ofRows rows).Divided part)
    {id : Nat} {members : List Pos} (hid : part.blocks[id]? = some members) {p q : Pos}
    (hp : p ∈ members) : q ∈ members ↔ Rows.Connected rows p q := by
  obtain ⟨s, root, hroot, hiff⟩ := h.component id members hid
  have hjoin := (hiff p).mp hp
  have hshade := (look_eq_shade_iff hrows).mp (hjoin.look hroot)
  rw [hiff, ← joined_iff hrows hshade]
  exact ⟨fun hq ↦ (hjoin.symm hroot).trans hq, fun hq ↦ hjoin.trans hq⟩

/-- The codels in blocks are those of a shade. -/
theorem Scanned.mem_flatten_iff (hrows : Rows.Rectangular rows)
    (h : (ofRows rows).Scanned (ofRows rows).positions part) (p : Pos) :
    p ∈ part.blocks.toList.flatten ↔ (Rows.shadeAt? rows p).isSome := by
  constructor
  · intro hp
    obtain ⟨members, hmem, hp⟩ := List.mem_flatten.mp hp
    obtain ⟨id, hid⟩ := List.mem_iff_getElem?.mp hmem
    rw [Array.getElem?_toList] at hid
    obtain ⟨s, hs⟩ := h.divided.exists_shade ((h.divided.label p id).mpr ⟨members, hid, hp⟩)
    rw [(look_eq_shade_iff hrows).mp hs]
    rfl
  · intro hp
    obtain ⟨s, hs⟩ := Option.isSome_iff_exists.mp hp
    have hlook := (look_eq_shade_iff hrows).mpr hs
    have hin := mem_positions.mpr (inside_of_look hlook (by simp))
    obtain ⟨id, hid⟩ := Option.ne_none_iff_exists'.mp (h.labelled p hin s hlook)
    obtain ⟨members, hblock, hp⟩ := (h.divided.label p id).mp hid
    have hmem := Array.mem_toList_iff.mpr (Array.mem_of_getElem? hblock)
    exact List.mem_flatten.mpr ⟨members, hmem, hp⟩

/-- The leading codels come in the order of the blocks, and only so. -/
theorem Scanned.lt_iff_before {c : Canvas} {done : List Pos} (h : c.Scanned done part) {i j : Nat}
    {a b : List Pos} {p q : Pos} (hi : part.blocks[i]? = some a) (hj : part.blocks[j]? = some b)
    (hp : p.Leads a) (hq : q.Leads b) : i < j ↔ p.Before q := by
  constructor
  · exact fun hij ↦ h.order i j a b p q hij hi hj hp hq
  · intro hpq
    by_contra hij
    rcases Nat.lt_or_eq_of_le (Nat.not_lt.mp hij) with hji | rfl
    · exact hpq.asymm (h.order j i b a q p hji hj hi hq hp)
    · rw [hi] at hj
      cases hj
      rw [hp.unique hq] at hpq
      exact hpq.asymm hpq

end Canvas

/-- Rows of one length are loaded, and the blocks of the picture are exactly the components of equal
shades in these rows. -/
theorem load_finds_components {rows : List (List Rgb)} (h : Rows.Rectangular rows)
    (init : Picture) :
    ∃ picture, Picture.load rows init = .ok () picture ∧ picture.parts.Exact rows := by
  obtain ⟨part, hpart, hscan⟩ := Canvas.exists_scanned (Canvas.full_ofRows h)
  refine ⟨⟨Canvas.ofRows rows, part⟩, by simp [Picture.load, hpart], ?_, ?_, ?_, ?_, ?_⟩
  · intro p
    by_cases hp : (Rows.shadeAt? rows p).isSome
    · rw [if_pos hp]
      have hin := (hscan.mem_flatten_iff h p).mpr hp
      exact List.count_eq_one_of_mem hscan.divided.nodup_flatten hin
    · rw [if_neg hp]
      exact List.count_eq_zero_of_not_mem fun hin ↦ hp ((hscan.mem_flatten_iff h p).mp hin)
  · intro p q
    constructor
    · rintro ⟨members, hmem, hp, hq⟩
      obtain ⟨id, hid⟩ := Array.mem_iff_getElem?.mp hmem
      exact (hscan.divided.mem_iff_connected h hid hp).mp hq
    · intro hpq
      obtain ⟨s, hs⟩ := hpq.imp fun _ hs ↦ hs.1
      have hin := (hscan.mem_flatten_iff h p).mpr (by rw [hs]; rfl)
      obtain ⟨members, hmem, hp⟩ := List.mem_flatten.mp hin
      obtain ⟨id, hid⟩ := Array.mem_iff_getElem?.mp (Array.mem_toList_iff.mp hmem)
      exact ⟨members, Array.mem_toList_iff.mp hmem, hp,
        (hscan.divided.mem_iff_connected h hid hp).mpr hpq⟩
  · exact hscan.divided.label
  · intro members hmem
    obtain ⟨id, hid⟩ := Array.mem_iff_getElem?.mp hmem
    obtain ⟨p, -, hp⟩ := hscan.leader id members hid
    exact ⟨p, hp⟩
  · intro i j a b p q hi hj hp hq
    exact hscan.lt_iff_before hi hj hp hq

/-- A red arch over a white gap, with a foreign colour below its crown: both feet of the arch are in
one block, which the corner leads, and the foreign colour is in none. -/
theorem load_finds_components_arch :
    let red : Rgb := ⟨0xFF, 0x00, 0x00⟩
    let rows := [[red, red, red], [red, ⟨0x01, 0x02, 0x03⟩, red], [red, .white, red]]
    Rows.Rectangular rows ∧ ∃ picture, Picture.load rows {} = .ok () picture ∧
      (∃ members ∈ picture.parts.blocks, (0, 2) ∈ members ∧ (2, 2) ∈ members) ∧
      picture.parts.blocks.toList.flatten.count (2, 2) = 1 ∧
      picture.parts.blocks.toList.flatten.count (1, 1) = 0 := by
  intro red rows
  have hrows : Rows.Rectangular rows := ⟨3, by decide⟩
  obtain ⟨picture, hload, hexact⟩ := load_finds_components hrows {}
  refine ⟨hrows, picture, hload, (hexact.connected (0, 2) (2, 2)).mpr ?_, ?_, ?_⟩
  · refine ⟨⟨0, 1⟩, by decide, ?_⟩
    -- up the left side, over the crown and down the right side
    apply Relation.ReflTransGen.head (b := (0, 1)) (by decide)
    apply Relation.ReflTransGen.head (b := (0, 0)) (by decide)
    apply Relation.ReflTransGen.head (b := (1, 0)) (by decide)
    apply Relation.ReflTransGen.head (b := (2, 0)) (by decide)
    apply Relation.ReflTransGen.head (b := (2, 1)) (by decide)
    apply Relation.ReflTransGen.single
    decide
  · rw [hexact.once]
    decide
  · rw [hexact.once]
    decide

end BrainPiet
