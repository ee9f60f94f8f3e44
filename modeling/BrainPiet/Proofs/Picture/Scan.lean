import BrainPiet.Proofs.Picture.Component

/-!
# The scan of a canvas

The scan goes through the positions row by row. Of a canvas without missing codels it finds the
components of all codels of a shade, and it comes to each component first at the codel that leads
it. So blocks are numbered in the order of their leading codels.
-/

namespace BrainPiet

/-- The position lies in an earlier row, or further left in the same row. -/
def Pos.Before (p q : Pos) : Prop := p.2 < q.2 ∨ (p.2 = q.2 ∧ p.1 < q.1)

instance (p q : Pos) : Decidable (p.Before q) := inferInstanceAs (Decidable (_ ∨ _))

/-- The position is the first of some positions, row by row. -/
def Pos.Leads (p : Pos) (members : List Pos) : Prop :=
  p ∈ members ∧ ∀ q ∈ members, p = q ∨ p.Before q

/-- Of two different positions one alone lies before the other. -/
theorem Pos.Before.asymm {p q : Pos} (h : p.Before q) : ¬q.Before p := by
  simp only [Pos.Before] at h ⊢
  omega

/-- Only one position leads. -/
theorem Pos.Leads.unique {p q : Pos} {members : List Pos} (hp : p.Leads members)
    (hq : q.Leads members) : p = q := by
  rcases hp.2 q hq.1 with h | hpq
  · exact h
  · rcases hq.2 p hp.1 with h | hqp
    · exact h.symm
    · exact absurd hqp hpq.asymm

namespace Canvas

private theorem pairwise_positions (c : Canvas) : c.positions.Pairwise Pos.Before := by
  rw [positions, List.pairwise_flatMap]
  constructor
  · intro y _
    rw [List.pairwise_map]
    exact List.pairwise_lt_range.imp fun hx ↦ .inr ⟨rfl, Int.ofNat_lt.mpr hx⟩
  · refine List.pairwise_lt_range.imp ?_
    intro y y' hy p hp q hq
    obtain ⟨x, -, rfl⟩ := List.mem_map.mp hp
    obtain ⟨x', -, rfl⟩ := List.mem_map.mp hq
    exact .inl (Int.ofNat_lt.mpr hy)

/-- What holds when the scan has gone through some positions: their codels of a shade are in blocks,
and each block is led by one of these positions, in the order of the blocks. -/
structure Scanned (c : Canvas) (done : List Pos) (part : Partition) : Prop where
  divided : c.Divided part
  labelled : ∀ p ∈ done, ∀ s, c.look p = some (.shade s) → part.labels[p]? ≠ none
  leader : ∀ (id : Nat) (members : List Pos), part.blocks[id]? = some members →
    ∃ p ∈ done, p.Leads members
  order : ∀ (i j : Nat) (a b : List Pos) (p q : Pos), i < j → part.blocks[i]? = some a →
    part.blocks[j]? = some b → p.Leads a → q.Leads b → p.Before q

variable {c : Canvas} {done rest : List Pos} {part : Partition} {p : Pos}

private theorem Scanned.leads (h : c.Scanned done part) (hsplit : c.positions = done ++ p :: rest)
    {members : List Pos} (hp : p ∈ members) (hfresh : ∀ q ∈ members, part.labels[q]? = none)
    (hshade : ∀ q ∈ members, ∃ s, c.look q = some (.shade s)) : p.Leads members := by
  refine ⟨hp, ?_⟩
  intro q hq
  obtain ⟨s, hs⟩ := hshade q hq
  have hin : q ∈ done ++ p :: rest := hsplit ▸ mem_positions.mpr (inside_of_look hs (by simp))
  have hpair := hsplit ▸ c.pairwise_positions
  rcases List.mem_append.mp hin with hdone | hlater
  · exact absurd (hfresh q hq) (h.labelled q hdone s hs)
  · rcases List.mem_cons.mp hlater with rfl | hrest
    · exact .inl rfl
    · exact .inr ((List.pairwise_cons.mp (List.pairwise_append.mp hpair).2.1).1 q hrest)

/-- The scan goes through one position more. -/
theorem Scanned.seed (hc : c.Full) (h : c.Scanned done part)
    (hsplit : c.positions = done ++ p :: rest) :
    ∃ part', c.seed p part = .ok () part' ∧ c.Scanned (done ++ [p]) part' := by
  obtain ⟨part', hseed, hdiv, hkeep, hp, hopens⟩ := seed_spec hc h.divided p
  have hlabelled : ∀ q ∈ done ++ [p], ∀ s, c.look q = some (.shade s) →
      part'.labels[q]? ≠ none := by
    intro q hq s hs
    rcases List.mem_append.mp hq with hq | hq
    · exact hkeep q (h.labelled q hq s hs)
    · rw [List.mem_singleton.mp hq] at hs ⊢
      exact hp s hs
  refine ⟨part', hseed, ?_⟩
  rcases hopens with hsame | ⟨members, hpush, hmem, hfresh⟩
  · refine ⟨hdiv, hlabelled, ?_, ?_⟩
    · intro id members hid
      rw [hsame] at hid
      obtain ⟨q, hq, hlead⟩ := h.leader id members hid
      exact ⟨q, List.mem_append_left _ hq, hlead⟩
    · rw [hsame]
      exact h.order
  · have hlast : part'.blocks[part.blocks.size]? = some members := by rw [hpush]; simp
    have hlead : p.Leads members := by
      apply h.leads hsplit hmem hfresh
      intro q hq
      exact hdiv.exists_shade ((hdiv.label q _).mpr ⟨members, hlast, hq⟩)
    have hold {id : Nat} {a : List Pos} (hid : part'.blocks[id]? = some a) :
        (id = part.blocks.size ∧ a = members) ∨ part.blocks[id]? = some a := by
      rw [hpush, Array.getElem?_push] at hid
      split at hid
      · next heq =>
        cases hid
        exact .inl ⟨heq, rfl⟩
      · exact .inr hid
    refine ⟨hdiv, hlabelled, ?_, ?_⟩
    · intro id a hid
      rcases hold hid with ⟨-, rfl⟩ | hid
      · exact ⟨p, List.mem_append_right _ (List.mem_singleton.mpr rfl), hlead⟩
      · obtain ⟨q, hq, hleadq⟩ := h.leader id a hid
        exact ⟨q, List.mem_append_left _ hq, hleadq⟩
    · intro i j a b q r hij hi hj hq hr
      rcases hold hj with ⟨rfl, rfl⟩ | hj
      · -- the new block comes last, and the leaders of all others have been passed
        have hi' : part.blocks[i]? = some a := by
          rcases hold hi with ⟨rfl, -⟩ | hi
          · omega
          · exact hi
        obtain ⟨q', hdone, hlead'⟩ := h.leader i a hi'
        rw [hq.unique hlead', hr.unique hlead]
        have hpair := hsplit ▸ c.pairwise_positions
        exact (List.pairwise_append.mp hpair).2.2 q' hdone p List.mem_cons_self
      · rcases hold hi with ⟨rfl, -⟩ | hi
        · have := (Array.getElem?_eq_some_iff.mp hj).1
          omega
        · exact h.order i j a b q r hij hi hj hq hr

/-- The scan goes through all positions that are left. -/
theorem Scanned.run (hc : c.Full) (h : c.Scanned done part) (hsplit : c.positions = done ++ rest) :
    ∃ part', rest.forM c.seed part = .ok () part' ∧ c.Scanned c.positions part' := by
  induction rest generalizing done part with
  | nil =>
    rw [List.append_nil] at hsplit
    exact ⟨part, rfl, hsplit ▸ h⟩
  | cons p rest ih =>
    obtain ⟨mid, hmid, hscan⟩ := h.seed hc hsplit
    obtain ⟨part', hpart, hall⟩ := ih hscan (by rw [hsplit, List.append_assoc]; rfl)
    exact ⟨part', by rw [forM_cons_of_ok hmid]; exact hpart, hall⟩

/-- A canvas without missing codels is scanned to its end. -/
theorem exists_scanned (hc : c.Full) :
    ∃ part, c.partition {} = .ok () part ∧ c.Scanned c.positions part := by
  have hstart : c.Scanned [] {} := ⟨⟨by simp, by simp, by simp⟩, by simp, by simp, by simp⟩
  exact hstart.run hc rfl

/-- The scan of a canvas without missing codels finds the components of all codels of a shade. -/
theorem partition_spec (hc : c.Full) :
    ∃ part, c.partition {} = .ok () part ∧ c.Divided part ∧
      ∀ p s, c.look p = some (.shade s) → part.labels[p]? ≠ none := by
  obtain ⟨part, hpart, hscan⟩ := exists_scanned hc
  refine ⟨part, hpart, hscan.divided, ?_⟩
  intro p s hlook
  exact hscan.labelled p (mem_positions.mpr (inside_of_look hlook (by simp))) s hlook

/-- The scan looks at every codel, so it succeeds only if none is missing. -/
theorem full_of_partition (h : c.partition {} = .ok () part) : c.Full := by
  intro p
  by_cases hin : c.Inside p
  · obtain ⟨t, t', hseed⟩ := exists_ok_of_forM h (mem_positions.mpr hin)
    cases hlook : c.look p with
    | none =>
      simp only [Canvas.seed, hlook] at hseed
      cases hseed
    | some k => exact ⟨k, rfl⟩
  · exact ⟨.black, if_neg hin⟩

end Canvas

end BrainPiet
