import BrainPiet.Picture.Block
import BrainPiet.Proofs.Sequence
import Mathlib.Data.List.Nodup
import Mathlib.Logic.Relation

/-!
# Blocks are components

Two codels of one shade are joined when a path of neighbours of that shade leads from one to the
other. Flooding from a codel collects exactly the codels that are joined to it, so each block that a
scan adds is such a component.
-/

namespace BrainPiet

namespace Canvas

/-- A neighbour that has the given shade. -/
def Adjoins (c : Canvas) (s : Shade) (p q : Pos) : Prop :=
  c.look q = some (.shade s) ∧ ∃ d, q = p.toward d

/-- A path of neighbours of the given shade leads from one codel to another. -/
def Joined (c : Canvas) (s : Shade) : Pos → Pos → Prop := Relation.ReflTransGen (c.Adjoins s)

/-- No codel is missing. -/
def Full (c : Canvas) : Prop := ∀ p, ∃ k, c.look p = some k

private theorem exists_toward_back (p : Pos) (d : Direction) : ∃ e, p = (p.toward d).toward e := by
  refine ⟨d.next.next, ?_⟩
  have hx : d.dx + d.next.next.dx = 0 := by cases d <;> rfl
  have hy : d.dy + d.next.next.dy = 0 := by cases d <;> rfl
  apply Prod.ext
  · simp only [Pos.toward]; omega
  · simp only [Pos.toward]; omega

/-- A path keeps to its shade. -/
theorem Joined.look {c : Canvas} {s : Shade} {p q : Pos} (h : c.Joined s p q)
    (hp : c.look p = some (.shade s)) : c.look q = some (.shade s) := by
  induction h with
  | refl => exact hp
  | tail _ hr => exact hr.1

/-- A path can be walked back. -/
theorem Joined.symm {c : Canvas} {s : Shade} {p q : Pos} (h : c.Joined s p q)
    (hp : c.look p = some (.shade s)) : c.Joined s q p := by
  induction h with
  | refl => exact .refl
  | @tail a b hab hb ih =>
    have ha : c.look a = some (.shade s) := Joined.look hab hp
    obtain ⟨d, rfl⟩ := hb.2
    obtain ⟨e, he⟩ := exists_toward_back a d
    exact .head ⟨ha, e, he⟩ ih

/-- What holds of a flood that was started at a root: the codels it came to are fresh, of the right
shade and joined to the root, and the labels differ from those before in these codels alone. -/
structure Flooding (c : Canvas) (s : Shade) (id : Nat) (root : Pos) (before : Labels)
    (f : Flood) : Prop where
  labels : ∀ q : Pos,
    f.labels[q]? = if q ∈ f.todo ∨ q ∈ f.members then some id else before[q]?
  nodup : (f.todo ++ f.members).Nodup
  fresh : ∀ q, q ∈ f.todo ∨ q ∈ f.members → before[q]? = none
  look : ∀ q, q ∈ f.todo ∨ q ∈ f.members → c.look q = some (.shade s)
  joined : ∀ q, q ∈ f.todo ∨ q ∈ f.members → c.Joined s root q
  root : root ∈ f.todo ∨ root ∈ f.members

/-- The neighbour in a direction was entered, unless it has another shade. -/
def Entered (c : Canvas) (s : Shade) (f : Flood) (p : Pos) (d : Direction) : Prop :=
  c.look (p.toward d) = some (.shade s) → f.labels[p.toward d]? ≠ none

variable {c : Canvas} {s : Shade} {id : Nat} {root : Pos} {before : Labels}

private theorem contains_eq_false {labels : Labels} {q : Pos} (h : ¬labels.contains q = true) :
    labels[q]? = none := by
  rw [Std.HashMap.contains_eq_isSome_getElem?] at h
  exact Option.not_isSome_iff_eq_none.mp h

private theorem contains_eq_true {labels : Labels} {q : Pos} (h : labels.contains q = true) :
    labels[q]? ≠ none := by
  rw [Std.HashMap.contains_eq_isSome_getElem?] at h
  intro hn
  rw [hn] at h
  cases h

private theorem Flooding.add {f : Flood} (hf : c.Flooding s id root before f) {p : Pos}
    {d : Direction} (hp : p ∈ f.members) (hnew : f.labels[p.toward d]? = none)
    (hlook : c.look (p.toward d) = some (.shade s)) :
    c.Flooding s id root before
      { f with labels := f.labels.insert (p.toward d) id, todo := p.toward d :: f.todo } := by
  have hout : ¬(p.toward d ∈ f.todo ∨ p.toward d ∈ f.members) := by
    intro hin
    rw [hf.labels, if_pos hin] at hnew
    cases hnew
  have hfresh : before[p.toward d]? = none := by
    rw [hf.labels, if_neg hout] at hnew
    exact hnew
  have hjoin : c.Joined s root (p.toward d) := .tail (hf.joined p (.inr hp)) ⟨hlook, d, rfl⟩
  have split (q : Pos) (hq : q ∈ p.toward d :: f.todo ∨ q ∈ f.members) :
      q = p.toward d ∨ q ∈ f.todo ∨ q ∈ f.members := by
    rw [List.mem_cons, or_assoc] at hq
    exact hq
  refine ⟨?_, ?_, ?_, ?_, ?_, ?_⟩
  · intro q
    simp only [Std.HashMap.getElem?_insert, hf.labels, List.mem_cons]
    by_cases hq : p.toward d = q
    · simp [hq]
    · simp [hq, Ne.symm hq]
  · rw [List.cons_append, List.nodup_cons, List.mem_append]
    exact ⟨hout, hf.nodup⟩
  · intro q hq
    rcases split q hq with rfl | hq
    · exact hfresh
    · exact hf.fresh q hq
  · intro q hq
    rcases split q hq with rfl | hq
    · exact hlook
    · exact hf.look q hq
  · intro q hq
    rcases split q hq with rfl | hq
    · exact hjoin
    · exact hf.joined q hq
  · rcases hf.root with h | h
    · exact .inl (List.mem_cons_of_mem _ h)
    · exact .inr h

private theorem enter_spec (hc : c.Full) {f : Flood} (hf : c.Flooding s id root before f) {p : Pos}
    (hp : p ∈ f.members) (d : Direction) :
    ∃ f', c.enter s id p f d = .ok f' ∧ c.Flooding s id root before f' ∧
      f'.members = f.members ∧ (∀ q : Pos, f.labels[q]? ≠ none → f'.labels[q]? ≠ none) ∧
      c.Entered s f' p d := by
  by_cases hin : f.labels.contains (p.toward d) = true
  · refine ⟨f, by simp [enter, hin], hf, rfl, fun _ h ↦ h, ?_⟩
    intro _
    exact contains_eq_true hin
  · obtain ⟨k, hk⟩ := hc (p.toward d)
    by_cases hs : k = .shade s
    · subst hs
      refine ⟨_, by simp [enter, hin, hk], hf.add hp (contains_eq_false hin) hk, rfl, ?_, ?_⟩
      · intro q hq
        rw [Std.HashMap.getElem?_insert]
        split
        · exact Option.some_ne_none _
        · exact hq
      · intro _
        simp
    · refine ⟨f, by simp [enter, hin, hk, hs], hf, rfl, fun _ h ↦ h, ?_⟩
      intro hlook
      rw [hk] at hlook
      exact absurd (Option.some.inj hlook) hs

private theorem enter_foldlM_spec (hc : c.Full) (ds : List Direction) {f : Flood}
    (hf : c.Flooding s id root before f) {p : Pos} (hp : p ∈ f.members) :
    ∃ f', ds.foldlM (c.enter s id p) f = .ok f' ∧ c.Flooding s id root before f' ∧
      f'.members = f.members ∧ (∀ q : Pos, f.labels[q]? ≠ none → f'.labels[q]? ≠ none) ∧
      ∀ d ∈ ds, c.Entered s f' p d := by
  induction ds generalizing f with
  | nil => exact ⟨f, rfl, hf, rfl, fun _ h ↦ h, by simp⟩
  | cons d ds ih =>
    obtain ⟨g, hg, hgf, hgm, hgl, hgd⟩ := enter_spec hc hf hp d
    obtain ⟨f', hf', hff, hfm, hfl, hfd⟩ := ih hgf (hgm ▸ hp)
    refine ⟨f', ?_, hff, hfm.trans hgm, fun q hq ↦ hfl q (hgl q hq), ?_⟩
    · rw [List.foldlM_cons, hg]
      exact hf'
    · intro e he
      rcases List.mem_cons.mp he with rfl | he
      · exact fun hlook ↦ hfl _ (hgd hlook)
      · exact hfd e he

private theorem Flooding.leave {f : Flood} (hf : c.Flooding s id root before f) {p : Pos}
    {rest : List Pos} (htodo : f.todo = p :: rest) :
    c.Flooding s id root before { f with todo := rest, members := p :: f.members } := by
  have same (q : Pos) : (q ∈ rest ∨ q ∈ p :: f.members) ↔ (q ∈ f.todo ∨ q ∈ f.members) := by
    rw [htodo, List.mem_cons, List.mem_cons, or_left_comm, or_assoc]
  refine ⟨?_, ?_, fun q hq ↦ hf.fresh q ((same q).mp hq), fun q hq ↦ hf.look q ((same q).mp hq),
    fun q hq ↦ hf.joined q ((same q).mp hq), (same root).mpr hf.root⟩
  · intro q
    simp only [same q]
    exact hf.labels q
  · have hn := hf.nodup
    rw [htodo, List.cons_append] at hn
    exact List.nodup_middle.mpr hn

/-- A flood with nothing left to do has ended. -/
theorem flood_of_done {f : Flood} (htodo : f.todo = []) :
    c.flood s id f = .ok (f.labels, f.members) := by
  rw [flood]
  split
  · rfl
  · next h =>
    rw [htodo] at h
    cases h

/-- Otherwise the neighbours of the next codel are entered, and the flood goes on unless one of them
is missing. -/
theorem flood_of_todo {f : Flood} {p : Pos} {rest : List Pos} (htodo : f.todo = p :: rest) :
    c.flood s id f =
      (c.enterAll s id p { f with todo := rest, members := p :: f.members } >>= c.flood s id) := by
  rw [flood]
  split
  · next h =>
    rw [htodo] at h
    cases h
  · next h =>
    rw [htodo] at h
    cases h
    split
    · next henter =>
      rw [henter]
      rfl
    · next henter =>
      rw [henter]
      rfl

private theorem flood_spec (hc : c.Full) (f : Flood) (hf : c.Flooding s id root before f)
    (hall : ∀ p ∈ f.members, ∀ d, c.Entered s f p d) :
    ∃ f', c.flood s id f = .ok (f'.labels, f'.members) ∧ c.Flooding s id root before f' ∧
      f'.todo = [] ∧ ∀ p ∈ f'.members, ∀ d, c.Entered s f' p d := by
  induction f using flood.induct c s id with
  | case1 f htodo => exact ⟨f, flood_of_done htodo, hf, htodo, hall⟩
  | case2 f p rest htodo labels henter =>
    obtain ⟨f', hok, _⟩ :=
      enter_foldlM_spec hc Direction.all (hf.leave htodo) (p := p) List.mem_cons_self
    rw [enterAll, hok] at henter
    cases henter
  | case3 f p rest htodo g henter ih =>
    obtain ⟨f', hok, hff, hfm, hfl, hfd⟩ :=
      enter_foldlM_spec hc Direction.all (hf.leave htodo) (p := p) List.mem_cons_self
    rw [enterAll, hok] at henter
    obtain rfl : f' = g := Except.ok.inj henter
    have hnext : ∀ q ∈ f'.members, ∀ d, c.Entered s f' q d := by
      intro q hq d hlook
      rw [hfm] at hq
      rcases List.mem_cons.mp hq with rfl | hq
      · exact hfd d (by cases d <;> simp [Direction.all]) hlook
      · exact hfl _ (hall q hq d hlook)
    obtain ⟨last, hlast, hrest⟩ := ih hff hnext
    refine ⟨last, ?_, hrest⟩
    rw [← hlast, flood_of_todo htodo, enterAll, hok]
    rfl

/-- The blocks found so far are components, each codel of a block has the number of that block for a
label, and there are no other labels. -/
structure Divided (c : Canvas) (part : Partition) : Prop where
  label : ∀ (q : Pos) (id : Nat), part.labels[q]? = some id ↔
    ∃ members, part.blocks[id]? = some members ∧ q ∈ members
  nodup : ∀ (id : Nat) (members : List Pos), part.blocks[id]? = some members → members.Nodup
  component : ∀ (id : Nat) (members : List Pos), part.blocks[id]? = some members →
    ∃ s root, c.look root = some (.shade s) ∧ ∀ q, q ∈ members ↔ c.Joined s root q

private theorem Divided.closed {part : Partition} (h : c.Divided part) {q : Pos} {d : Direction}
    {t : Shade} {id : Nat} (hq : part.labels[q]? = some id) (hlook : c.look q = some (.shade t))
    (hnext : c.look (q.toward d) = some (.shade t)) : part.labels[q.toward d]? = some id := by
  obtain ⟨members, hid, hmem⟩ := (h.label q id).mp hq
  obtain ⟨t', root, hroot, hiff⟩ := h.component id members hid
  have hjoin : c.Joined t' root q := (hiff q).mp hmem
  have ht : t = t' := by
    have := hjoin.look hroot
    rw [hlook] at this
    cases this
    rfl
  subst ht
  exact (h.label _ id).mpr ⟨members, hid, (hiff _).mpr (.tail hjoin ⟨hnext, d, rfl⟩)⟩

private theorem Flooding.mem_members_iff {part : Partition} (h : c.Divided part) {f : Flood}
    (hf : c.Flooding s id root part.labels f) (htodo : f.todo = [])
    (hall : ∀ p ∈ f.members, ∀ d, c.Entered s f p d) (q : Pos) :
    q ∈ f.members ↔ c.Joined s root q := by
  constructor
  · exact fun hq ↦ hf.joined q (.inr hq)
  · intro hq
    induction hq with
    | refl =>
      have := hf.root
      rw [htodo] at this
      simpa using this
    | @tail a b _ hb ih =>
      obtain ⟨hlook, d, rfl⟩ := hb
      have hnew := hall a ih d hlook
      rw [hf.labels, htodo] at hnew
      by_contra hout
      -- the neighbour would have a label from before, and then so would the codel itself
      rw [if_neg (by simpa using hout)] at hnew
      obtain ⟨old, hold⟩ := Option.ne_none_iff_exists'.mp hnew
      obtain ⟨e, he⟩ := exists_toward_back a d
      have ha := hf.look a (.inr ih)
      have hback := h.closed (d := e) hold hlook (he ▸ ha)
      rw [← he, hf.fresh a (.inr ih)] at hback
      cases hback

private theorem flooding_start {p : Pos} (hp : before[p]? = none)
    (hlook : c.look p = some (.shade s)) :
    c.Flooding s id p before { labels := before.insert p id, todo := [p] } := by
  refine ⟨?_, by simp, ?_, ?_, ?_, by simp⟩
  · intro q
    simp only [Std.HashMap.getElem?_insert, List.mem_singleton, List.not_mem_nil, or_false]
    by_cases hq : p = q
    · simp [hq]
    · simp [hq, Ne.symm hq]
  · simpa using hp
  · simpa using hlook
  · intro q hq
    have : q = p := by simpa using hq
    exact this ▸ .refl

private theorem Divided.push {part : Partition} (h : c.Divided part) {f : Flood}
    (hf : c.Flooding s part.blocks.size root part.labels f) (htodo : f.todo = [])
    (hall : ∀ p ∈ f.members, ∀ d, c.Entered s f p d) :
    c.Divided ⟨f.labels, part.blocks.push f.members⟩ := by
  have hlabels (q : Pos) : f.labels[q]? =
      if q ∈ f.members then some part.blocks.size else part.labels[q]? := by
    have := hf.labels q
    simpa [htodo] using this
  refine ⟨?_, ?_, ?_⟩
  · intro q id
    rw [hlabels, Array.getElem?_push]
    by_cases hq : q ∈ f.members
    · have hfresh := hf.fresh q (.inr hq)
      rw [if_pos hq]
      constructor
      · intro hid
        cases hid
        exact ⟨f.members, by simp, hq⟩
      · rintro ⟨members, hid, hmem⟩
        split at hid
        · next heq => rw [heq]
        · have := (h.label q id).mpr ⟨members, hid, hmem⟩
          rw [hfresh] at this
          cases this
    · rw [if_neg hq, h.label]
      constructor
      · rintro ⟨members, hid, hmem⟩
        have hne : id ≠ part.blocks.size := by
          rintro rfl
          simp at hid
        exact ⟨members, by rw [if_neg hne]; exact hid, hmem⟩
      · rintro ⟨members, hid, hmem⟩
        split at hid
        · cases hid
          exact absurd hmem hq
        · exact ⟨members, hid, hmem⟩
  · intro id members hid
    rw [Array.getElem?_push] at hid
    split at hid
    · cases hid
      have := hf.nodup
      rw [htodo] at this
      exact this
    · exact h.nodup id members hid
  · intro id members hid
    rw [Array.getElem?_push] at hid
    split at hid
    · cases hid
      exact ⟨s, root, hf.look root (by simpa [htodo] using hf.root),
        hf.mem_members_iff h htodo hall⟩
    · exact h.component id members hid

/-- What a position of the scan may do to the blocks: nothing, or add a last one that holds this
position and no codel with a label. -/
def Opens (p : Pos) (part part' : Partition) : Prop :=
  part'.blocks = part.blocks ∨ ∃ members, part'.blocks = part.blocks.push members ∧
    p ∈ members ∧ ∀ q ∈ members, part.labels[q]? = none

/-- One position of the scan: the partition stays sound and the position is labelled, if it has a
shade. -/
theorem seed_spec (hc : c.Full) {part : Partition} (h : c.Divided part) (p : Pos) :
    ∃ part', c.seed p part = .ok () part' ∧ c.Divided part' ∧
      (∀ q : Pos, part.labels[q]? ≠ none → part'.labels[q]? ≠ none) ∧
      (∀ s, c.look p = some (.shade s) → part'.labels[p]? ≠ none) ∧ Opens p part part' := by
  obtain ⟨k, hk⟩ := hc p
  cases k with
  | black => exact ⟨part, by simp [seed, hk], h, fun _ hq ↦ hq, by simp [hk], .inl rfl⟩
  | white => exact ⟨part, by simp [seed, hk], h, fun _ hq ↦ hq, by simp [hk], .inl rfl⟩
  | shade s =>
    by_cases hin : part.labels.contains p = true
    · exact ⟨part, by simp [seed, hk, hin], h, fun _ hq ↦ hq, fun _ _ ↦ contains_eq_true hin,
        .inl rfl⟩
    · have hstart : c.Flooding s part.blocks.size p part.labels
          { labels := part.labels.insert p part.blocks.size, todo := [p] } :=
        flooding_start (contains_eq_false hin) hk
      obtain ⟨f, hflood, hf, htodo, hall⟩ := flood_spec hc _ hstart (by simp)
      have hlabels (q : Pos) : f.labels[q]? =
          if q ∈ f.members then some part.blocks.size else part.labels[q]? := by
        have := hf.labels q
        simpa [htodo] using this
      have hroot : p ∈ f.members := by simpa [htodo] using hf.root
      refine ⟨⟨f.labels, part.blocks.push f.members⟩, by simp [seed, hk, hin, hflood],
        h.push hf htodo hall, ?_, ?_, ?_⟩
      · intro q hq
        simp only [hlabels]
        split
        · exact Option.some_ne_none _
        · exact hq
      · intro _ _
        simp only [hlabels, if_pos hroot]
        exact Option.some_ne_none _
      · exact .inr ⟨f.members, rfl, hroot, fun q hq ↦ hf.fresh q (.inr hq)⟩

/-- Only a codel of a shade has a label. -/
theorem Divided.exists_shade {part : Partition} (h : c.Divided part) {q : Pos}
    (hq : part.labels[q]? = some id) : ∃ s, c.look q = some (.shade s) := by
  obtain ⟨members, hid, hmem⟩ := (h.label q id).mp hq
  obtain ⟨s, root, hroot, hiff⟩ := h.component id members hid
  exact ⟨s, ((hiff q).mp hmem).look hroot⟩

end Canvas

end BrainPiet
