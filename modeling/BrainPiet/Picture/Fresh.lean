/-!
# Counting what was not seen yet

A search over a finite list of places ends because each step sees a place for the first time. The
number of places that were not seen is the measure.
-/

namespace BrainPiet

/-- Counting by a condition that is stronger, and strictly so at some member, gives less. -/
theorem length_filter_lt {α : Type} {l : List α} {p q : α → Bool} (hqp : ∀ a, q a = true → p a = true)
    {a : α} (ha : a ∈ l) (hp : p a = true) (hq : q a = false) :
    (l.filter q).length < (l.filter p).length := by
  have hfilter : l.filter q = (l.filter p).filter q := by
    rw [List.filter_filter]
    apply List.filter_congr
    intro b _
    cases hb : q b with
    | false => rfl
    | true => rw [hqp b hb, Bool.and_self]
  rw [hfilter, List.length_filter_lt_length_iff_exists]
  exact ⟨a, List.mem_filter.mpr ⟨ha, hp⟩, by simp [hq]⟩

end BrainPiet
