/-!
# Steps in sequence

How steps that change a state and may fail succeed one after the other.
-/

namespace BrainPiet

variable {ε σ α β : Type}

/-- What follows a step that succeeds runs on its result. -/
theorem bind_of_ok {x : EStateM ε σ α} {f : α → EStateM ε σ β} {s s' : σ} {a : α}
    (h : x s = .ok a s') : (x >>= f) s = f a s' := by
  change EStateM.bind x f s = f a s'
  rw [EStateM.bind, h]

/-- Nothing follows a step that fails. -/
theorem bind_of_error {x : EStateM ε σ α} {f : α → EStateM ε σ β} {s s' : σ} {e : ε}
    (h : x s = .error e s') : (x >>= f) s = .error e s' := by
  change EStateM.bind x f s = .error e s'
  rw [EStateM.bind, h]

/-- What follows a look at the state gets the state. -/
theorem get_bind (f : σ → EStateM ε σ β) (s : σ) : (get >>= f) s = f s s := rfl

/-- What follows a change of the state runs on the new one. -/
theorem set_bind (f : PUnit → EStateM ε σ β) (s s' : σ) : (set s' >>= f) s = f () s' := rfl

/-- Where two steps succeed, the first one does, and the second one on its result. -/
theorem exists_of_bind_ok {x : EStateM ε σ α} {f : α → EStateM ε σ β} {s s' : σ} {b : β}
    (h : (x >>= f) s = .ok b s') : ∃ a mid, x s = .ok a mid ∧ f a mid = .ok b s' := by
  cases hx : x s with
  | ok a mid =>
    rw [bind_of_ok hx] at h
    exact ⟨a, mid, rfl, h⟩
  | error e mid =>
    rw [bind_of_error hx] at h
    cases h

/-- Steps without a state succeed when each does. -/
theorem bind_eq_ok_iff {x : Except ε α} {f : α → Except ε β} {b : β} :
    (x >>= f) = .ok b ↔ ∃ a, x = .ok a ∧ f a = .ok b := by
  change Except.bind x f = .ok b ↔ _
  cases x with
  | error e => simp [Except.bind]
  | ok a => simp [Except.bind]

/-- They fail when one of them does. -/
theorem bind_eq_error_iff {x : Except ε α} {f : α → Except ε β} {e : ε} :
    (x >>= f) = .error e ↔ x = .error e ∨ ∃ a, x = .ok a ∧ f a = .error e := by
  change Except.bind x f = .error e ↔ _
  cases x with
  | error e => simp [Except.bind]
  | ok a => simp [Except.bind]

/-- The first of several steps succeeds, and the others run on its result. -/
theorem forM_cons_of_ok {f : α → EStateM ε σ Unit} {a : α} {as : List α} {s s' : σ}
    (h : f a s = .ok () s') : (a :: as).forM f s = as.forM f s' :=
  bind_of_ok (f := fun _ ↦ as.forM f) h

/-- The first of several steps fails, and the others do not run. -/
theorem forM_cons_of_error {f : α → EStateM ε σ Unit} {a : α} {as : List α} {s s' : σ} {e : ε}
    (h : f a s = .error e s') : (a :: as).forM f s = .error e s' :=
  bind_of_error (f := fun _ ↦ as.forM f) h

/-- Several steps succeed, and the others run on their result. -/
theorem forM_append_of_ok {f : α → EStateM ε σ Unit} {as bs : List α} {s s' : σ}
    (h : as.forM f s = .ok () s') : (as ++ bs).forM f s = bs.forM f s' := by
  induction as generalizing s with
  | nil =>
    cases h
    rfl
  | cons a as ih =>
    cases ha : f a s with
    | ok _ mid =>
      rw [forM_cons_of_ok ha] at h
      rw [List.cons_append, forM_cons_of_ok ha]
      exact ih h
    | error e mid =>
      rw [forM_cons_of_error ha] at h
      cases h

/-- Where several steps succeed, each of them does. -/
theorem exists_ok_of_forM {f : α → EStateM ε σ Unit} {a : α} {as : List α} {s s' : σ}
    (h : as.forM f s = .ok () s') (ha : a ∈ as) : ∃ t t', f a t = .ok () t' := by
  induction as generalizing s with
  | nil => cases ha
  | cons b as ih =>
    cases hb : f b s with
    | ok _ mid =>
      rw [forM_cons_of_ok hb] at h
      rcases List.mem_cons.mp ha with rfl | ha
      · exact ⟨s, mid, hb⟩
      · exact ih h ha
    | error e mid =>
      rw [forM_cons_of_error hb] at h
      cases h

end BrainPiet
