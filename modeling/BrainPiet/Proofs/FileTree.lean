import BrainPiet.FileTree
import BrainPiet.Proofs.Sequence
import Mathlib.Data.List.Basic

/-!
# What the store of a workspace does

A file that is written where a path leads to is found by that path, and no other entry of the tree
changes. Where the path cannot be written to, nothing changes at all. So the files of a workspace are
those of a store.
-/

namespace BrainPiet

/-- Letters make up a text if they are characters all. -/
theorem Phrase.isSome_text? (p : Phrase) :
    p.text?.isSome = p.all fun letter ↦ letter.char?.isSome := by
  induction p with
  | nil => rfl
  | cons letter p ih =>
    rw [List.all_cons, ← ih, text?, text?, List.mapM_cons]
    cases letter.char? with
    | none => rfl
    | some c => cases p.mapM Letter.char? <;> rfl

/-- What an entry holds, if it is a file. -/
def Entry.data? : Entry → Option (List UInt8)
  | directory => none
  | file data => some data

namespace FileTree

variable {t : FileTree} {l l' here there : Location} {e : Entry} {path : Phrase}

/-- An entry is found where it was put, unless a directory stands there for good. -/
theorem get?_put_self (h : t.get? l ≠ some .directory) : (t.put l e).get? l = some e := by
  unfold get? at h
  split at h
  · exact absurd rfl h
  · next hl =>
    change (if l.isPrefixOf t.home then _ else _) = _
    rw [if_neg hl]
    exact Std.HashMap.getElem?_insert_self

/-- All other entries stay. -/
theorem get?_put_of_ne (h : l' ≠ l) : (t.put l e).get? l' = t.get? l' := by
  unfold get? put
  split
  · rfl
  · rw [Std.HashMap.getElem?_insert, if_neg]
    simpa using h.symm

private theorem directory_eq_ok_iff :
    t.directory path here = .ok there ↔ there = here ∧ t.get? here = some .directory := by
  unfold directory
  split
  · next hdir =>
    rw [Except.ok.injEq, eq_comm, hdir]
    simp
  · next hfile => simp [hfile]
  · next hnone => simp [hnone]

private theorem directory_put (hl : t.get? l ≠ some .directory) (h : t.directory path here = .ok there) :
    (t.put l e).directory path here = .ok there := by
  rw [directory_eq_ok_iff] at h ⊢
  obtain ⟨rfl, hdir⟩ := h
  refine ⟨rfl, ?_⟩
  rw [get?_put_of_ne, hdir]
  rintro rfl
  exact hl hdir

private theorem advance_put (hl : t.get? l ≠ some .directory) {step : Phrase}
    (h : t.advance path here step = .ok there) :
    (t.put l e).advance path here step = .ok there := by
  unfold advance at h ⊢
  obtain ⟨dir, hdir, h⟩ := bind_eq_ok_iff.mp h
  exact bind_eq_ok_iff.mpr ⟨dir, directory_put hl hdir, h⟩

private theorem foldlM_advance_put (hl : t.get? l ≠ some .directory) {steps : List Phrase}
    (h : steps.foldlM (t.advance path) here = .ok there) :
    steps.foldlM ((t.put l e).advance path) here = .ok there := by
  induction steps generalizing here with
  | nil => exact h
  | cons step steps ih =>
    rw [List.foldlM_cons] at h ⊢
    obtain ⟨next, hstep, h⟩ := bind_eq_ok_iff.mp h
    exact bind_eq_ok_iff.mpr ⟨next, advance_put hl hstep, ih h⟩

/-- A path leads where it did when an entry is put where there is no directory. -/
theorem locate_put (hl : t.get? l ≠ some .directory) (h : t.locate path = .ok there) :
    (t.put l e).locate path = .ok there := by
  obtain ⟨route, hroute, hsteps⟩ := bind_eq_ok_iff.mp h
  exact bind_eq_ok_iff.mpr ⟨route, hroute, foldlM_advance_put hl hsteps⟩

/-- A path that can be written to leads to a place where there is no directory. -/
theorem of_target (h : t.target path = .ok l) :
    t.locate path = .ok l ∧ t.get? l ≠ some .directory := by
  unfold target at h
  obtain ⟨route, hroute, hbehind⟩ := bind_eq_ok_iff.mp h
  obtain ⟨above, habove, hinside⟩ := bind_eq_ok_iff.mp hbehind
  obtain ⟨dir, hdir, hfile⟩ := bind_eq_ok_iff.mp hinside
  rw [(directory_eq_ok_iff.mp hdir).1] at hfile
  cases hlast : route.steps.getLast? with
  | none =>
    rw [hlast] at hfile
    cases hfile
  | some step =>
    simp only [hlast] at hfile
    split at hfile
    · obtain ⟨place, hplace, hput⟩ := bind_eq_ok_iff.mp hfile
      split at hput
      · cases hput
      · next hfree =>
        cases hput
        refine ⟨bind_eq_ok_iff.mpr ⟨route, hroute, ?_⟩, hfree⟩
        rw [← List.dropLast_append_getLast? step hlast, List.foldlM_append]
        refine bind_eq_ok_iff.mpr ⟨above, habove, ?_⟩
        rw [List.foldlM_cons]
        exact bind_eq_ok_iff.mpr ⟨l, hplace, rfl⟩
    · cases hfile

/-- What is read is held by the file that the path leads to. -/
theorem of_read {data : List UInt8} (h : t.read path = .ok data) :
    ∃ l, t.locate path = .ok l ∧ t.get? l = some (.file data) := by
  obtain ⟨l, hl, hentry⟩ := bind_eq_ok_iff.mp h
  refine ⟨l, hl, ?_⟩
  cases hget : t.get? l with
  | none =>
    rw [hget] at hentry
    cases hentry
  | some e =>
    cases e with
    | directory =>
      rw [hget] at hentry
      cases hentry
    | file found =>
      simp only [hget] at hentry
      split at hentry
      · cases hentry
      · cases hentry
        rfl

/-- The files of a tree: a path leads to a location, and a file may be there. -/
def files (t : FileTree) : Files Location where
  find path := (t.locate path).toOption
  data l := (t.get? l).bind Entry.data?

/-- A file that is written where a path can be written to is found there, and no other changes. -/
theorem files_put (h : t.target path = .ok l) (bytes : List UInt8) :
    let t' := (t.put l (.file [])).put l (.file bytes)
    t'.files.find path = some l ∧ t.files.find path = some l ∧ t'.files.data l = some bytes ∧
      ∀ other ≠ l, t'.files.data other = t.files.data other := by
  intro t'
  obtain ⟨hlocate, hfree⟩ := of_target h
  have hempty : (t.put l (.file [])).get? l ≠ some .directory := by
    rw [get?_put_self hfree]
    rintro ⟨⟩
  refine ⟨?_, ?_, ?_, ?_⟩
  · simp only [files, t', locate_put hempty (locate_put hfree hlocate)]
    rfl
  · simp only [files, hlocate]
    rfl
  · simp only [files, t', get?_put_self hempty]
    rfl
  · intro other hne
    simp only [files, t', get?_put_of_ne hne]

end FileTree

namespace Workspace

variable {w : Workspace} {path : Phrase} {l : Location} {fault : FileFault}

/-- An empty file is put where a path can be written to. -/
theorem run_create_of_ok (h : w.tree.target path = .ok l) :
    (create path).run w = (.ok l, { w with tree := w.tree.put l (.file []) }) := by
  simp only [create, StateT.run_bind, StateT.run_get, pure_bind, h]
  rfl

private theorem run_create_of_error (h : w.tree.target path = .error fault) :
    (create path).run w = (.error fault, w) := by
  simp only [create, StateT.run_bind, StateT.run_get, pure_bind, h]
  rfl

private theorem tree_run_print (text : Phrase) : ((print text).run w).2.tree = w.tree := by
  unfold print
  split <;> rfl

/-- The actions of a workspace as those of a store. -/
def meaning : store.Meaning where
  State := Workspace
  File := Location
  files w := w.tree.files
  run x w := x.run w
  run_pure _ _ := rfl
  run_bind _ _ _ := rfl
  readInput_keeps _ := rfl
  read_keeps _ _ := rfl
  read_holds path w bytes h := by
    have hread : w.tree.read path = .ok bytes := h
    obtain ⟨l, hl, hfile⟩ := FileTree.of_read hread
    refine ⟨l, ?_, ?_⟩
    · simp only [FileTree.files, hl]
      rfl
    · simp only [FileTree.files, hfile]
      rfl
  create_fails path w fault h := by
    change ((create path).run w).1 = _ at h
    change ((create path).run w).2.tree.files = _
    cases htarget : w.tree.target path with
    | error reason => rw [run_create_of_error htarget]
    | ok l =>
      rw [run_create_of_ok htarget] at h
      cases h
  write_completes path w l bytes h := by
    intro result
    change ((create path).run w).1 = _ at h
    have htarget : w.tree.target path = .ok l := by
      cases htarget : w.tree.target path with
      | error reason =>
        rw [run_create_of_error htarget] at h
        cases h
      | ok l' =>
        rw [run_create_of_ok htarget] at h
        cases h
        rfl
    have hresult : result =
        (.ok (), { w with tree := (w.tree.put l (.file [])).put l (.file bytes) }) := by
      change (write l bytes).run ((create path).run w).2 = _
      rw [run_create_of_ok htarget]
      rfl
    rw [hresult]
    obtain ⟨hfind, hbefore, hdata, hother⟩ := FileTree.files_put htarget bytes
    refine ⟨rfl, l, hfind, ?_, hdata, hother⟩
    intro before hb
    exact Option.some.inj (hb.symm.trans hbefore)
  print_keeps text w := congrArg FileTree.files (tree_run_print text)
  warn_keeps _ _ := rfl

/-- Letters can be printed if they are characters all. -/
theorem isOk_print (w : meaning.State) (text : Phrase) :
    (meaning.run (store.print text) w).1.isOk = text.all fun letter ↦ letter.char?.isSome := by
  have hencoded : text.encoded.isOk = text.all fun letter ↦ letter.char?.isSome := by
    rw [← Phrase.isSome_text?, Phrase.encoded]
    cases text.text? <;> rfl
  change ((print text).run w).1.isOk = _
  rw [← hencoded, print]
  cases text.encoded <;> rfl

end Workspace

end BrainPiet
