import BrainPiet.Command.Basic
import Mathlib.Data.List.TakeWhile

/-!
# The path that a picture is written to

It is the output if one is given, and named after the source otherwise, with the extension of the
source left out.
-/

namespace BrainPiet.Command

/-- A path ends in a dot and an extension. In the last name before the dot there is some letter
other than a dot. -/
def HasExtension (path stem extension : Phrase) : Prop :=
  path = stem ++ .char '.' :: extension ∧ .char '.' ∉ extension ∧ .char '/' ∉ extension ∧
    ∃ before c after, stem = before ++ c :: after ∧ c ≠ .char '.' ∧ c ≠ .char '/' ∧
      .char '/' ∉ after

variable {path : Phrase}

private theorem ne_of_mem_reverse {c : Letter} {letters : Phrase} (h : c ∉ letters) :
    ∀ x ∈ letters.reverse, decide (x ≠ c) = true := by
  intro x hx
  rw [decide_eq_true_iff]
  rintro rfl
  exact h (List.mem_reverse.mp hx)

/-- An extension is left out with its dot. -/
theorem withoutExtension_of_has {stem extension : Phrase} (h : HasExtension path stem extension) :
    withoutExtension path = stem := by
  obtain ⟨hpath, hdot, hslash, before, c, after, rfl, hc, hc', hafter⟩ := h
  have hletters : path.reverse =
      extension.reverse ++ .char '.' :: (after.reverse ++ c :: before.reverse) := by
    rw [hpath]
    simp
  have hname : path.reverse.takeWhile (· ≠ .char '/') = extension.reverse ++
      .char '.' :: (after.reverse ++ c :: before.reverse.takeWhile (· ≠ .char '/')) := by
    rw [hletters, List.takeWhile_append_of_pos (ne_of_mem_reverse hslash),
      List.takeWhile_cons_of_pos (by decide),
      List.takeWhile_append_of_pos (ne_of_mem_reverse hafter),
      List.takeWhile_cons_of_pos (by simpa using hc')]
  have hextension : (path.reverse.takeWhile (· ≠ .char '/')).takeWhile (· ≠ .char '.') =
      extension.reverse := by
    rw [hname, List.takeWhile_append_of_pos (ne_of_mem_reverse hdot),
      List.takeWhile_cons_of_neg (by decide), List.append_nil]
  have hskip (behind : Phrase) :
      (extension.reverse ++ .char '.' :: behind).drop (extension.reverse.length + 1) = behind := by
    simp [List.drop_append]
  unfold withoutExtension
  simp only [hextension]
  rw [hname, hletters, hskip, hskip, if_pos]
  · simp
  · simp [hc]

private theorem exists_takeWhile_append {c : Letter} {letters : Phrase}
    (h : (letters.takeWhile (· ≠ c)).length < letters.length) :
    ∃ behind, letters = letters.takeWhile (· ≠ c) ++ c :: behind := by
  have hparts : letters.takeWhile (· ≠ c) ++ letters.dropWhile (· ≠ c) = letters :=
    List.takeWhile_append_dropWhile
  cases hdrop : letters.dropWhile (· ≠ c) with
  | nil =>
    rw [hdrop, List.append_nil] at hparts
    rw [hparts] at h
    exact absurd h (Nat.lt_irrefl _)
  | cons d behind =>
    have hhead := List.head?_dropWhile_not (fun x : Letter ↦ decide (x ≠ c)) letters
    rw [hdrop] at hhead
    obtain rfl : d = c := by simpa using hhead
    rw [hdrop] at hparts
    exact ⟨behind, hparts.symm⟩

/-- Without an extension there is nothing to leave out. -/
theorem withoutExtension_of_not (h : ∀ stem extension, ¬HasExtension path stem extension) :
    withoutExtension path = path := by
  unfold withoutExtension
  extract_lets letters name extension stem
  apply if_neg
  rintro ⟨hlt, hany⟩
  obtain ⟨behind, hname⟩ := exists_takeWhile_append hlt
  change name = extension ++ .char '.' :: behind at hname
  obtain ⟨c, hc, hne⟩ : ∃ c ∈ behind, c ≠ .char '.' := by
    have hstem : stem = behind := by
      change name.drop (extension.length + 1) = behind
      rw [hname]
      simp [List.drop_append]
    simpa [hstem] using hany
  obtain ⟨after, before, rfl⟩ := List.append_of_mem hc
  have hletters : name ++ letters.dropWhile (· ≠ .char '/') = letters :=
    List.takeWhile_append_dropWhile
  have hslash : ∀ x ∈ name, x ≠ .char '/' := by
    intro x hx
    simpa using List.mem_takeWhile_imp hx
  have hdot : ∀ x ∈ extension, x ≠ .char '.' := by
    intro x hx
    simpa using List.mem_takeWhile_imp hx
  rw [hname] at hletters hslash
  apply h ((letters.dropWhile (· ≠ .char '/')).reverse ++ before.reverse ++ c :: after.reverse)
    extension.reverse
  refine ⟨?_, ?_, ?_, _, c, after.reverse, rfl, hne, hslash c (by simp), ?_⟩
  · rw [← List.reverse_reverse path]
    change letters.reverse = _
    rw [← congrArg List.reverse hletters]
    simp
  · exact fun hmem ↦ hdot _ (List.mem_reverse.mp hmem) rfl
  · exact fun hmem ↦ hslash _ (List.mem_append_left _ (List.mem_reverse.mp hmem)) rfl
  · intro hmem
    exact hslash _ (by simp [List.mem_reverse.mp hmem]) rfl

/-- The path that a compilation writes to. -/
inductive Target (source : Phrase) (out : Option Phrase) : Phrase → Prop
  | given {path : Phrase} (hout : out = some path) (hne : path ≠ []) : Target source out path
  /-- The source is the input. -/
  | input (hout : out.getD [] = []) (hsource : source = Compile.inputPath) :
    Target source out (Phrase.ofText "out.png")
  | replaced {stem extension : Phrase} (hout : out.getD [] = [])
    (hsource : source ≠ Compile.inputPath) (h : HasExtension source stem extension) :
    Target source out (stem ++ Phrase.ofText ".png")
  | appended (hout : out.getD [] = []) (hsource : source ≠ Compile.inputPath)
    (h : ∀ stem extension, ¬HasExtension source stem extension) :
    Target source out (source ++ Phrase.ofText ".png")

/-- The output of a command is named by these rules. -/
theorem target_outPath (a : Arguments) : Target a.source a.out (outPath a) := by
  have hderived (hout : a.out.getD [] = []) : Target a.source a.out (outPath.derived a) := by
    unfold outPath.derived
    split
    · next hsource => exact .input hout hsource
    · next hsource =>
      by_cases h : ∃ stem extension, HasExtension a.source stem extension
      · obtain ⟨stem, extension, h⟩ := h
        rw [withoutExtension_of_has h]
        exact .replaced hout hsource h
      · have hnot : ∀ stem extension, ¬HasExtension a.source stem extension :=
          fun stem extension hhas ↦ h ⟨stem, extension, hhas⟩
        rw [withoutExtension_of_not hnot]
        exact .appended hout hsource hnot
  unfold outPath
  cases hout : a.out with
  | none =>
    rw [hout] at hderived
    exact hderived rfl
  | some out =>
    rw [hout] at hderived
    simp only
    split
    · next hempty => exact hderived (by simpa using hempty)
    · next hempty => exact .given rfl (by simpa using hempty)

end BrainPiet.Command
