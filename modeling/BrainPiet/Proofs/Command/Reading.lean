import BrainPiet.Command.Basic
import BrainPiet.Proofs.Sequence

/-!
# Command lines that ask for a compilation

A source, perhaps an output, and perhaps a codel size behind its flag: such a command line is read
as what it says, unless the size is none.
-/

namespace BrainPiet.Command

variable {form : Form} {text : Phrase} {rest : List Phrase} {w : Word} {ws : List Word}

private theorem Word.not_isPlain_of_isFlag (h : w.isFlag) : w.isPlain = false ∧ w.isDivider = false := by
  unfold isFlag at h
  split at h
  · next hrole => simp [isPlain, isDivider, hrole]
  · cases h

private theorem words_cons {r : Role} (hne : text ≠ divider) (hrole : role form text = .ok r)
    (rest : List Phrase) :
    words form (text :: rest) = (words form rest).map (⟨text, r⟩ :: ·) := by
  rw [words, if_neg hne, hrole]
  cases words form rest <;> rfl

private theorem of_role_error {stop : Stop} (h : role form text = .error stop) :
    1 < (candidates form text).length ∧ ∃ problem, stop = .usage form problem := by
  simp only [role] at h
  repeat' split at h
  -- all branches but the last give a role
  all_goals try cases h
  next hone hnone =>
    refine ⟨?_, _, rfl⟩
    rcases hfound : candidates form text with _ | ⟨one, _ | ⟨two, more⟩⟩
    · exact absurd hfound hnone
    · exact absurd hfound (hone one)
    · simp

private theorem length_candidates_top (text : Phrase) : (candidates .top text).length ≤ 1 := by
  have hspell : Form.top.spellings = [("-h", .help), ("--help", .help)] := rfl
  unfold candidates
  split
  · next more =>
    have hstart : ∃ behind, (splitEquals (.char '-' :: .char '-' :: more)).1 =
        .char '-' :: .char '-' :: behind := by
      unfold splitEquals
      split
      · exact ⟨_, rfl⟩
      · exact ⟨_, rfl⟩
    obtain ⟨behind, hstart⟩ := hstart
    have hshort : (Letter.char '-' :: .char '-' :: behind).isPrefixOf (Phrase.ofText "-h") =
        false := by
      simp [Phrase.ofText, List.isPrefixOf]
    simp only [hspell, hstart, List.filter_cons, hshort, Bool.false_eq_true, if_false]
    split <;> simp
  · next c value hdash =>
    have hne : c ≠ .char '-' := hdash
    have hlong : (Phrase.ofText "--help" = [.char '-', c]) = False ∧
        (Letter.char '-' :: c :: value).isPrefixOf (Phrase.ofText "--help") = false := by
      simp [Phrase.ofText, List.isPrefixOf, hne]
    simp only [hspell, List.filterMap_cons, hlong]
    split <;> simp
  · exact Nat.zero_le 1

private theorem exists_words_top (argv : List Phrase) :
    ∃ ws, words .top argv = .ok ws ∧ ws.map Word.text = argv := by
  induction argv with
  | nil => exact ⟨[], rfl, rfl⟩
  | cons text rest ih =>
    by_cases hdiv : text = divider
    · subst hdiv
      refine ⟨_, rfl, ?_⟩
      simp [Function.comp_def]
    · cases hrole : role .top text with
      | error stop =>
        exact absurd (of_role_error hrole).1 (Nat.not_lt.mpr (length_candidates_top text))
      | ok r =>
        obtain ⟨ws, hws, htext⟩ := ih
        rw [words_cons hdiv hrole, hws]
        exact ⟨_, rfl, congrArg (text :: ·) htext⟩

section Rounds

variable {n : Nat} {r : Reading} {a : Arguments} {slots : List Slot} {left : List Word}

private theorem readWords_of_plain (hws : ws.any Word.isFlag = false)
    (hfill : fillSlots r.arguments r.slots ws = (a, slots, left)) :
    readWords form (n + 1) r ws = .ok ⟨a, slots, r.extras ++ left.map Word.text⟩ := by
  simp only [readWords, hws, hfill]
  rfl

private theorem readWords_of_fill (hws : (w :: ws).any Word.isFlag) (hw : w.isFlag = false)
    (hfill : fillSlots r.arguments r.slots (w :: ws) = (a, slots, left))
    (hleft : left.length < (w :: ws).length) :
    readWords form (n + 1) r (w :: ws) =
      readWords form n { r with arguments := a, slots } left := by
  rw [readWords]
  · simp only [hws, hfill, if_pos hleft]
    rfl
  · rintro _ _ _ ⟨⟩
    cases hw
  · rintro _ _ ⟨⟩
    cases hw

private theorem readWords_command (form : Form) (n : Nat) (hplain : w.role = .plain) (ws : List Word) :
    readWords form (n + 2) { slots := [.command] } (w :: ws) =
      .ok ⟨{ command := some (w.text :: ws.map Word.text) }, [], []⟩ := by
  have hfill : fillSlots {} [.command] (w :: ws) =
      ({ command := some (w.text :: ws.map Word.text) }, [], []) := by
    simp [fillSlots, Slot.span, Word.isDivider, Word.isPlain, hplain, Arguments.fill]
  cases hws : (w :: ws).any Word.isFlag with
  | false => exact readWords_of_plain (r := { slots := [.command] }) hws hfill
  | true =>
    have hw : w.isFlag = false := by simp [Word.isFlag, hplain]
    rw [readWords_of_fill (r := { slots := [.command] }) hws hw hfill (Nat.zero_lt_succ _)]
    exact readWords_of_plain rfl rfl

end Rounds

/-- The words behind a command are left to it. -/
theorem readForm_top (verb : Verb) (rest : List Phrase) :
    readForm .top (Phrase.ofText verb.name :: rest) =
      .ok ({ command := some (Phrase.ofText verb.name :: rest) }, []) := by
  have hname : Phrase.ofText verb.name ≠ divider := by cases verb <;> decide
  have hrole : role .top (Phrase.ofText verb.name) = .ok .plain := by cases verb <;> rfl
  obtain ⟨ws, hws, htext⟩ := exists_words_top rest
  have hwords : words .top (Phrase.ofText verb.name :: rest) =
      .ok (⟨Phrase.ofText verb.name, .plain⟩ :: ws) := by
    rw [words_cons hname hrole, hws]
    rfl
  have hread := readWords_command .top ws.length (w := ⟨Phrase.ofText verb.name, .plain⟩) rfl ws
  rw [htext] at hread
  exact bind_eq_ok_iff.mpr ⟨_, hwords, bind_eq_ok_iff.mpr ⟨_, hread, rfl⟩⟩

/-- A command line is read by the form of its command. -/
theorem read_verb (verb : Verb) (rest : List Phrase) :
    read (Phrase.ofText verb.name :: rest) = (readForm (.ofVerb verb) rest).bind fun found ↦
      if found.2.isEmpty then .ok (some (verb, found.1))
      else .error (.usage .top ("unrecognized arguments: " ++ " ".intercalate (found.2.map Text.shown))) := by
  unfold read
  rw [readForm_top]
  cases verb <;> rfl

/-- The word is taken for a positional argument of a compilation. -/
def Positional (text : Phrase) : Prop :=
  text ≠ divider ∧ role (.ofVerb .compile) text = .ok .plain

/-- A text that does not start with a minus sign is one. -/
theorem positional_of_head? (h : text.head? ≠ some (.char '-')) : Positional text := by
  constructor
  · rintro rfl
    exact h rfl
  · unfold role
    simp [h]

/-- A command line that asks for a compilation. -/
def compileLine (source : Phrase) (out size : Option Phrase) : List Phrase :=
  Phrase.ofText Verb.compile.name :: source :: (out.toList ++ (size.map fun text ↦ [Phrase.ofText "-c", text]).getD [])

/-- The codel size that is asked for. -/
def requestedSize : Option Phrase → Except Text.NotPositive Nat
  | none => .ok Compile.defaultSize
  | some text => Text.positive text

private theorem head?_ne_of_positive {n : Nat} (h : Text.positive text = .ok n) :
    text.head? ≠ some (.char '-') := by
  intro hhead
  obtain ⟨letters, rfl⟩ := List.head?_eq_some_iff.mp hhead
  have hdash : Text.isBlank '-' = false := by decide
  have hneg : ((Letter.char '-' :: letters).mapM Letter.char?).bind Text.integer? = none ∨
      ∃ k : Nat, ((Letter.char '-' :: letters).mapM Letter.char?).bind Text.integer? =
        some (-(k : Int)) := by
    cases hchars : letters.mapM Letter.char? with
    | none => simp [Letter.char?, hchars]
    | some chars =>
      cases hnum : Text.unsigned? chars with
      | none => simp [Letter.char?, hchars, Text.integer?, hdash, hnum]
      | some k => exact .inr ⟨k, by simp [Letter.char?, hchars, Text.integer?, hdash, hnum]⟩
  unfold Text.positive at h
  rcases hneg with hnone | ⟨k, hk⟩
  · rw [hnone] at h
    cases h
  · have hle : ¬0 < -(k : Int) := by omega
    simp only [hk, if_neg hle] at h
    cases h

section Compile

variable {source : Phrase} {out : Option Phrase}

private theorem words_positional (hsource : Positional source) (hout : ∀ o ∈ out, Positional o)
    (rest : List Phrase) :
    words (.ofVerb .compile) (source :: (out.toList ++ rest)) =
      (words (.ofVerb .compile) rest).map fun ws ↦
        ⟨source, .plain⟩ :: (out.toList.map (⟨·, .plain⟩) ++ ws) := by
  rw [words_cons hsource.1 hsource.2]
  cases out with
  | none => rfl
  | some o =>
    have ho := hout o rfl
    rw [Option.toList_some, List.singleton_append, words_cons ho.1 ho.2]
    cases words (.ofVerb .compile) rest <;> rfl

private theorem fillSlots_word {a : Arguments} {slot : Slot} {slots : List Slot} (hslot : slot ≠ .command)
    (hw : w.role = .plain) (hws : ∀ v ∈ ws.head?, v.isDivider = false) :
    fillSlots a (slot :: slots) (w :: ws) = fillSlots (a.fill slot [w.text]) slots ws := by
  have hafter : ws.takeWhile Word.isDivider = [] := by
    cases ws with
    | nil => rfl
    | cons v ws => simp [hws v rfl]
  have hspan : slot.span (w :: ws) = some 1 := by
    cases slot <;> simp [Slot.span, Word.isDivider, Word.isPlain, hw, hafter] at hslot ⊢
  simp [fillSlots, hspan]

private theorem fillSlots_out {a : Arguments} {slots : List Slot} (hws : ∀ v ∈ ws.head?, v.isFlag) :
    fillSlots a (.out :: slots) ws = fillSlots { a with out := none } slots ws := by
  have hspan : Slot.out.span ws = some 0 := by
    cases ws with
    | nil => rfl
    | cons v ws =>
      have hv := Word.not_isPlain_of_isFlag (hws v rfl)
      simp [Slot.span, hv]
  simp [fillSlots, hspan, Arguments.fill]

private theorem fillSlots_positional (hsource : Positional source) (hout : ∀ o ∈ out, Positional o)
    (ws : List Word) (hws : ∀ w ∈ ws.head?, w.isFlag) :
    fillSlots {} [.source, .out] (⟨source, .plain⟩ :: (out.toList.map (⟨·, .plain⟩) ++ ws)) =
      ({ source, out }, [], ws) := by
  have hdiv : ∀ v ∈ ws.head?, v.isDivider = false :=
    fun v hv ↦ (Word.not_isPlain_of_isFlag (hws v hv)).2
  cases out with
  | none =>
    rw [Option.toList_none, List.map_nil, List.nil_append, fillSlots_word (by decide) rfl hdiv,
      fillSlots_out hws]
    simp [fillSlots, Arguments.fill, hsource.1]
  | some o =>
    rw [Option.toList_some, List.map_singleton, List.singleton_append,
      fillSlots_word (by decide) rfl (by rintro _ ⟨⟩; rfl), fillSlots_word (by decide) rfl hdiv]
    simp [fillSlots, Arguments.fill, hsource.1, (hout o rfl).1]

/-- The flag for the codel size, as it stands on the command line. -/
def sizeFlag : Word := ⟨Phrase.ofText "-c", .flag (some ⟨.codelSize, "-c", none⟩)⟩

private theorem set_size {a : Arguments} (hne : text ≠ divider) :
    a.set form .codelSize (some text) =
      match Text.positive text with
      | .ok k => .ok { a with codelSize := some k }
      | .error fault => flagProblem form .codelSize fault.message := by
  have hvalue : (some text).filter (· ≠ divider) = some text := by simp [Option.filter, hne]
  simp only [Arguments.set, hvalue, flagNumber]
  cases Text.positive text <;> rfl

private theorem readWords_size {n k : Nat} {a : Arguments} (hw : w.role = .plain) (hne : w.text ≠ divider)
    (hk : Text.positive w.text = .ok k) :
    readWords (.ofVerb .compile) (n + 2) ⟨a, [], []⟩ [sizeFlag, w] =
      .ok ⟨{ a with codelSize := some k }, [], []⟩ := by
  obtain ⟨text, _⟩ := w
  cases hw
  have hset : a.set (.ofVerb .compile) .codelSize (some text) =
      .ok { a with codelSize := some k } := by
    rw [set_size hne, hk]
  change (a.set (.ofVerb .compile) .codelSize (some text) >>= .ok).bind _ = _
  rw [hset]
  rfl

private theorem readWords_size_error {n : Nat} {a : Arguments} {reason : Text.NotPositive}
    (h : Text.positive w.text = .error reason) (hne : w.role = .plain → w.text ≠ divider) :
    ∃ problem, readWords (.ofVerb .compile) (n + 2) ⟨a, [], []⟩ [sizeFlag, w] =
      .error (.usage (.ofVerb .compile) problem) := by
  obtain ⟨text, role⟩ := w
  cases role with
  | plain =>
    have hset : a.set (.ofVerb .compile) .codelSize (some text) =
        flagProblem (.ofVerb .compile) .codelSize reason.message := by
      rw [set_size (hne rfl), h]
    refine ⟨"argument " ++ Flag.codelSize.display ++ ": " ++ reason.message, ?_⟩
    change (a.set (.ofVerb .compile) .codelSize (some text) >>= .ok).bind _ = _
    rw [hset]
    rfl
  | divider => exact ⟨_, rfl⟩
  | flag found => exact ⟨_, rfl⟩

private theorem readWords_positional (hsource : Positional source) (hout : ∀ o ∈ out, Positional o)
    (w : Word) :
    let found := ⟨source, .plain⟩ :: (out.toList.map (⟨·, .plain⟩) ++ [sizeFlag, w])
    readWords (.ofVerb .compile) (found.length + 1) { slots := [.source, .out] } found =
      readWords (.ofVerb .compile) (out.toList.length + 3) ⟨{ source, out }, [], []⟩
        [sizeFlag, w] := by
  intro found
  have hlength : found.length = out.toList.length + 3 := by simp [found]
  have hfill := fillSlots_positional hsource hout [sizeFlag, w] (by rintro _ ⟨⟩; rfl)
  rw [hlength]
  apply readWords_of_fill (r := { slots := [.source, .out] }) _ rfl hfill
  · simp
  · simp [sizeFlag, Word.isFlag]

private theorem words_size (text : Phrase) :
    words (.ofVerb .compile) [Phrase.ofText "-c", text] =
      (words (.ofVerb .compile) [text]).map (sizeFlag :: ·) :=
  words_cons (by decide) rfl [text]

private theorem words_singleton (form : Form) (text : Phrase) :
    (∃ r, (r = .plain → text ≠ divider) ∧ words form [text] = .ok [⟨text, r⟩]) ∨
      ∃ problem, words form [text] = .error (.usage form problem) := by
  by_cases hdiv : text = divider
  · subst hdiv
    exact .inl ⟨.divider, by decide, rfl⟩
  · cases hrole : role form text with
    | ok r =>
      rw [words_cons hdiv hrole]
      exact .inl ⟨r, fun _ ↦ hdiv, rfl⟩
    | error stop =>
      obtain ⟨problem, rfl⟩ := (of_role_error hrole).2
      refine .inr ⟨problem, ?_⟩
      rw [words, if_neg hdiv, hrole]
      rfl

/-- A command line is understood if its codel size is a positive number. -/
theorem read_compileLine {size : Option Phrase} {n : Nat} (hsource : Positional source)
    (hout : ∀ o ∈ out, Positional o) (hsize : requestedSize size = .ok n) :
    read (compileLine source out size) =
      .ok (some (.compile, { source, out, codelSize := some n })) := by
  have hform : readForm (.ofVerb .compile)
      (source :: (out.toList ++ (size.map fun text ↦ [Phrase.ofText "-c", text]).getD [])) =
        .ok ({ source, out, codelSize := some n }, []) := by
    unfold readForm
    rw [words_positional hsource hout]
    cases size with
    | none =>
      cases hsize
      have hfill := fillSlots_positional hsource hout [] (by simp)
      refine bind_eq_ok_iff.mpr ⟨_, rfl, bind_eq_ok_iff.mpr ⟨⟨{ source, out }, [], []⟩, ?_, rfl⟩⟩
      apply readWords_of_plain (r := { slots := [.source, .out] }) _ hfill
      simp [Word.isFlag]
    | some text =>
      have htext := positional_of_head? (head?_ne_of_positive hsize)
      have hread := readWords_positional hsource hout ⟨text, .plain⟩
      rw [readWords_size (w := ⟨text, .plain⟩) rfl htext.1 hsize] at hread
      rw [Option.map_some, Option.getD_some, words_size, words_cons htext.1 htext.2]
      exact bind_eq_ok_iff.mpr ⟨_, rfl, bind_eq_ok_iff.mpr ⟨_, hread, rfl⟩⟩
  rw [compileLine, read_verb, hform]
  rfl

/-- A command line is not understood if its codel size is none. -/
theorem read_compileLine_error {size : Option Phrase} {reason : Text.NotPositive}
    (hsource : Positional source) (hout : ∀ o ∈ out, Positional o)
    (hsize : requestedSize size = .error reason) :
    ∃ problem, read (compileLine source out size) =
      .error (.usage (.ofVerb .compile) problem) := by
  cases size with
  | none => cases hsize
  | some text =>
    have hform : ∃ problem, readForm (.ofVerb .compile) (source :: (out.toList ++ [Phrase.ofText "-c", text])) =
        .error (.usage (.ofVerb .compile) problem) := by
      unfold readForm
      rw [words_positional hsource hout, words_size]
      rcases words_singleton (.ofVerb .compile) text with ⟨r, hplain, hwords⟩ | ⟨problem, hwords⟩
      · obtain ⟨problem, hread⟩ := readWords_size_error (n := out.toList.length + 1)
          (a := { source, out }) (w := ⟨text, r⟩) hsize hplain
        rw [← readWords_positional hsource hout] at hread
        rw [hwords]
        exact ⟨problem, bind_eq_error_iff.mpr (.inr ⟨_, rfl, bind_eq_error_iff.mpr (.inl hread)⟩)⟩
      · rw [hwords]
        exact ⟨problem, rfl⟩
    obtain ⟨problem, hform⟩ := hform
    refine ⟨problem, ?_⟩
    rw [compileLine, read_verb, Option.map_some, Option.getD_some, hform]
    rfl

end Compile

end BrainPiet.Command
