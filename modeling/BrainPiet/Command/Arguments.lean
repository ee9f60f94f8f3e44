import BrainPiet.Command.Word
import BrainPiet.Compile

/-!
# Reading the command line

Words are read from left to right: flags as they come, and plain words into the positional arguments
of the form. As many positional arguments as possible are filled at a time, so one that may be left
out counts as left out when a flag follows the one before it. What fits nowhere is unrecognized.
-/

namespace BrainPiet.Command

/-- What was said on the command line. A flag that was given an empty value holds none. -/
structure Arguments where
  command : Option (List Phrase) := none
  source : Phrase := []
  out : Option Phrase := none
  program : Phrase := []
  codelSize : Option Nat := some Compile.defaultSize
  input : Option Phrase := some []
  trace : Bool := false
  maxSteps : Option Nat := some 1000000
  deriving DecidableEq, Repr, Inhabited

/-- A problem with a flag. -/
def flagProblem {α : Type} (form : Form) (flag : Flag) (text : String) : Except Stop α :=
  .error (.usage form ("argument " ++ flag.display ++ ": " ++ text))

/-- The number that a flag was given. -/
def flagNumber (form : Form) (flag : Flag) : Option Phrase → Except Stop (Option Nat)
  | none => .ok none
  | some text =>
    match Text.positive text with
    | .ok n => .ok (some n)
    | .error fault => flagProblem form flag fault.message

/-- Sets a flag, with its value if it takes one. A divider in the place of a value is dropped. -/
def Arguments.set (a : Arguments) (form : Form) (flag : Flag) (text : Option Phrase) :
    Except Stop Arguments :=
  let value := text.filter (· ≠ divider)
  match flag with
  | .help => .error (.help form)
  | .trace => .ok { a with trace := true }
  | .input => .ok { a with input := value }
  | .codelSize => do return { a with codelSize := ← flagNumber form flag value }
  | .maxSteps => do return { a with maxSteps := ← flagNumber form flag value }

/-- Fills a positional argument with the words that were taken for it. The first divider among them
is left out, unless they make up a command. -/
def Arguments.fill (a : Arguments) (slot : Slot) (taken : List Phrase) : Arguments :=
  let value? := (taken.erase divider).head?
  match slot with
  | .command => { a with command := some taken }
  | .source => { a with source := value?.getD [] }
  | .out => { a with out := value? }
  | .program => { a with program := value?.getD [] }

/-- The state of reading: what is known, the positional arguments still to be filled, and what was
not recognized. -/
structure Reading where
  arguments : Arguments := {}
  slots : List Slot
  extras : List Phrase := []
  deriving DecidableEq, Repr, Inhabited

/-- The number of words that a positional argument takes: dividers, a plain word and dividers. -/
def Slot.span (slot : Slot) (rest : List Word) : Option Nat :=
  let dividers := (rest.takeWhile Word.isDivider).length
  let plain := ((rest.drop dividers).head?.any Word.isPlain)
  let after := ((rest.drop (dividers + 1)).takeWhile Word.isDivider).length
  match slot with
  | .command => if plain then some rest.length else none
  | .out => some (if plain then dividers + 1 + after else dividers)
  | .source | .program => if plain then some (dividers + 1 + after) else none

/-- Fills as many positional arguments as the words allow; the words left over are the result. -/
def fillSlots (a : Arguments) : List Slot → List Word → Arguments × List Slot × List Word
  | [], rest => (a, [], rest)
  | slot :: slots, rest =>
    match slot.span rest with
    | none => (a, slot :: slots, rest)
    | some n => fillSlots (a.fill slot ((rest.take n).map (·.text))) slots (rest.drop n)

/-- The flags of one word, each with its value, and whether the word behind was taken for a value. -/
structure Cluster where
  flags : List (Flag × Option Phrase)
  tookNext : Bool := false
  deriving DecidableEq, Repr, Inhabited

/-- The flag of a form that a single letter stands for. -/
def Form.short? (form : Form) (letter : Letter) : Option Flag :=
  (form.spellings.find? fun (name, _) ↦ Phrase.ofText name = [.char '-', letter]).map (·.2)

/-- A flag with nothing attached; `next` is the word behind it that can be its value. -/
def bareFlag (form : Form) (next : Option Phrase) (flag : Flag) : Except Stop Cluster :=
  if flag.takesValue then
    match next with
    | some value => .ok ⟨[(flag, some value)], true⟩
    | none => flagProblem form flag "expected one argument"
  else .ok ⟨[(flag, none)], false⟩

/-- Text is attached to a flag that takes no value. -/
def ignoredText {α : Type} (form : Form) (flag : Flag) (text : Phrase) : Except Stop α :=
  flagProblem form flag ("ignored explicit argument " ++ Text.quotedPhrase text)

/-- A short flag with text attached: its value, or the letters of further short flags. -/
def shortFlags (form : Form) (next : Option Phrase) (flag : Flag) :
    Phrase → Except Stop Cluster
  | [] => if flag.takesValue then .ok ⟨[(flag, some [])], false⟩ else ignoredText form flag []
  | letter :: rest =>
    if flag.takesValue then .ok ⟨[(flag, some (letter :: rest))], false⟩
    else match form.short? letter with
      | none => ignoredText form flag (letter :: rest)
      | some further => do
        let behind ←
          if rest.isEmpty then bareFlag form next further else shortFlags form next further rest
        return ⟨(flag, none) :: behind.flags, behind.tookNext⟩

/-- The flags of one word; `next` is the word behind it that can be a value. -/
def flagsOf (form : Form) (found : Found) (next : Option Phrase) : Except Stop Cluster :=
  match found.attached with
  | none => bareFlag form next found.flag
  | some text =>
    if found.spelling.startsWith "--" ∧ !found.flag.takesValue then
      ignoredText form found.flag text
    else shortFlags form next found.flag text

/-- Sets flags one after the other. -/
def setFlags (form : Form) (a : Arguments) :
    List (Flag × Option Phrase) → Except Stop Arguments
  | [] => .ok a
  | (flag, text) :: rest => do setFlags form (← a.set form flag text) rest

/-- Reads all words. Each round reads at least one, so one round more than there are words is
enough. -/
def readWords (form : Form) : (fuel : Nat) → Reading → List Word → Except Stop Reading
  | 0, r, _ => .ok r
  | fuel + 1, r, rest =>
    if !rest.any Word.isFlag then
      let (a, slots, left) := fillSlots r.arguments r.slots rest
      .ok ⟨a, slots, r.extras ++ left.map (·.text)⟩
    else match rest with
      | ⟨_, .flag (some found)⟩ :: after => do
        let next := (after.head?.filter Word.isPlain).map (·.text)
        let cluster ← flagsOf form found next
        let a ← setFlags form r.arguments cluster.flags
        readWords form fuel { r with arguments := a }
          (if cluster.tookNext then after.tail else after)
      | ⟨text, .flag none⟩ :: after =>
        readWords form fuel { r with extras := r.extras ++ [text] } after
      | _ =>
        let (a, slots, left) := fillSlots r.arguments r.slots rest
        if left.length < rest.length then
          readWords form fuel { r with arguments := a, slots } left
        else
          let skipped := rest.takeWhile fun w ↦ !w.isFlag
          readWords form fuel
            { r with arguments := a, slots, extras := r.extras ++ skipped.map (·.text) }
            (rest.dropWhile fun w ↦ !w.isFlag)

/-- Reads the words of a form: what was said, and what was not recognized. -/
def readForm (form : Form) (argv : List Phrase) : Except Stop (Arguments × List Phrase) := do
  let found ← words form argv
  let r ← readWords form (found.length + 1) { slots := form.slots } found
  let missing := r.slots.filter Slot.required
  if missing.isEmpty then return (r.arguments, r.extras)
  else .error (.usage form ("the following arguments are required: " ++
    ", ".intercalate (missing.map Slot.name)))

/-- Reads a whole command line: the command, if there is one, and what was said for it. -/
def read (argv : List Phrase) : Except Stop (Option (Verb × Arguments)) := do
  let (top, extras) ← readForm .top argv
  let (command, further) ← match top.command with
    | none => pure (none, [])
    | some words =>
      let name := words.headD []
      match Verb.ofName? name with
      | none => Except.error (.usage .top ("argument cmd: invalid choice: " ++ Text.quotedPhrase name ++
          " (choose from " ++ ", ".intercalate (Verb.all.map (Text.quoted ·.name)) ++ ")"))
      | some verb => do
        let (a, extras) ← readForm (.ofVerb verb) words.tail
        pure (some (verb, a), extras)
  let unknown := extras ++ further
  if unknown.isEmpty then return command
  else .error (.usage .top ("unrecognized arguments: " ++ " ".intercalate (unknown.map Text.shown)))

end BrainPiet.Command
