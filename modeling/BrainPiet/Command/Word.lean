import BrainPiet.Command.Form

/-!
# Words of the command line

Each word is plain, a flag or the divider `--`, behind which all words are plain. A flag may be
spelt in full, by the beginning of a long spelling that fits no other, or with its value attached.
-/

namespace BrainPiet.Command

/-- Why reading stops before there is a command to carry out. -/
inductive Stop
  /-- Help was asked for. -/
  | help (form : Form)
  | usage (form : Form) (problem : String)
  deriving DecidableEq, Repr, Inhabited

/-- A flag as it was found: which one, by which spelling, with what text attached. -/
structure Found where
  flag : Flag
  spelling : String
  attached : Option Phrase := none
  deriving DecidableEq, Repr, Inhabited

/-- What a word is. -/
inductive Role
  | plain
  | divider
  /-- A flag; none when the form has no such flag. -/
  | flag (found : Option Found)
  deriving DecidableEq, Repr, Inhabited

/-- A word with its role. -/
structure Word where
  text : Phrase
  role : Role
  deriving DecidableEq, Repr, Inhabited

namespace Word

/-- The word is a flag. -/
def isFlag (w : Word) : Bool :=
  match w.role with
  | .flag _ => true
  | _ => false

/-- The word is plain. -/
def isPlain (w : Word) : Bool := w.role = .plain

/-- The word is the divider. -/
def isDivider (w : Word) : Bool := w.role = .divider

end Word

/-- The letters before the first equals sign and the value behind it. -/
def splitEquals (text : Phrase) : Phrase × Option Phrase :=
  match text.dropWhile (· ≠ .char '=') with
  | [] => (text, none)
  | _ :: value => (text.takeWhile (· ≠ .char '='), some value)

/-- A minus sign before digits, perhaps with a decimal point; one line feed may follow. -/
def looksNegative (text : Phrase) : Bool :=
  let isDigit (letter : Letter) : Bool := (letter.char?.bind Text.digit?).isSome
  match text with
  | .char '-' :: body =>
    let body := if body.getLast? = some (.char '\n') then body.dropLast else body
    match body.dropWhile isDigit with
    | [] => !body.isEmpty
    | .char '.' :: fraction => !fraction.isEmpty && fraction.all isDigit
    | _ => false
  | _ => false

/-- The flags of a form that a text which is no full spelling may stand for. -/
def candidates (form : Form) (text : Phrase) : List Found :=
  match text with
  | .char '-' :: .char '-' :: _ =>
    let (start, attached) := splitEquals text
    (form.spellings.filter fun (name, _) ↦ start.isPrefixOf (Phrase.ofText name)).map fun (name, flag) ↦
      ⟨flag, name, attached⟩
  | .char '-' :: letter :: value =>
    form.spellings.filterMap fun (name, flag) ↦
      if Phrase.ofText name = [.char '-', letter] then some ⟨flag, name, some value⟩
      else if text.isPrefixOf (Phrase.ofText name) then some ⟨flag, name, none⟩
      else none
  | _ => []

/-- The role of a word that is not the divider. -/
def role (form : Form) (text : Phrase) : Except Stop Role :=
  let named (name : Phrase) : Option (String × Flag) :=
    form.spellings.find? fun (n, _) ↦ Phrase.ofText n = name
  let (start, attached) := splitEquals text
  if text.head? ≠ some (.char '-') then .ok .plain
  else match named text with
    | some (name, flag) => .ok (.flag (some ⟨flag, name, none⟩))
    | none =>
      if text.length = 1 then .ok .plain
      else match attached, named start with
        | some attached, some (name, flag) => .ok (.flag (some ⟨flag, name, some attached⟩))
        | _, _ =>
          match candidates form text with
          | [found] => .ok (.flag (some found))
          | [] =>
            if looksNegative text || text.contains (.char ' ') then .ok .plain
            else .ok (.flag none)
          | several =>
            .error (.usage form ("ambiguous option: " ++ Text.shown text ++ " could match " ++
              ", ".intercalate (several.map (·.spelling))))

/-- The text that divides flags from plain words. -/
def divider : Phrase := Phrase.ofText "--"

/-- The words of a command line with their roles. -/
def words (form : Form) : List Phrase → Except Stop (List Word)
  | [] => .ok []
  | text :: rest =>
    if text = divider then .ok (⟨text, .divider⟩ :: rest.map (⟨·, .plain⟩))
    else do
      let role ← role form text
      return ⟨text, role⟩ :: (← words form rest)

end BrainPiet.Command
