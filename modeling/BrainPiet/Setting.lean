import BrainPiet.Binary64
import BrainPiet.Machine.Number

/-!
# Settings

A setting is a value as a caller gave it, of any kind. Only a positive integer can be a codel size.
-/

namespace BrainPiet

/-- A value of any kind. -/
inductive Setting
  | none
  | flag (value : Bool)
  | int (value : Int)
  | real (value : Binary64)
  | text (value : String)
  | list (items : List Setting)
  | record (fields : List (String × Setting))
  deriving Repr, Inhabited

mutual

/-- The value as a message shows it, unless it holds a number that is too long to be written. -/
def Setting.display? : Setting → Option String
  | .none => some "None"
  | .flag true => some "True"
  | .flag false => some "False"
  | .int n => Text.decimal? n
  | .real value => some value.display
  | .text value => some (Text.quoted value)
  | .list items => (Setting.displayItems? items).map fun shown ↦ "[" ++ ", ".intercalate shown ++ "]"
  | .record fields =>
    (Setting.displayFields? fields).map fun shown ↦ "\x7b" ++ ", ".intercalate shown ++ "\x7d"

/-- The items of a list as a message shows them. -/
def Setting.displayItems? : List Setting → Option (List String)
  | [] => some []
  | item :: rest => do return (← item.display?) :: (← displayItems? rest)

/-- The fields of a record as a message shows them. -/
def Setting.displayFields? : List (String × Setting) → Option (List String)
  | [] => some []
  | (key, value) :: rest => do
    return (Text.quoted key ++ ": " ++ (← value.display?)) :: (← displayFields? rest)

end

/-- A setting that is no codel size, as a message shows it. -/
inductive BadCodelSize
  | shown (text : String)
  | unwritable
  deriving DecidableEq, Repr, Inhabited

/-- The wording of each fault. -/
def BadCodelSize.message : BadCodelSize → String
  | shown text => "codel size must be a positive integer, got " ++ text
  | unwritable => NumberFault.unwritable.message

/-- The codel size that a setting gives. -/
def Setting.codelSize (s : Setting) : Except BadCodelSize Nat :=
  match s with
  | .int (n + 1 : Nat) => .ok (n + 1)
  | _ =>
    match s.display? with
    | some shown => .error (.shown shown)
    | Option.none => .error .unwritable

end BrainPiet
