import BrainPiet.Text.Numeral

/-!
# Forms of the command line

A form says which flags and which positional arguments a command takes, and holds the texts that are
shown for it.
-/

namespace BrainPiet.Command

/-- A flag that a command may take. -/
inductive Flag
  | help | codelSize | input | trace | maxSteps
  deriving DecidableEq, Repr, Inhabited

/-- A positional argument. -/
inductive Slot
  /-- The name of a command, with all that follows. -/
  | command
  | source
  /-- The output, which may be left out. -/
  | out
  | program
  deriving DecidableEq, Repr, Inhabited

/-- The commands. -/
inductive Verb
  | compile | run | available
  deriving DecidableEq, Repr, Inhabited

namespace Flag

/-- The spellings of a flag, in the order in which they are shown. -/
def names : Flag → List String
  | help => ["-h", "--help"]
  | codelSize => ["--codel-size", "-c"]
  | input => ["--input", "-i"]
  | trace => ["--trace"]
  | maxSteps => ["--max-steps"]

/-- The flag comes with a value. -/
def takesValue : Flag → Bool
  | help | trace => false
  | codelSize | input | maxSteps => true

/-- All spellings of a flag, as a message shows them. -/
def display (f : Flag) : String := "/".intercalate f.names

end Flag

namespace Slot

/-- The name of a positional argument. -/
def name : Slot → String
  | command => "cmd"
  | source => "src"
  | out => "out"
  | program => "program"

/-- The argument has to be given. -/
def required : Slot → Bool
  | source | program => true
  | command | out => false

end Slot

namespace Verb

/-- All commands, in the order in which they are shown. -/
def all : List Verb := [compile, run, available]

/-- The name of a command. -/
def name : Verb → String
  | compile => "compile"
  | run => "run"
  | available => "available"

/-- The command of a name. -/
def ofName? (text : Phrase) : Option Verb := all.find? fun verb ↦ Phrase.ofText verb.name = text

end Verb

/-- What a command takes, and its texts. -/
structure Form where
  title : String
  flags : List Flag
  slots : List Slot
  usage : String
  details : String
  deriving DecidableEq, Repr, Inhabited

namespace Form

/-- The spellings of the flags of a form, each with its flag. -/
def spellings (f : Form) : List (String × Flag) :=
  f.flags.flatMap fun flag ↦ flag.names.map fun name ↦ (name, flag)

/-- The full help. -/
def help (f : Form) : String := f.usage ++ "\n" ++ f.details

/-- The form of the program itself. -/
def top : Form where
  title := "main.py"
  flags := [.help]
  slots := [.command]
  usage := "usage: main.py [-h] \x7bcompile,run,available\x7d ...\n"
  details := "Brainfuck to Piet translator\n\npositional arguments:\n" ++
    "  \x7bcompile,run,available\x7d\n" ++
    "    compile             Translate a Brainfuck file into a Piet PNG\n" ++
    "    run                 Execute a Piet image\n" ++
    "    available           Show the Brainfuck instructions and Piet operations\n" ++
    "                        supported by the tool\n\noptions:\n" ++
    "  -h, --help            show this help message and exit\n"

/-- The form of a command. -/
def ofVerb : Verb → Form
  | .compile => {
    title := "main.py compile"
    flags := [.help, .codelSize]
    slots := [.source, .out]
    usage := "usage: main.py compile [-h] [--codel-size CODEL_SIZE] src [out]\n"
    details := "positional arguments:\n" ++
      "  src                   Brainfuck source file ('-' reads stdin)\n" ++
      "  out                   Output PNG file (optional). Defaults to <src>.png next\n" ++
      "                        to source\n\noptions:\n" ++
      "  -h, --help            show this help message and exit\n" ++
      "  --codel-size CODEL_SIZE, -c CODEL_SIZE\n" ++
      "                        Pixels per codel (default 8)\n" }
  | .run => {
    title := "main.py run"
    flags := [.help, .codelSize, .input, .trace, .maxSteps]
    slots := [.program]
    usage := "usage: main.py run [-h] [--codel-size CODEL_SIZE] [--input INPUT] [--trace]\n" ++
      "                   [--max-steps MAX_STEPS]\n" ++
      "                   program\n"
    details := "positional arguments:\n" ++
      "  program               Piet PNG file\n\noptions:\n" ++
      "  -h, --help            show this help message and exit\n" ++
      "  --codel-size CODEL_SIZE, -c CODEL_SIZE\n" ++
      "                        Pixels per codel (default 8)\n" ++
      "  --input INPUT, -i INPUT\n" ++
      "                        Text fed to the program's input\n" ++
      "  --trace               Print the last steps of the execution trace\n" ++
      "  --max-steps MAX_STEPS\n" ++
      "                        Abort after this many steps\n" }
  | .available => {
    title := "main.py available"
    flags := [.help]
    slots := []
    usage := "usage: main.py available [-h]\n"
    details := "options:\n  -h, --help  show this help message and exit\n" }

end Form

end BrainPiet.Command
