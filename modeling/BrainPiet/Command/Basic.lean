import BrainPiet.Command.Arguments

/-!
# Carrying out a command

The whole program as a function of its command line, for any imaging library and any store: what it
does there, and how it ends.
-/

namespace BrainPiet.Command

/-- A fault that is reported by no message of the program. -/
inductive Breakdown
  | size (fault : BadCodelSize)
  | file (fault : FileFault)
  | raster (fault : RasterFault)
  | print (fault : PrintFault)
  /-- The text for the input cannot be written as characters. -/
  | input (fault : EncodingFault)
  | walk (fault : WalkFault)
  /-- The limit of steps is too long to be written. -/
  | unwritableLimit
  /-- The flag for the input was given an empty value. -/
  | noInput
  /-- The flag for the limit of steps was given an empty value. -/
  | noLimit
  deriving DecidableEq, Repr, Inhabited

/-- The wording of each fault. -/
def Breakdown.message : Breakdown → String
  | size fault => fault.message
  | file fault => fault.message
  | raster fault => fault.message
  | print fault => fault.message
  | input fault => fault.message
  | walk fault => fault.message
  | unwritableLimit => RunFault.unwritableLimit.message
  | noInput => "'list' object has no attribute 'encode'"
  | noLimit => "'>=' not supported between instances of 'int' and 'list'"

/-- How the program ends. -/
inductive Ending
  | exit (code : Nat)
  | breakdown (cause : Breakdown)
  deriving DecidableEq, Repr, Inhabited

/-- The status that the program exits with. -/
def Ending.status : Ending → Nat
  | exit code => code
  | breakdown _ => 1

/-- The path without the extension of its last component; leading dots belong to no extension. -/
def withoutExtension (path : Phrase) : Phrase :=
  let letters := path.reverse
  let name := letters.takeWhile (· ≠ .char '/')
  let extension := name.takeWhile (· ≠ .char '.')
  let stem := name.drop (extension.length + 1)
  if extension.length < name.length ∧ stem.any (· ≠ .char '.') then
    (letters.drop (extension.length + 1)).reverse
  else path

/-- Where a compiled picture goes. -/
def outPath (a : Arguments) : Phrase :=
  match a.out with
  | some out => if out.isEmpty then derived else out
  | none => derived
where
  /-- The output that is named after the source. -/
  derived : Phrase :=
    if a.source = Compile.inputPath then Phrase.ofText "out.png"
    else withoutExtension a.source ++ Phrase.ofText ".png"

/-- The list of what is understood, line by line. -/
def listing : List String :=
  ["Supported Brainfuck instructions:\n"] ++
    Symbol.all.map (fun s ↦ "- " ++ s.char.toString ++ "  " ++ s.description ++ "\n") ++
    ["Piet operations:\n"] ++ Operation.all.map fun op ↦ "- " ++ op.name ++ "\n"

/-- A byte of the output as a character that can be shown. -/
def shownChar (b : UInt8) : Char :=
  if (32 ≤ b ∧ b ≤ 126) ∨ b = 10 then Char.ofNat b.toNat else '?'

/-- The output of a run as it is printed. -/
def shownOutput (out : List UInt8) : List String :=
  ("Output (bytes): [" ++ ", ".intercalate (out.map fun b ↦ toString b.toNat) ++ "]\n") ::
    if out.isEmpty then []
    else ["Output (chars): " ++ String.ofList (out.map shownChar) ++ "\n"]

/-- The codel size that was asked for. A flag with an empty value gives an empty list. -/
def Arguments.size (a : Arguments) : Setting :=
  match a.codelSize with
  | some n => .int n
  | none => .list []

variable {m : Type → Type} [Monad m] (lib : Imaging) (store : Store m)

/-- Prints texts one after the other; then all went well. -/
def say : List Phrase → m Ending
  | [] => return .exit 0
  | text :: rest => do
    match ← store.print text with
    | .ok _ => say rest
    | .error fault => return .breakdown (.print fault)

/-- Reports that the command failed. -/
def complain (message : String) : m Ending := do
  store.warn (message ++ "\n")
  return .exit 1

/-- The command line was not understood, or asked for help. -/
def stop : Stop → m Ending
  | .help form => say store [Phrase.ofText form.help]
  | .usage form problem => do
    store.warn (form.usage ++ form.title ++ ": error: " ++ problem ++ "\n")
    return .exit 2

/-- Reports a path that could not be used, unless no file can have it. -/
def complainFile (fault : FileFault) : m Ending :=
  match fault with
  | .nullByte => return .breakdown (.file fault)
  | _ => complain store ("I/O error: " ++ fault.message)

/-- Reports that a run failed. -/
def complainRun (fault : RunFault) : m Ending :=
  match fault with
  | .walk cause => return .breakdown (.walk cause)
  | .unwritableLimit => return .breakdown .unwritableLimit
  | _ => complain store ("Runtime error: " ++ fault.message)

/-- Says where the picture of a source went. -/
def written (path : Phrase) (grid : Grid) : Phrase :=
  Phrase.ofText "Wrote Piet image to " ++ path ++ Phrase.ofText (" (" ++ toString grid.width ++ "x" ++
    toString (grid.height + 1) ++ " codels)\n")

/-- Compiles a source. -/
def compile (a : Arguments) : m Ending := do
  match ← Compile.file lib store a.source (outPath a) a.size with
  | .ok grid => say store [written (outPath a) grid]
  | .error (.file fault) => complainFile store fault
  | .error (.setting fault) => stop store (.usage .top fault.message)
  | .error (.raster fault) => return .breakdown (.raster fault)
  | .error (.translate fault) => complain store ("Translation failed: " ++ fault.message)

/-- Runs a picture with some input, at most for the given number of steps. -/
def runLoaded (p : Picture) (trace : Bool) (input : List UInt8) (limit : Nat) : m Ending :=
  if trace then
    match p.traceRun input limit with
    | .error fault => complainRun store fault
    | .ok (out, lines) =>
      say store ((("\n".intercalate (lastLines traceTail lines) ++ "\n") :: shownOutput out).map
        Phrase.ofText)
  else
    match p.run input limit with
    | .error fault => complainRun store fault
    | .ok out => say store ((shownOutput out).map Phrase.ofText)

/-- Runs the picture that codels make up. A run without a limit breaks down on its first step. -/
def runPicture (a : Arguments) (rows : List (List Rgb)) : m Ending :=
  match Picture.load rows {} with
  | .error _ _ => return .breakdown (.walk .missing)
  | .ok _ p =>
    match a.input with
    | none => return .breakdown .noInput
    | some input =>
      match input.encoded, a.maxSteps with
      | .error fault, _ => return .breakdown (.input fault)
      | .ok _, none =>
        if p.start?.isNone then complainRun store .noStart else return .breakdown .noLimit
      | .ok input, some limit => runLoaded store p a.trace input.toUTF8.toList limit

/-- Reports an image that could not be read, unless the fault is none of the system. -/
def complainImage (fault : ImagingFault) : m Ending :=
  if fault.isSystem then complain store ("I/O error: " ++ fault.text)
  else return .breakdown (.raster (.library fault))

/-- Runs a picture file. -/
def run (a : Arguments) : m Ending := do
  match a.size.codelSize with
  | .error fault => return .breakdown (.size fault)
  | .ok size =>
    match ← store.read a.program with
    | .error fault => complainFile store fault
    | .ok data =>
      match lib.read a.program data with
      | .error fault => complainImage store fault
      | .ok image =>
        match lib.codels size image with
        | .error fault => return .breakdown (.raster fault)
        | .ok rows => runPicture store a rows

/-- The program: reads the command line and carries out the command. -/
def execute (argv : List Phrase) : m Ending :=
  match read argv with
  | .error reason => stop store reason
  | .ok none => say store [Phrase.ofText Form.top.help]
  | .ok (some (.compile, a)) => compile lib store a
  | .ok (some (.run, a)) => run lib store a
  | .ok (some (.available, _)) => say store (listing.map Phrase.ofText)

end BrainPiet.Command
