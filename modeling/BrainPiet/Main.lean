import BrainPiet.Command.Basic
import BrainPiet.Png.Library

/-!
# The program

Connects the command line with the files and streams of the system.
-/

namespace BrainPiet.Program

/-- The number of a system error, which may be negated, is the given one. -/
def isCode (number code : UInt32) : Bool := code == number || code == 0 - number

/-- The fault behind an error of the system. -/
def fileFault (path : Phrase) : IO.Error → FileFault
  | .inappropriateType _ code _ =>
    if isCode 20 code then .notDirectory path else .isDirectory path
  | .invalidArgument _ code _ => if isCode 36 code then .tooLong path else .notFound path
  | .permissionDenied _ _ _ => .denied path
  | _ => .notFound path

/-- Carries out an action on a file, whose path has to be a text. -/
def attempt {α : Type} (path : Phrase) (action : String → IO α) : BaseIO (Except FileFault α) := do
  match path.text? with
  | none => return .error (.notFound path)
  | some text =>
    match ← (action text).toBaseIO with
    | .ok a => return .ok a
    | .error e => return .error (fileFault path e)

/-- Reads a stream to its end. -/
partial def readAll (stream : IO.FS.Stream) (done : ByteArray) : IO ByteArray := do
  let part ← stream.read 65536
  if part.isEmpty then return done else readAll stream (done ++ part)

/-- Writes a text to a stream. -/
def writeText (stream : IO.FS.Stream) (text : String) : BaseIO (Except PrintFault Unit) := do
  match ← (do stream.putStr text; stream.flush : IO Unit).toBaseIO with
  | .ok _ => return .ok ()
  | .error e => return .error (.system (toString e))

/-- The store of the system's files. -/
def store : Store BaseIO where
  Handle := Phrase × IO.FS.Handle
  readInput := do
    match ← (do readAll (← IO.getStdin) .empty : IO ByteArray).toBaseIO with
    | .ok data => return data.toList
    | .error _ => return []
  read path := do return (← attempt path fun text ↦ IO.FS.readBinFile text).map ByteArray.toList
  create path := do
    return (← attempt path fun text ↦ IO.FS.Handle.mk text .write).map fun handle ↦ (path, handle)
  write := fun (path, handle) data ↦
    attempt path fun _ ↦ do handle.write data.toByteArray; handle.flush
  print text := do
    match text.encoded with
    | .error fault => return .error (.encoding fault)
    | .ok text => writeText (← IO.getStdout) text
  warn text := do discard (writeText (← IO.getStderr) text)

end BrainPiet.Program

/-- Runs the program on its arguments. -/
def main (argv : List String) : IO UInt32 := do
  let ending : BaseIO BrainPiet.Command.Ending :=
    BrainPiet.Command.execute BrainPiet.Png.library BrainPiet.Program.store
      (argv.map BrainPiet.Phrase.ofText)
  let ending ← ending
  if let .breakdown cause := ending then IO.eprintln cause.message
  return UInt32.ofNat ending.status
