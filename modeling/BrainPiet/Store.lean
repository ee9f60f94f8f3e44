import BrainPiet.Text.Quoted

/-!
# Stores

A store is how a program reaches its files and its streams. What a store does is told by the states
of a system: files hold data, and a path may lead to a file. Several paths may lead to the same one.
-/

namespace BrainPiet

/-- Why a path could not be used. -/
inductive FileFault
  /-- An error of the system, by number and wording. -/
  | system (number : Nat) (text : String) (path : Phrase)
  /-- No path holds a null character. -/
  | nullByte
  deriving DecidableEq, Repr, Inhabited

namespace FileFault

/-- Nothing has this path. -/
def notFound (path : Phrase) : FileFault := .system 2 "No such file or directory" path

/-- The path must not be used in this way. -/
def denied (path : Phrase) : FileFault := .system 13 "Permission denied" path

/-- The path leads through a file. -/
def notDirectory (path : Phrase) : FileFault := .system 20 "Not a directory" path

/-- The path is that of a directory. -/
def isDirectory (path : Phrase) : FileFault := .system 21 "Is a directory" path

/-- The path, or a name in it, is too long. -/
def tooLong (path : Phrase) : FileFault := .system 36 "File name too long" path

/-- The wording of each fault. -/
def message : FileFault → String
  | system number text path =>
    "[Errno " ++ toString number ++ "] " ++ text ++ ": " ++ Text.quotedPhrase path
  | nullByte => "embedded null byte"

end FileFault

/-- Why a text cannot be written to a stream of characters: the first of its stray bytes that stand
side by side, and how many letters come before them. -/
structure EncodingFault where
  position : Nat
  strays : List UInt8
  deriving DecidableEq, Repr, Inhabited

/-- The wording of the fault. -/
def EncodingFault.message (fault : EncodingFault) : String :=
  let what := match fault.strays with
    | [b] => "character '" ++ Text.strayMark b ++ "' in position " ++ toString fault.position
    | strays => "characters in position " ++ toString fault.position ++ "-" ++
      toString (fault.position + strays.length - 1)
  "'utf-8' codec can't encode " ++ what ++ ": surrogates not allowed"

/-- The text that a stream of characters gets for letters. -/
def Phrase.encoded (p : Phrase) : Except EncodingFault String :=
  match p.text? with
  | some text => .ok text
  | none =>
    let before := p.takeWhile fun letter ↦ letter.char?.isSome
    .error ⟨before.length,
      ((p.drop before.length).takeWhile fun letter ↦ letter.stray?.isSome).filterMap Letter.stray?⟩

/-- Why something could not be printed. -/
inductive PrintFault
  | encoding (fault : EncodingFault)
  /-- An error of the system. -/
  | system (text : String)
  deriving DecidableEq, Repr, Inhabited

/-- The wording of each fault. -/
def PrintFault.message : PrintFault → String
  | encoding fault => fault.message
  | system text => text

/-- The files and the streams of a program. -/
structure Store (m : Type → Type) where
  /-- What a file that was opened is known by. -/
  Handle : Type
  readInput : m (List UInt8)
  read : Phrase → m (Except FileFault (List UInt8))
  /-- Opens a file to write it anew. -/
  create : Phrase → m (Except FileFault Handle)
  write : Handle → List UInt8 → m (Except FileFault Unit)
  print : Phrase → m (Except PrintFault Unit)
  /-- Prints a message to the stream of errors. -/
  warn : String → m Unit

/-- The files of a system: which one a path leads to, and what each of them holds, if it is there. -/
structure Files (File : Type) where
  find : Phrase → Option File
  data : File → Option (List UInt8)

/-- What the actions of a store do: they run on the states of a system that has files. -/
structure Store.Meaning {m : Type → Type} [Monad m] (store : Store m) where
  State : Type
  File : Type
  files : State → Files File
  run : {α : Type} → m α → State → α × State
  run_pure : ∀ {α : Type} (a : α) s, run (pure a) s = (a, s)
  run_bind : ∀ {α β : Type} (x : m α) (f : α → m β) s,
    run (x >>= f) s = run (f (run x s).1) (run x s).2
  /-- No file changes when the input is read. -/
  readInput_keeps : ∀ s, files (run store.readInput s).2 = files s
  /-- No file changes when one is read. -/
  read_keeps : ∀ path s, files (run (store.read path) s).2 = files s
  /-- What is read is held by the file that the path leads to. -/
  read_holds : ∀ path s bytes, (run (store.read path) s).1 = .ok bytes →
    ∃ file, (files s).find path = some file ∧ (files s).data file = some bytes
  /-- No file changes when one cannot be opened. -/
  create_fails : ∀ path s fault, (run (store.create path) s).1 = .error fault →
    files (run (store.create path) s).2 = files s
  /-- A file that was opened can be written. It is the one that the path leads to, as it did if there
  was one, and it then holds what was written; no other file changes. -/
  write_completes : ∀ path s handle bytes, (run (store.create path) s).1 = .ok handle →
    let result := run (store.write handle bytes) (run (store.create path) s).2
    result.1 = .ok () ∧ ∃ file, (files result.2).find path = some file ∧
      (∀ before, (files s).find path = some before → before = file) ∧
      (files result.2).data file = some bytes ∧
      ∀ other ≠ file, (files result.2).data other = (files s).data other
  /-- No file changes when something is printed, or cannot be. -/
  print_keeps : ∀ text s, files (run (store.print text) s).2 = files s
  warn_keeps : ∀ text s, files (run (store.warn text) s).2 = files s

end BrainPiet
