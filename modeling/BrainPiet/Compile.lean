import BrainPiet.Run
import BrainPiet.Store

/-!
# Compiling a file

A source file is read as characters of one byte each, translated and written as a picture. The
picture is complete before the output is opened.
-/

namespace BrainPiet

/-- Why a file was not compiled. -/
inductive CompileFault
  | setting (fault : BadCodelSize)
  | file (fault : FileFault)
  | translate (fault : TranslateFault)
  | raster (fault : RasterFault)
  deriving DecidableEq, Repr, Inhabited

/-- The wording of each fault. -/
def CompileFault.message : CompileFault → String
  | setting fault => fault.message
  | file fault => fault.message
  | translate fault => fault.message
  | raster fault => fault.message

namespace Compile

variable {m : Type → Type} [Monad m] (lib : Imaging) (store : Store m)

/-- The path that stands for the input. -/
def inputPath : Phrase := [.char '-']

/-- The bytes of a source. -/
def readSource (path : Phrase) : m (Except FileFault (List UInt8)) := do
  if path = inputPath then return .ok (← store.readInput) else store.read path

/-- The grid of a source and the file of its picture. -/
def picture (source : List UInt8) (size : Setting) : Except CompileFault (Grid × List UInt8) := do
  let grid ← (translate (Byte.text source)).mapError .translate
  return (grid, ← (grid.file lib size).mapError .raster)

/-- Writes a file anew. -/
def writeFile (path : Phrase) (data : List UInt8) : m (Except FileFault Unit) := do
  match ← store.create path with
  | .error fault => return .error fault
  | .ok handle => store.write handle data

/-- Compiles a file to another. -/
def file (source out : Phrase) (size : Setting) : m (Except CompileFault Grid) := do
  match size.codelSize with
  | .error fault => return .error (.setting fault)
  | .ok _ =>
    match ← readSource store source with
    | .error fault => return .error (.file fault)
    | .ok bytes =>
      match picture lib bytes size with
      | .error fault => return .error fault
      | .ok (grid, data) =>
        match ← writeFile store out data with
        | .error fault => return .error (.file fault)
        | .ok _ => return .ok grid

/-- The codel size of a compilation, if none is given. -/
def defaultSize : Nat := 8

end Compile

end BrainPiet
