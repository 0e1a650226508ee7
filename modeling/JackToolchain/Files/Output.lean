import JackToolchain.Files.Fault
import JackToolchain.Files.Host
import JackToolchain.Files.Source

/-!
# Writing output

A file is written beside its place and then moved there, so that nobody sees half of it.

* `ensureDirectory`: makes the output directory.
* `writeFile`: writes a file.
* `outputPath`, `writeOutputs`: where the output of each source file goes.
-/

namespace JackToolchain.Files

open Terminal

variable {m : Type → Type} [Monad m] [Host m]

/-- Makes a directory unless it is there. -/
def ensureDirectory (palette : Palette) (p : FilePath) : ExceptT Fault m Unit := do
  unless ← Host.isDirectory p do
    unless ← Host.makeDirectories p do
      throw (.directoryNotMade p)
    log palette .info ("Created output directory: `" ++ p.spelled ++ "`")

/-- The path beside another under which its file is written first. -/
def FilePath.temporary (p : FilePath) : FilePath :=
  ⟨p.spelled ++ ".tmp"⟩

/-- Writes a file. -/
def writeFile (p : FilePath) (text : String) : ExceptT Fault m Unit := do
  unless ← Host.write p.temporary text do
    throw (.notWritten p.temporary)
  match ← Host.move p.temporary p with
  | .ok () => return ()
  | .error obstacle => do
    Host.remove p.temporary
    throw (.notMoved p obstacle)

/-- Where the output of a source file goes: beside it, or under its name in a directory. -/
def outputPath (extension : String) (directory : Option FilePath) (source : Source) :
    Except Fault FilePath :=
  let beside := source.path.withExtension extension
  match directory with
  | none => .ok beside
  | some d =>
    match beside.fileName? with
    | some name => .ok (d.join name)
    | none => .error .noFileName

/-- Writes the output of each source file and returns the paths in the same order. -/
def writeOutputs (extension : String) (directory : Option FilePath) :
    List (Source × String) → ExceptT Fault m (List FilePath)
  | [] => return []
  | (source, text) :: rest => do
    let p ← outputPath extension directory source
    writeFile p text
    return p :: (← writeOutputs extension directory rest)

end JackToolchain.Files
