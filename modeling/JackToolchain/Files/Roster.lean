import JackToolchain.Files.Fault
import JackToolchain.Files.Host
import JackToolchain.Files.Source

/-!
# Gathering the files to read

The arguments of a tool are files and directories. A directory stands for the files with
the tool's extension in it. The roster holds the files in the order of their paths, and
one entry for paths that differ only in how they are spelled.

* `Roster.insert`: adds an entry unless the roster has it.
* `gather`: the source files that arguments stand for.
-/

namespace JackToolchain.Files

/-- A file to read. An explicit one was named itself, and not by its directory. -/
structure Entry where
  path : FilePath
  explicit : Bool
deriving DecidableEq, Repr

namespace Entry

/-- How entries are ordered: by the components of their paths, then by how they came. -/
def compare (e f : Entry) : Ordering :=
  (Ord.compare e.path.components f.path.components).then (Ord.compare e.explicit f.explicit)

end Entry

/-- The files to read, in order. -/
abbrev Roster := List Entry

/-- Adds an entry unless the roster has it. -/
def Roster.insert : Roster → Entry → Roster
  | [], e => [e]
  | f :: rest, e =>
    match e.compare f with
    | .lt => e :: f :: rest
    | .eq => f :: rest
    | .gt => f :: Roster.insert rest e

/-- The roster of some entries. -/
def Roster.ofList (entries : List Entry) : Roster :=
  entries.foldl Roster.insert []

variable {m : Type → Type} [Monad m] [Host m]

/-- The entries that an argument stands for. -/
def entriesAt (extension : String) (p : FilePath) : ExceptT Fault m (List Entry) := do
  if ← Host.isDirectory p then
    let some names ← Host.names p | throw (.unreadable p)
    let paths := (names.map p.join).filter (·.extension? = some extension)
    let files ← paths.filterM fun q => Host.isFile q
    return files.map (⟨·, false⟩)
  else
    return [⟨p, true⟩]

/-- Reads the file of an entry. One that was named itself has to have the extension. -/
def Entry.read (extension : String) (e : Entry) : ExceptT Fault m Source := do
  if e.explicit ∧ e.path.extension? ≠ some extension then
    throw (.wrongExtension e.path extension)
  let some text ← Host.read e.path | throw (.unreadable e.path)
  let some source := Source.ofText? e.path.spelled text | throw (.noStem e.path.spelled)
  return source

/-- The source files that arguments stand for. -/
def gather (extension : String) (arguments : List String) : ExceptT Fault m (List Source) := do
  let entries ← arguments.mapM fun a => entriesAt extension ⟨a⟩
  match Roster.ofList entries.flatten with
  | [] => throw (.noneFound extension)
  | roster => roster.mapM (Entry.read extension)

end JackToolchain.Files
