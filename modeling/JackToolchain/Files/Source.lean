import JackToolchain.Files.FilePath
import JackToolchain.Text.Lines

/-!
# Source files

* `Source.ofText?`: a source file from its name and text; its lines end in line feeds
  alone.
-/

namespace JackToolchain.Files

/-- A file to read: the name that messages use, the stem that names its output, and its
text. -/
structure Source where
  name : String
  stem : String
  content : String
deriving DecidableEq, Repr

/-- The path of a source file is its name. -/
def Source.path (s : Source) : FilePath := ⟨s.name⟩

/-- The source file of a name and a text. There is none if the name has no stem. -/
def Source.ofText? (name text : String) : Option Source :=
  (FilePath.mk name).stem?.map fun stem =>
    ⟨name, stem, String.ofList (Text.unixNewlines text.toList)⟩

end JackToolchain.Files
