/-!
# Paths

A path is kept as it was spelled, since messages repeat it. What it names is read off
its components.

* `FilePath.components`: the parts of a path; repeated and final separators and inner `.`
  do not count.
* `FilePath.fileName?`, `FilePath.stem?`, `FilePath.extension?`: the parts of its last component.
* `FilePath.parent?`, `FilePath.join`, `FilePath.withExtension`: paths beside it.
-/

namespace JackToolchain.Files

/-- A path as it was spelled. -/
structure FilePath where
  spelled : String
deriving DecidableEq, Repr, Inhabited

/-- One part of a path. -/
inductive Component where
  | root | here | up | name (text : String)
deriving DecidableEq, Repr, Ord

namespace FilePath

/-- What stands between the separators. -/
def segments (p : FilePath) : List String :=
  (p.spelled.toList.splitOn '/').map String.ofList

/-- Whether the path starts at the top of the tree. -/
def isAbsolute (p : FilePath) : Bool :=
  p.spelled.toList.head? == some '/'

/-- Whether a segment adds nothing to the segments before it. -/
def isIdle (segment : String) : Bool :=
  segment == "" || segment == "."

/-- The component that a segment stands for behind other components. -/
def innerComponent? (segment : String) : Option Component :=
  if isIdle segment then none
  else if segment = ".." then some .up
  else some (.name segment)

/-- The parts of a path. A leading `.` counts, since it says that the path is relative. -/
def components (p : FilePath) : List Component :=
  let start :=
    if p.isAbsolute then [.root] else if p.segments.head? == some "." then [.here] else []
  start ++ p.segments.filterMap innerComponent?

/-- Segments without the idle ones at their end. -/
def dropIdle (segments : List String) : List String :=
  (segments.reverse.dropWhile isIdle).reverse

/-- The last component of the path, if it is a name. -/
def fileName? (p : FilePath) : Option String :=
  (dropIdle p.segments).getLast?.filter (· ≠ "..")

/-- Splits a file name at its last dot. A dot at the start does not count. -/
def splitName (name : String) : String × Option String :=
  let cs := name.toList
  let extension := (cs.reverse.takeWhile (· ≠ '.')).reverse
  let stem := cs.take (cs.length - extension.length - 1)
  if '.' ∈ cs ∧ stem ≠ [] then (String.ofList stem, some (String.ofList extension))
  else (name, none)

/-- The file name without its extension. -/
def stem? (p : FilePath) : Option String :=
  p.fileName?.map fun name => (splitName name).1

/-- The extension of the file name. -/
def extension? (p : FilePath) : Option String :=
  p.fileName?.bind fun name => (splitName name).2

/-- The path that some leading segments of a path spell. -/
def ofSegments (segments : List String) : FilePath :=
  ⟨"/".intercalate segments⟩

/-- The path without its last component. -/
def parent? (p : FilePath) : Option FilePath :=
  match p.components.getLast? with
  | none | some .root => none
  | some .here => some ⟨""⟩
  | some _ =>
    let rest := dropIdle (dropIdle p.segments).dropLast
    if rest.isEmpty then
      if p.isAbsolute then some ⟨"/"⟩
      else if p.segments.head? == some "." then some ⟨"."⟩
      else some ⟨""⟩
    else some (ofSegments rest)

/-- A path and the paths above it, up to a number of them. -/
def ancestorsUpTo : Nat → FilePath → List FilePath
  | 0, _ => []
  | n + 1, p => p :: (p.parent?.map (ancestorsUpTo n)).getD []

/-- A path and the paths above it, which are at most as many as its segments. -/
def ancestors (p : FilePath) : List FilePath :=
  ancestorsUpTo (p.segments.length + 1) p

/-- A name inside the directory at a path. -/
def join (p : FilePath) (name : String) : FilePath :=
  if p.spelled = "" || p.spelled.toList.getLast? == some '/' then ⟨p.spelled ++ name⟩
  else ⟨p.spelled ++ "/" ++ name⟩

/-- The path with its extension replaced, or added if it has none. A path that names no
file stays as it is, and so does one that ends in `..` once the old extension is gone. -/
def withExtension (p : FilePath) (extension : String) : FilePath :=
  let kept := dropIdle p.segments
  match p.fileName? with
  | none => p
  | some name =>
    let (stem, old) := splitName name
    if stem = "." ∧ old.isSome ∧ kept.length = p.segments.length then
      ofSegments (kept.dropLast ++ [".."])
    else
      ofSegments (kept.dropLast ++ [stem ++ "." ++ extension])

end FilePath

end JackToolchain.Files
