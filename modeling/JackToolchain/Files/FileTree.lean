import JackToolchain.Files.FilePath

/-!
# Directory trees

A tree says what lies at each location. Operations name locations by paths, which are
walked from a working directory, and change the tree in one place.

* `FileTree.get?`, `FileTree.put`, `FileTree.erase`: the tree as a map.
* `FileTree.locate`: the location that a path names.
* `FileTree.makeDirectories`, `FileTree.write`, `FileTree.move`: the operations that change it.
-/

namespace JackToolchain.Files

/-- The names on the way from the top of the tree to a location. -/
abbrev Location := List String

/-- What a file holds: a text, or bytes that are none. -/
inductive Content where
  | text (s : String)
  | binary (bytes : List UInt8)
deriving DecidableEq, Repr

/-- What lies at a location. -/
inductive Node where
  | directory
  | file (content : Content)
deriving DecidableEq, Repr

/-- Why an operation on files fails. -/
inductive Obstacle where
  | missing | exists | notDirectory | isDirectory | busy | nameTooLong
  | other (reason : String)
deriving DecidableEq, Repr

/-- The reason as the system words it. -/
def Obstacle.text : Obstacle → String
  | .missing => "No such file or directory (os error 2)"
  | .exists => "File exists (os error 17)"
  | .notDirectory => "Not a directory (os error 20)"
  | .isDirectory => "Is a directory (os error 21)"
  | .busy => "Device or resource busy (os error 16)"
  | .nameTooLong => "File name too long (os error 36)"
  | .other reason => reason

/-- The most bytes that a name in a directory has. -/
def maxNameSize : Nat := 255

/-- The most bytes that a path has. -/
def maxPathSize : Nat := 4095

/-- A directory tree. Its top is a directory. -/
structure FileTree where
  nodes : List (Location × Node) := []
deriving DecidableEq, Repr

namespace FileTree

/-- What lies at a location. -/
def get? (t : FileTree) (l : Location) : Option Node :=
  if l = [] then some .directory else t.nodes.lookup l

/-- The tree with a node put at a location. -/
def put (t : FileTree) (l : Location) (n : Node) : FileTree :=
  ⟨(l, n) :: t.nodes.filter (·.1 ≠ l)⟩

/-- The tree with nothing at a location. -/
def erase (t : FileTree) (l : Location) : FileTree :=
  ⟨t.nodes.filter (·.1 ≠ l)⟩

/-- The names in a directory. -/
def names (t : FileTree) (l : Location) : List String :=
  t.nodes.filterMap fun (k, _) => if k.dropLast = l then k.getLast? else none

/-- Walks from a location along the segments of a path. Each step leaves a directory. -/
def walk (t : FileTree) (l : Location) : List String → Except Obstacle Location
  | [] => .ok l
  | s :: rest =>
    match t.get? l with
    | none => .error .missing
    | some (.file _) => .error .notDirectory
    | some .directory =>
      if FilePath.isIdle s then walk t l rest
      else if s = ".." then walk t l.dropLast rest
      else if maxNameSize < s.utf8ByteSize then .error .nameTooLong
      else walk t (l ++ [s]) rest

/-- The location that segments of a path name, seen from a working directory. -/
def locateSegments (t : FileTree) (here : Location) (p : FilePath) (segments : List String) :
    Except Obstacle Location :=
  if p.spelled = "" then .error .missing
  else if maxPathSize < p.spelled.utf8ByteSize then .error .nameTooLong
  else t.walk (if p.isAbsolute then [] else here) segments

/-- The location that a path names, whether or not something lies there. -/
def locate (t : FileTree) (here : Location) (p : FilePath) : Except Obstacle Location :=
  t.locateSegments here p p.segments

/-- What lies at a path. -/
def find? (t : FileTree) (here : Location) (p : FilePath) : Option Node :=
  match t.locate here p with
  | .ok l => t.get? l
  | .error _ => none

/-- Whether a directory lies at a path. -/
def isDirectory (t : FileTree) (here : Location) (p : FilePath) : Bool :=
  t.find? here p == some .directory

/-- Whether a file lies at a path. -/
def isFile (t : FileTree) (here : Location) (p : FilePath) : Bool :=
  match t.find? here p with
  | some (.file _) => true
  | _ => false

/-- The text of the file at a path, if it is one. -/
def read? (t : FileTree) (here : Location) (p : FilePath) : Option String :=
  match t.find? here p with
  | some (.file (.text s)) => some s
  | _ => none

/-- Makes one directory. The last segment of its path has to be a new name, and what stands
before it has to be a directory. -/
def makeDirectory (t : FileTree) (here : Location) (p : FilePath) : Except Obstacle FileTree := do
  let segments := (p.segments.reverse.dropWhile (· == "")).reverse
  let isName := (segments.getLast?.map fun s => !FilePath.isIdle s && s != "..").getD false
  if isName then
    let l ← t.locateSegments here p segments
    match t.get? l with
    | some _ => throw .exists
    | none => return t.put l .directory
  else
    -- An idle segment asks for a directory before it.
    let _ ← t.locateSegments here p (segments.dropLast ++ ["."])
    throw .exists

/-- Makes the directory at the first of some paths, of which each is the parent of the
one before it, together with the parents that are missing. Says whether the directory is
there in the end. -/
def makeDirectories (t : FileTree) (here : Location) : List FilePath → FileTree × Bool
  | [] => (t, false)
  | p :: parents =>
    if p.spelled = "" then (t, true)
    else
      match t.makeDirectory here p with
      | .ok t => (t, true)
      | .error .missing =>
        match t.makeDirectories here parents with
        | (t, false) => (t, false)
        | (t, true) =>
          match t.makeDirectory here p with
          | .ok t => (t, true)
          | .error _ => (t, t.isDirectory here p)
      | .error _ => (t, t.isDirectory here p)

/-- Writes a text to the file at a path. -/
def write (t : FileTree) (here : Location) (p : FilePath) (text : String) : Except Obstacle FileTree := do
  let l ← t.locate here p
  match t.get? l with
  | some .directory => throw .isDirectory
  | _ => return t.put l (.file (.text text))

/-- Removes the file at a path. -/
def remove (t : FileTree) (here : Location) (p : FilePath) : FileTree :=
  match t.locate here p with
  | .ok l => t.erase l
  | .error _ => t

/-- Moves a file to a path, over any file that lies there. -/
def move (t : FileTree) (here : Location) (source target : FilePath) : Except Obstacle FileTree := do
  let l ← t.locate here source
  let last := (target.segments.reverse.dropWhile (· == "")).head?
  if last = some "." ∨ last = some ".." then throw .busy
  if target.segments.getLast? = some "" then throw .notDirectory
  let l' ← t.locate here target
  match t.get? l, t.get? l' with
  | none, _ => throw .missing
  | _, some .directory => throw .isDirectory
  | some n, _ => return (t.erase l).put l' n

end FileTree

end JackToolchain.Files
