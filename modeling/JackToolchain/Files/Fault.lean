import JackToolchain.Files.FileTree

/-!
# Faults of files
-/

namespace JackToolchain.Files

/-- What can go wrong with files. -/
inductive Fault where
  | noStem (name : String)
  | wrongExtension (path : FilePath) (extension : String)
  | unreadable (path : FilePath)
  | noneFound (extension : String)
  | directoryNotMade (path : FilePath)
  | notWritten (path : FilePath)
  | notMoved (path : FilePath) (obstacle : Obstacle)
  | noFileName
deriving DecidableEq, Repr

/-- The message of a fault. -/
def Fault.message : Fault → String
  | .noStem name => "(ArgError) No file stem in `" ++ name ++ "`"
  | .wrongExtension path extension =>
    "(ArgError) Invalid file extension on file: `" ++ path.spelled ++
      "`. Expected extension `." ++ extension ++ "`"
  | .unreadable path => "(IOError) [" ++ path.spelled ++ "]"
  | .noneFound extension =>
    "(ArgError) No `." ++ extension ++ "` files found in the given paths"
  | .directoryNotMade path =>
    "(IOError) Failed to create output directory `" ++ path.spelled ++ "`"
  | .notWritten path => "(IOError) Failed to write to file: `" ++ path.spelled ++ "`"
  | .notMoved path obstacle =>
    "(IOError) Failed to move `" ++ path.spelled ++ "` into place: " ++ obstacle.text
  | .noFileName => "(ArgError) No file name provided!"

end JackToolchain.Files
