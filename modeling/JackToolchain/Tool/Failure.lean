import JackToolchain.CommandLine.Fault
import JackToolchain.Files.Fault
import JackToolchain.Hack.Builder
import JackToolchain.Terminal.Palette

/-!
# Why a run of a tool fails
-/

namespace JackToolchain.Tool

open Terminal

/-- What ends a run. -/
inductive Failure where
  | usage (fault : CommandLine.Fault)
  | files (fault : Files.Fault)
  | lowering (fault : Hack.Fault)
  | filesFailed (failed total : Nat)
  | noInput
  | invalidOutput
  | unnamedOutput (path : Files.FilePath)
deriving Repr

/-- The message of a failure. -/
def Failure.message (palette : Palette) : Failure → String
  | .usage fault => fault.message
  | .files fault => fault.message
  | .lowering fault => fault.message
  | .filesFailed failed total =>
    "(ParseError) " ++ toString failed ++ " of " ++ toString total ++ " file(s) failed. " ++
      palette.paint ⟨.red, true, false⟩ "Aborting compilation" ++ "!"
  | .noInput => "(ArgError) No input files provided!"
  | .invalidOutput => "(ArgError) Invalid output path"
  | .unnamedOutput path => "(ArgError) Cannot name output for `" ++ path.spelled ++ "`"

end JackToolchain.Tool
