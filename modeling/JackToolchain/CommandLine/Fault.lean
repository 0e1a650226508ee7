import JackToolchain.CommandLine.Rule

/-!
# Faults on a command line
-/

namespace JackToolchain.CommandLine

/-- What is wrong with a command line or a setting. -/
inductive Fault where
  | invalidFlag (flag : String)
  | unexpectedArgument (argument : String)
  | notEnoughParameters (argument : String)
  | tooManyParameters (argument : String)
  | notSet
  | noSetting (purpose : Purpose)
  | noHelpInfo
  | noVersionInfo
deriving DecidableEq, Repr

/-- What is wrong, in words. -/
def Fault.text : Fault → String
  | .invalidFlag flag => "Invalid flag: `" ++ flag ++ "`. Use `--help` for more information."
  | .unexpectedArgument argument =>
    "Unexpected argument: `" ++ argument ++ "`. Use `--help` for more information."
  | .notEnoughParameters argument =>
    "Not enough parameters for flag: `" ++ argument ++ "`. Use `--help` for more information."
  | .tooManyParameters argument =>
    "Too many parameters for flag: `" ++ argument ++ "`. Use `--help` for more information."
  | .notSet => "Not set"
  | .noSetting purpose => "Could not set global setting key: " ++ purpose.text
  | .noHelpInfo => "Help token does not contain the package info"
  | .noVersionInfo => "Version token does not contain the package info"

/-- The message of a fault. -/
def Fault.message (f : Fault) : String :=
  "(ArgError) " ++ f.text

end JackToolchain.CommandLine
