import JackToolchain.Tool.Compiler
import JackToolchain.Tool.Translator
import Std.Time.DateTime.Timestamp

/-!
# The command line

The first argument names a tool, and the others are for the tool. Here the tools run on
the system's files.
-/

namespace JackToolchain

open Terminal Files

/-- Whether an action on the system succeeds. -/
def isDone (action : IO Unit) : IO Bool := do
  try
    action
    return true
  catch _ =>
    return false

/-- The answer of the system, if it has one. -/
def answer? {α : Type} (question : IO α) : IO (Option α) := do
  try
    return some (← question)
  catch _ =>
    return none

/-- Why the system refused to move a file. -/
def obstacleOf : IO.Error → Obstacle
  | .noFileOrDirectory .. => .missing
  | .inappropriateType _ 20 _ => .notDirectory
  | .inappropriateType _ 21 _ => .isDirectory
  | .resourceBusy 16 _ => .busy
  | e => .other (toString e)

/-- The system as a host. -/
instance : Host IO where
  isDirectory p := do return (← answer? do (← IO.FS.realPath p.spelled).isDir).getD false
  isFile p := do return match ← answer? do (← IO.FS.realPath p.spelled).metadata with
    | some metadata => metadata.type == .file
    | none => false
  names p := answer? do return (← (← IO.FS.realPath p.spelled).readDir).toList.map (·.fileName)
  read p := answer? (IO.FS.readFile p.spelled)
  ownName p := do return (← answer? (IO.FS.realPath p.spelled)).bind (·.fileName)
  makeDirectories p := if p.spelled = "" then return true else isDone (IO.FS.createDirAll p.spelled)
  write p text := isDone (IO.FS.writeFile p.spelled text)
  move source target := do
    try
      IO.FS.rename source.spelled target.spelled
      return .ok ()
    catch e =>
      return .error (obstacleOf e)
  remove p := discard (isDone (IO.FS.removeFile p.spelled))
  print
    | .output, text => IO.print text
    | .error, text => IO.eprint text
  time := do return ⟨(← Std.Time.Timestamp.now).toSecondsSinceUnixEpoch.toInt.toNat % 86400⟩

/-- The palette of the terminal, which its environment says. -/
def terminalPalette : IO Palette := do
  let isSet (name : String) : IO Bool := do
    return match ← IO.getEnv name with
      | some value => value ≠ "0"
      | none => false
  match ← IO.getEnv "COLORTERM" with
  | some "truecolor" | some "24bit" => return .trueColor
  | _ =>
    if ← isSet "FORCE_COLOR" then return .bright
    if (← isSet "NO_COLOR") || (← IO.getEnv "TERM") == some "dumb" then return .plain
    return if ← (← IO.getStdout).isTty then .bright else .plain

end JackToolchain

open JackToolchain in
/-- Runs the tool that the first argument names. -/
def main (arguments : List String) : IO UInt32 := do
  let palette ← terminalPalette
  let authors := (← IO.getEnv "CARGO_PKG_AUTHORS").getD ""
  match arguments with
  | "jack_compiler" :: rest => Tool.Compiler.run authors palette rest
  | "vm" :: rest => Tool.Translator.run authors palette rest
  | _ => do
    IO.eprintln "Usage: (jack_compiler|vm) [<Argument>*]"
    return 1
