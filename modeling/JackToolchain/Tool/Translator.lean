import JackToolchain.Files.Output
import JackToolchain.Tool.Run

/-!
# The translator

The translator reads files of stack machine code and writes one assembly program.
-/

namespace JackToolchain.Tool.Translator

open Terminal CommandLine Files

/-- What the translator says about itself, given who wrote it. -/
def info (authors : String) : Info :=
  { name := "vm"
    version := "0.2.0"
    authors := authors
    license := "GPL-3.0-or-later"
    description := "Translator from VM instructions to Hack assembly" }

/-- The rules of the translator. -/
def rules (authors : String) : List (Rule RuleAction) :=
  commonRules (info authors) ++
  [ ⟨'d', "debug", "[(all|program)*]",
      "Debug print settings (default: all)", .debug, 0, none, .setting, .set⟩,
    ⟨'o', "output", "<dir>|<file>.asm",
      "Set the output directory or file for the generated .asm file",
      .output, 1, some 1, .setting, .set⟩,
    ⟨'n', "no-init", "-", "Do not emit the bootstrap code that calls Sys.init",
      .noInit, 0, some 0, .setting, .set⟩,
    ⟨'a', "annotate", "-", "Emit each VM instruction as a comment before its assembly",
      .annotate, 0, some 0, .setting, .set⟩,
    ⟨'t', "translate", "[(<dir>|<file>.vm)+]",
      "Translate the list of .vm files or all .vm files in the directory",
      .translate, 1, none, .executable, .work⟩ ]

/-- Whether some file defines a function. -/
def definesFunction (files : List Vm.File) (name : String) : Bool :=
  files.any fun file => file.instructions.any fun
    | .function f _ => f = name
    | _ => false

variable {m : Type → Type} [Monad m] [Host m]

/-- Reads a file of stack machine code. -/
def readFile (palette : Palette) (file : Source) : m (Except String Vm.File) := do
  log palette .info ("Parsing file: `" ++ file.name ++ "`")
  return (Vm.File.read file).mapError (·.report palette file)

/-- Where the program goes without an output setting: into a directory that is the only
parameter, under its name, or beside the first file. -/
def defaultTarget (parameters : List String) (files : List Source) :
    ExceptT Failure m FilePath := do
  if let [parameter] := parameters then
    let directory : FilePath := ⟨parameter⟩
    if ← Host.isDirectory directory then
      let some name ← Host.ownName directory | throw (.unnamedOutput directory)
      return directory.join (name ++ ".asm")
  match files with
  | [] => throw .noInput
  | first :: _ => return first.path.withExtension "asm"

/-- Where the program goes. An output setting is a file if it has the extension of
assembly programs, and a directory if not. -/
def target (palette : Palette) (settings : Settings) (parameters : List String)
    (files : List Source) : ExceptT Failure m FilePath := do
  let default ← defaultTarget parameters files
  match settings.output?.map FilePath.mk with
  | none => return default
  | some p =>
    if p.extension? = some "asm" then
      if let some parent := p.parent? then
        unless parent.spelled = "" do
          (ensureDirectory palette parent).adapt Failure.files
      return p
    else
      let some name := default.fileName? | throw .invalidOutput
      (ensureDirectory palette p).adapt Failure.files
      return p.join name

/-- Translates the files that the parameters stand for. -/
def work (palette : Palette) : Work m := fun settings parameters => do
  let sources ← (gather "vm" parameters).adapt Failure.files
  let files ← readAll palette sources (readFile palette)
  logSuccess palette "Parsing successful"
  let bootstrap := !settings.isSet .noInit
  if bootstrap && !definesFunction files Hack.entryFunction then
    log palette .warning ("No input defines `" ++ Hack.entryFunction ++
      "`. Use `--no-init` for programs without it")
  let target ← target palette settings parameters sources
  let some name := target.stem? | throw .invalidOutput
  match Hack.build name ⟨bootstrap, settings.isSet .annotate⟩ files with
  | .error fault => throw (.lowering fault)
  | .ok program => do
    if settings.isEnabled .printProgram then
      log palette .info ("Program `" ++ program.name ++ "`")
      Host.print .output program.text
    (writeFile target program.text).adapt Failure.files
    log palette .info ("Wrote `" ++ target.spelled ++ "`")
    logSuccess palette "Translation successful!"

/-- Runs the translator. -/
def run (authors : String) (palette : Palette) (arguments : List String) : m UInt32 :=
  Tool.run palette (parserOf (rules authors)) (work palette) arguments

end JackToolchain.Tool.Translator
