import JackToolchain.Files.Output
import JackToolchain.Jack.Program
import JackToolchain.Tool.Run

/-!
# The compiler

The compiler reads Jack classes and writes a file of stack machine code for each.
-/

namespace JackToolchain.Tool.Compiler

open Terminal CommandLine Files

/-- What the compiler says about itself, given who wrote it. -/
def info (authors : String) : Info :=
  { name := "jack_compiler"
    version := "0.2.0"
    authors := authors
    license := "GPL-3.0-or-later"
    description := "Single pass compiler from Jack source files to VM instructions" }

/-- The rules of the compiler. -/
def rules (authors : String) : List (Rule RuleAction) :=
  commonRules (info authors) ++
  [ ⟨'d', "debug", "[(all|tokens|symbols|program)*]",
      "Debug print settings (default: all)", .debug, 0, none, .setting, .set⟩,
    ⟨'o', "output", "<dir>", "Set the output directory for the generated .vm files",
      .output, 1, some 1, .setting, .set⟩,
    ⟨'c', "compile", "[(<dir>|<file>.jack)+]",
      "Compile the list of .jack files or all .jack files in the directory",
      .compile, 1, none, .executable, .work⟩ ]

variable {m : Type → Type} [Monad m] [Host m]

/-- Prints lines, each set in from the margin. -/
def printIndented (lines : List String) : m Unit :=
  lines.forM fun line => Host.print .output ("  " ++ line ++ "\n")

/-- Compiles a file and prints what the settings ask for. -/
def compileFile (palette : Palette) (settings : Settings) (file : Source) :
    m (Except String Jack.Program) := do
  log palette .info ("Parsing file: `" ++ file.name ++ "`")
  let tokens := Jack.lex file.content
  if settings.isEnabled .printTokens then
    log palette .info ("Tokens of `" ++ file.name ++ "`")
    printIndented (tokens.map (·.token.describe))
  let progress := Jack.Program.ofTokens tokens
  if settings.isEnabled .printSymbols then
    progress.headers.forM fun header => do
      log palette .info ("Symbols of `" ++ header.qualifiedName ++ "`")
      Host.print .output header.scope.table
  match progress.outcome with
  | .error fault => return .error (fault.report palette file)
  | .ok program => do
    if settings.isEnabled .printProgram then
      log palette .info ("Program `" ++ program.className ++ "`")
      printIndented (program.instructions.map Vm.Instruction.text)
    return .ok program

/-- Compiles the files that the parameters stand for. -/
def work (palette : Palette) : Work m := fun settings parameters => do
  let files ← (gather "jack" parameters).adapt Failure.files
  let programs ← readAll palette files (compileFile palette settings)
  logSuccess palette "Parsing successful"
  let directory := settings.output?.map FilePath.mk
  if let some d := directory then
    (ensureDirectory palette d).adapt Failure.files
  let texts := programs.map fun program => Vm.listing program.instructions
  let written ← (writeOutputs "vm" directory (files.zip texts)).adapt Failure.files
  written.forM fun p => log palette .info ("Wrote `" ++ p.spelled ++ "`")
  logSuccess palette "Compilation successful!"

/-- Runs the compiler. -/
def run (authors : String) (palette : Palette) (arguments : List String) : m UInt32 :=
  Tool.run palette (parserOf (rules authors)) (work palette) arguments

end JackToolchain.Tool.Compiler
