import JackToolchain.Hack.Lowering
import JackToolchain.Vm.Reader

/-!
# Assembly programs

A program is built from files, one after another. The code before the first file calls
the entry function, or the code behind the last one halts.

* `Builder`: a program under construction.
* `Builder.addFile`: lowers a file.
* `build`: lowers a list of files.
-/

namespace JackToolchain.Hack

open Vm

/-- The first cell of the stack. -/
def stackBase : Nat := 256

/-- The function that a program starts with. -/
def entryFunction : String := "Sys.init"

/-- The label of the halt loop. -/
def endLabel : String := "END"

/-- A cause with the file, the function and the instruction that it is about. -/
structure Fault where
  cause : Cause
  file : String
  scope : String
  instruction : Instruction
deriving DecidableEq, Repr

/-- The message of a fault. -/
def Fault.message (f : Fault) : String :=
  "(TranslateError) " ++ f.cause.text ++ "\n  --> " ++ f.file ++ " in `" ++ f.scope ++ "`: `" ++
    f.instruction.text ++ "`"

/-- A program under construction. -/
structure Builder where
  name : String
  /-- Whether each instruction stands in a comment before its lines. -/
  annotate : Bool
  context : Context
  lines : Array Line := #[]
deriving Repr

namespace Builder

/-- A program without lines. Outside files, its name takes the place of a stem. -/
def new (name : String) (annotate : Bool) : Builder :=
  { name, annotate, context := { stem := name } }

/-- Adds lines to a program. -/
def emit (b : Builder) (lines : List Line) : Builder :=
  { b with lines := b.lines ++ lines }

/-- The lines of a comparison, with labels of their own. -/
def compare (b : Builder) (condition : Condition) : Builder :=
  let b' := b.emit (compareTop b.context.stem b.context.comparisons condition)
  { b' with context := { b.context with comparisons := b.context.comparisons + 1 } }

/-- Adds an instruction as a comment if the program is annotated. -/
def note (b : Builder) (i : Instruction) : Builder :=
  if b.annotate then b.emit [.comment i.text] else b

/-- Lowers an instruction. A program stays as it is if the instruction has no lines. -/
def add (b : Builder) (i : Instruction) : Except Cause Builder := do
  let lines ← lower b.context i
  return { b.emit lines with context := b.context.after i }

/-- Lowers instructions of a file up to the first that has no lines. -/
def addAll (b : Builder) (file : String) : List Instruction → Builder × Option Fault
  | [] => (b, none)
  | i :: rest =>
    let noted := b.note i
    match noted.add i with
    | .error cause => (noted, some ⟨cause, file, noted.context.scope, i⟩)
    | .ok b => addAll b file rest

/-- Enters a file, outside its functions. -/
def enter (b : Builder) (stem : String) : Builder :=
  { b with context := { b.context with stem, function? := none } }

/-- Lowers a file up to its first instruction that has no lines. -/
def addFile (b : Builder) (file : File) : Builder × Option Fault :=
  (b.enter file.stem).addAll file.name file.instructions

/-- Sets up the stack and calls the entry function. -/
def bootstrap (b : Builder) : Builder :=
  let call := Instruction.call entryFunction 0
  let b' := b.emit ([.comment "bootstrap"] ++ loadConstant stackBase ++ storeCell (.symbol "SP") ++
    lowerCall b.context entryFunction 0)
  { b' with context := b.context.after call }

/-- Parks the processor. -/
def halt (b : Builder) : Builder :=
  b.emit ([.comment "end", .label endLabel] ++ goto endLabel)

/-- Lowers files in their order. -/
def addFiles (b : Builder) : List File → Except Fault Builder
  | [] => .ok b
  | file :: rest =>
    match b.addFile file with
    | (_, some fault) => .error fault
    | (b, none) => addFiles b rest

/-- The text of a program. -/
def text (b : Builder) : String :=
  assembly b.lines.toList

end Builder

/-- What a program is made of beside its files. -/
structure Options where
  /-- Whether the program starts with a call of the entry function. -/
  bootstrap : Bool
  /-- Whether each instruction stands in a comment before its lines. -/
  annotate : Bool
deriving DecidableEq, Repr

/-- The program of some files. Without a bootstrap it ends in a halt loop. -/
def build (name : String) (options : Options) (files : List File) : Except Fault Builder :=
  let start := Builder.new name options.annotate
  if options.bootstrap then start.bootstrap.addFiles files
  else do return (← start.addFiles files).halt

end JackToolchain.Hack
