import JackToolchain.Files.Source
import JackToolchain.Terminal.Snippet
import JackToolchain.Text.Basic
import JackToolchain.Text.Lines
import JackToolchain.Vm.Instruction

/-!
# Reading stack machine code

A line holds one instruction, or none if it is blank up to its comment. Every line is
read by itself, so one bad line does not hide another.

* `readFields`: the instruction that the fields of a line write.
* `readLines`: the instructions of a text, line by line.
* `File.read`: a whole file, or its first fault.
-/

namespace JackToolchain.Vm

open Text Terminal Files

/-- What a line lacks. -/
inductive MissingPart where
  | segment | index | labelName | functionName | localCount | argumentCount
deriving DecidableEq, Repr

/-- What is missing, in words. -/
def MissingPart.text : MissingPart → String
  | .segment => "segment"
  | .index => "index"
  | .labelName => "label name"
  | .functionName => "function name"
  | .localCount => "local count"
  | .argumentCount => "argument count"

/-- Why a line is no instruction. -/
inductive Cause where
  | unknownCommand (command : String)
  | unknownSegment (name : String)
  | missing (part : MissingPart)
  | invalidNumber (field : String)
  | trailing (field : String)
deriving DecidableEq, Repr

/-- What is wrong, in words. -/
def Cause.text : Cause → String
  | .unknownCommand command => "Unknown instruction: `" ++ command ++ "`"
  | .unknownSegment name => "Unknown segment: `" ++ name ++ "`"
  | .missing part => "Missing " ++ part.text
  | .invalidNumber field => "Expected a number in 0..=65535, found `" ++ field ++ "`"
  | .trailing field => "Unexpected trailing field: `" ++ field ++ "`"

/-- A cause with the byte offset of the field that it is about. -/
structure Fault where
  cause : Cause
  offset : Nat
deriving DecidableEq, Repr

/-- The place of a fault in the file that it was found in. -/
def Fault.position (f : Fault) (file : Source) : Position :=
  Position.at file.content f.offset

/-- The message of a fault with the line that it is about. -/
def Fault.report (f : Fault) (palette : Palette) (file : Source) : String :=
  Snippet.report palette ⟨file.name, f.position file, "(ParseError) " ++ f.cause.text⟩

/-- The number that a field writes: digits, possibly after a plus sign. -/
def number? (field : String) : Option Nat :=
  let digits := match field.toList with
    | '+' :: cs => cs
    | cs => cs
  (decimal? digits).filter (· ≤ maxNumber)

/-- The fields of a line that is not blank. -/
structure Row where
  command : TextField
  operands : List TextField
deriving DecidableEq, Repr

namespace Row

/-- The byte offset behind the last field. -/
def stop (r : Row) : Nat :=
  (r.operands.getLast?.getD r.command).stop

/-- The operand at an index, which is said to be missing at the end of the line. -/
def operand (r : Row) (index : Nat) (part : MissingPart) : Except Fault TextField :=
  match r.operands[index]? with
  | some field => .ok field
  | none => .error ⟨.missing part, r.stop⟩

/-- The first operand as a segment. -/
def segment (r : Row) : Except Fault Segment := do
  let field ← r.operand 0 .segment
  match Segment.ofText? field.text with
  | some segment => .ok segment
  | none => .error ⟨.unknownSegment field.text, field.offset⟩

/-- The first operand as a name. -/
def name (r : Row) (part : MissingPart) : Except Fault String := do
  return (← r.operand 0 part).text

/-- The second operand as a number. -/
def number (r : Row) (part : MissingPart) : Except Fault Nat := do
  let field ← r.operand 1 part
  match number? field.text with
  | some n => .ok n
  | none => .error ⟨.invalidNumber field.text, field.offset⟩

/-- The instruction, with the number of operands that it takes. -/
def instruction (r : Row) : Except Fault (Instruction × Nat) :=
  match r.command.text with
  | "push" => do return (.push (← r.segment) (← r.number .index), 2)
  | "pop" => do return (.pop (← r.segment) (← r.number .index), 2)
  | "label" => do return (.label (← r.name .labelName), 1)
  | "goto" => do return (.goto (← r.name .labelName), 1)
  | "if-goto" => do return (.ifGoto (← r.name .labelName), 1)
  | "function" => do return (.function (← r.name .functionName) (← r.number .localCount), 2)
  | "call" => do return (.call (← r.name .functionName) (← r.number .argumentCount), 2)
  | "return" => .ok (.return, 0)
  | command =>
    match Operator.ofText? command with
    | some operator => .ok (.operate operator, 0)
    | none => .error ⟨.unknownCommand command, r.command.offset⟩

/-- The instruction that the fields of a line write. A field beyond its operands is a
fault, found last. -/
def read (r : Row) : Except Fault Instruction := do
  let (instruction, arity) ← r.instruction
  match r.operands[arity]? with
  | some field => .error ⟨.trailing field.text, field.offset⟩
  | none => .ok instruction

end Row

/-- The instructions of the lines that are not blank. The first line starts at the given
byte offset, and each line counts one byte for its end. -/
def readLines (offset : Nat) : List (List Char) → List (Except Fault Instruction)
  | [] => []
  | line :: rest =>
    let later := readLines (offset + byteSize line + 1) rest
    match fields offset (beforeComment line) with
    | [] => later
    | command :: operands => Row.read ⟨command, operands⟩ :: later

/-- The instructions of a text, each line with its own outcome. -/
def readText (content : String) : List (Except Fault Instruction) :=
  readLines 0 (lines content.toList)

/-- A file of stack machine code. -/
structure File where
  name : String
  stem : String
  instructions : List Instruction
deriving DecidableEq, Repr

/-- The file that a source holds, or the first fault in it. -/
def File.read (source : Source) : Except Fault File := do
  return ⟨source.name, source.stem, ← (readText source.content).mapM id⟩

end JackToolchain.Vm
