/-!
# Assembly language

* `Line`: a line of an assembly program.
* `Line.text`: how it is written.
* `assembly`: the text of a program.
-/

namespace JackToolchain.Hack

/-- What an address instruction loads: a number, or what the assembler puts for a name. -/
inductive Operand where
  | literal (n : Nat)
  | symbol (name : String)
deriving DecidableEq, Repr

/-- How an operand is written. -/
def Operand.text : Operand → String
  | .literal n => toString n
  | .symbol name => name

/-- Where a computed value goes. -/
inductive Destination where
  | a | d | m | am
deriving DecidableEq, Repr

/-- How a destination is written. -/
def Destination.text : Destination → String
  | .a => "A"
  | .d => "D"
  | .m => "M"
  | .am => "AM"

/-- A value computed from the registers `A` and `D` and the memory cell `M` at `A`. One
that has no name here is kept by its text, which the assembler has to know. -/
inductive Comp where
  | zero | minusOne | a | d | m
  | notM | negM | incM | decM | decA
  | dPlusA | dMinusA | dPlusM | mMinusD | dAndM | dOrM
  | verbatim (text : String)
deriving DecidableEq, Repr

/-- How a value is written. -/
def Comp.text : Comp → String
  | .zero => "0"
  | .minusOne => "-1"
  | .a => "A"
  | .d => "D"
  | .m => "M"
  | .notM => "!M"
  | .negM => "-M"
  | .incM => "M+1"
  | .decM => "M-1"
  | .decA => "A-1"
  | .dPlusA => "D+A"
  | .dMinusA => "D-A"
  | .dPlusM => "D+M"
  | .mMinusD => "M-D"
  | .dAndM => "D&M"
  | .dOrM => "D|M"
  | .verbatim text => text

/-- When a jump is taken. A condition that has no name here is kept by its text. -/
inductive Condition where
  | always | equal | greater | less | notEqual
  | verbatim (text : String)
deriving DecidableEq, Repr

/-- How a condition is written. -/
def Condition.text : Condition → String
  | .always => "JMP"
  | .equal => "JEQ"
  | .greater => "JGT"
  | .less => "JLT"
  | .notEqual => "JNE"
  | .verbatim text => text

/-- A line of an assembly program. -/
inductive Line where
  | comment (text : String)
  | label (name : String)
  | address (operand : Operand)
  | assign (destination : Destination) (value : Comp)
  | jump (value : Comp) (condition : Condition)
deriving DecidableEq, Repr

/-- How a line is written. -/
def Line.text : Line → String
  | .comment text => "// " ++ text
  | .label name => "(" ++ name ++ ")"
  | .address operand => "@" ++ operand.text
  | .assign destination value => destination.text ++ "=" ++ value.text
  | .jump value condition => value.text ++ ";" ++ condition.text

/-- The text of a program. -/
def assembly (program : List Line) : String :=
  String.join (program.map fun line => line.text ++ "\n")

end JackToolchain.Hack
