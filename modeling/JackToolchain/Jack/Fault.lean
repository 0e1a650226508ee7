import JackToolchain.Files.Source
import JackToolchain.Jack.Token
import JackToolchain.Terminal.Snippet
import JackToolchain.Vm.Instruction

/-!
# Faults in a class

* `Cause`: what can be wrong with a class.
* `Fault`: a cause with its place.
* `Fault.report`: the message of a fault.
-/

namespace JackToolchain.Jack

open Text Terminal Files

/-- What the grammar asks for at some point of a class. -/
inductive Expected where
  | symbol (s : Punctuation)
  | keyword (k : Keyword)
  | className | type | returnType | variableName | parameterName | subroutineName
  | subroutineCall | term | endOfFile
deriving DecidableEq, Repr

/-- What is asked for, in words. -/
def Expected.text : Expected → String
  | .symbol s => "`" ++ s.text ++ "`"
  | .keyword k => "`" ++ k.text ++ "`"
  | .className => "class name"
  | .type => "type"
  | .returnType => "return type"
  | .variableName => "variable name"
  | .parameterName => "parameter name"
  | .subroutineName => "subroutine name"
  | .subroutineCall => "subroutine call"
  | .term => "term"
  | .endOfFile => "end of file"

/-- What is wrong with a class. -/
inductive Cause where
  | unexpectedToken (expected : Expected) (found : Token)
  | unexpectedEnd (expected : Expected)
  | duplicateDeclaration (name : String)
  | undeclaredVariable (name : String)
  | thisInFunction
  | stringTooLong (length : Nat)
  | unsupportedCharacter (c : Char)
deriving DecidableEq, Repr

/-- Whether a cause breaks the grammar, and not a rule on names and values. -/
def Cause.isSyntactic : Cause → Bool
  | .unexpectedToken .. | .unexpectedEnd .. => true
  | _ => false

/-- What is wrong, in words. -/
def Cause.text : Cause → String
  | .unexpectedToken expected found =>
    "Expected " ++ expected.text ++ ". Found: " ++ found.describe ++ "."
  | .unexpectedEnd expected => "Unexpected end of file. Expected " ++ expected.text ++ "."
  | .duplicateDeclaration name => "`" ++ name ++ "` is already declared in this scope"
  | .undeclaredVariable name => "Use of undeclared variable `" ++ name ++ "`"
  | .thisInFunction => "`this` cannot be referenced from within a function"
  | .stringTooLong length =>
    "String constant of length " ++ toString length ++ " exceeds " ++ toString maxConstant
  | .unsupportedCharacter c =>
    "Character `" ++ c.toString ++ "` is outside of 0..=" ++ toString maxConstant

/-- The message of a cause with the class of errors that it belongs to. -/
def Cause.message (c : Cause) : String :=
  (if c.isSyntactic then "(ParseError) " else "(SemanticError) ") ++ c.text

/-- A cause with the byte offset of the token that it is about, if there is one. A
fault without an offset lies at the end of the file. -/
structure Fault where
  cause : Cause
  offset? : Option Nat
deriving DecidableEq, Repr

/-- The place of a fault in the file that it was found in. -/
def Fault.position (f : Fault) (file : Source) : Position :=
  Position.at file.content (f.offset?.getD file.content.utf8ByteSize)

/-- The message of a fault with the line that it is about. -/
def Fault.report (f : Fault) (palette : Palette) (file : Source) : String :=
  Snippet.report palette ⟨file.name, f.position file, f.cause.message⟩

end JackToolchain.Jack
