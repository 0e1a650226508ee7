import JackToolchain.Jack.Scope
import JackToolchain.Jack.Punctuation

/-!
# Syntax trees

A tree holds what a class means: each variable is the declaration that its name refers
to, and each call says what it is made on.

* `Expression`, `Statement`: what a subroutine computes and does.
* `Subroutine`, `ClassDecl`: what is declared.
-/

namespace JackToolchain.Jack

/-- An operation on two values. -/
inductive BinaryOperator where
  | add | subtract | multiply | divide | and | or | less | greater | equal
deriving DecidableEq, Repr

/-- The operation that a symbol writes. -/
def BinaryOperator.ofSymbol? : Punctuation → Option BinaryOperator
  | .plus => some .add
  | .minus => some .subtract
  | .asterisk => some .multiply
  | .slash => some .divide
  | .ampersand => some .and
  | .bar => some .or
  | .less => some .less
  | .greater => some .greater
  | .equal => some .equal
  | _ => none

/-- Whether a symbol joins two terms. -/
def Punctuation.isOperator (s : Punctuation) : Bool :=
  (BinaryOperator.ofSymbol? s).isSome

/-- What a subroutine is called on: the current object, the object in a variable, or the
class of a name. -/
inductive Target where
  | self
  | object (v : Variable)
  | type (name : String)
deriving DecidableEq, Repr

/-- An expression. A chain of operators stands to the left: its last operation is the
outermost. -/
inductive Expression where
  | integer (value : Nat)
  | string (value : String)
  | «true»
  | «false»
  | null
  | this
  | variable (v : Variable)
  | element (array : Variable) (index : Expression)
  | negate (operand : Expression)
  | invert (operand : Expression)
  | binary (left : Expression) (operator : BinaryOperator) (right : Expression)
  | call (target : Target) (name : String) (arguments : List Expression)
deriving Repr

/-- A statement. -/
inductive Statement where
  | assign (target : Variable) (value : Expression)
  | assignElement (array : Variable) (index value : Expression)
  | ifThen (condition : Expression) (body : List Statement)
  | ifElse (condition : Expression) (body alternative : List Statement)
  | while (condition : Expression) (body : List Statement)
  | call (target : Target) (name : String) (arguments : List Expression)
  | return (value : Option Expression)
deriving Repr

/-- Whether a statement leaves the subroutine wherever it stands. -/
def Statement.isReturn : Statement → Bool
  | .return _ => true
  | _ => false

/-- What a subroutine is called for: a new object, no object or an object. -/
inductive SubroutineKind where
  | constructor | function | method
deriving DecidableEq, Repr

/-- The name of a subroutine outside its class. -/
def qualifiedName (className name : String) : String :=
  className ++ "." ++ name

/-- What a subroutine declares before its statements. Its scope has the variables of the
class, the parameters and the local variables. -/
structure Header where
  className : String
  kind : SubroutineKind
  isVoid : Bool
  name : String
  scope : Scope
deriving Repr

/-- The name of a subroutine outside its class. -/
def Header.qualifiedName (h : Header) : String :=
  Jack.qualifiedName h.className h.name

/-- A subroutine. -/
structure Subroutine extends Header where
  body : List Statement
deriving Repr

/-- A class. -/
structure ClassDecl where
  name : String
  scope : Scope
  subroutines : List Subroutine
deriving Repr

end JackToolchain.Jack
