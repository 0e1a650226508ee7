import JackToolchain.Jack.Lexer
import JackToolchain.Jack.Reading.Statement

/-!
# Reading classes

    class:      'class' name '{' classVar* subroutine* '}'
    classVar:   ('static' | 'field') type name (',' name)* ';'
    subroutine: ('constructor' | 'function' | 'method') ('void' | type) name
                '(' parameters ')' '{' var* statements '}'
    parameters: (type name (',' type name)*)?
    var:        'var' type name (',' name)* ';'
    type:       'int' | 'char' | 'boolean' | name

* `readHeader`: a subroutine up to its statements.
* `readClass`: a whole file. It reports the variables of each subroutine that it gets
  to, also when a later token is a fault.
-/

namespace JackToolchain.Jack

/-- The type of a variable that a token names. -/
def variableType? : Token → Option String
  | .keyword .int => some "int"
  | .keyword .char => some "char"
  | .keyword .boolean => some "boolean"
  | .identifier name => some name
  | _ => none

/-- Whether a token that names the type of a result says that there is none. -/
def returnsVoid? : Token → Option Bool
  | .keyword .void => some true
  | t => (variableType? t).map fun _ => false

/-- Reads names up to a semicolon and declares each as a variable of one type. -/
def readNames (type : String) (kind : Kind) (scope : Scope) (ts : List Lexeme) :
    Except Fault (Taken Scope ts) := do
  let ⟨name, r₁, h₁⟩ ← identifier .variableName ts
  let scope ← declare scope name type kind
  match frontSymbol? r₁ with
  | some .comma => do
    let ⟨_, r₂, h₂⟩ ← within h₁ (symbol .comma r₁)
    within h₂ (readNames type kind scope r₂)
  | _ => do
    let ⟨_, r₂, h₂⟩ ← within h₁ (symbol .semicolon r₁)
    return ⟨scope, r₂, h₂⟩
termination_by ts.length

/-- Reads the declarations that start with one of the given keywords and adds them to the
scope read so far. -/
def readVariables (kindOf? : Keyword → Option Kind) {ts : List Lexeme} (scope : Taken Scope ts) :
    Except Fault (Taken Scope ts) :=
  match (frontKeyword? scope.rest).bind kindOf? with
  | none => .ok scope
  | some kind => do
    let ⟨_, r₁, h₁⟩ ← next .type scope.rest
    let ⟨type, r₂, h₂⟩ ← within h₁ (accept .type variableType? r₁)
    let ⟨more, _, h₃⟩ ← within h₂ (readNames type kind scope.value r₂)
    readVariables kindOf? (scope.extend more h₃)
termination_by scope.rest.length
decreasing_by
  simp only [Taken.extend]
  omega

/-- The kind of variables that a class declares behind a keyword. -/
def classKind? : Keyword → Option Kind
  | .static => some .static
  | .field => some .field
  | _ => none

/-- The kind of variables that a subroutine declares behind a keyword. -/
def localKind? : Keyword → Option Kind
  | .var => some .local
  | _ => none

/-- Reads parameters, of which there is at least one, and the parenthesis behind them. -/
def readSomeParameters (scope : Scope) (ts : List Lexeme) : Except Fault (Taken Scope ts) := do
  let ⟨type, r₁, h₁⟩ ← accept .type variableType? ts
  let ⟨name, r₂, h₂⟩ ← within h₁ (identifier .parameterName r₁)
  let scope ← declare scope name type .argument
  match frontSymbol? r₂ with
  | some .comma => do
    let ⟨_, r₃, h₃⟩ ← within h₂ (symbol .comma r₂)
    within h₃ (readSomeParameters scope r₃)
  | _ => do
    let ⟨_, r₃, h₃⟩ ← within h₂ (symbol .rightParen r₂)
    return ⟨scope, r₃, h₃⟩
termination_by ts.length

/-- Reads parameters and the parenthesis behind them. -/
def readParameters (scope : Scope) (ts : List Lexeme) : Except Fault (Taken Scope ts) :=
  match frontSymbol? ts with
  | some .rightParen => do
    let ⟨_, r, h⟩ ← symbol .rightParen ts
    return ⟨scope, r, h⟩
  | _ => readSomeParameters scope ts

/-- The kind of subroutine that a keyword starts. -/
def SubroutineKind.ofKeyword? : Keyword → Option SubroutineKind
  | .constructor => some .constructor
  | .function => some .function
  | .method => some .method
  | _ => none

/-- The scope at the start of a subroutine. A method has its object as first argument. -/
def SubroutineKind.initialScope (kind : SubroutineKind) (className : String) (scope : Scope) :
    Except Fault Scope :=
  match kind with
  | .method => declare scope.leaveSubroutine ⟨"this", 0⟩ className .argument
  | _ => .ok scope.leaveSubroutine

/-- Reads a subroutine of a known kind up to its statements. -/
def readHeader (className : String) (scope : Scope) (kind : SubroutineKind)
    (ts : List Lexeme) : Except Fault (Taken Header ts) := do
  let ⟨_, r₀, h₀⟩ ← next .returnType ts
  let ⟨isVoid, r₁, h₁⟩ ← within h₀ (accept .returnType returnsVoid? r₀)
  let ⟨name, r₂, h₂⟩ ← within h₁ (identifier .subroutineName r₁)
  let scope ← kind.initialScope className scope
  let ⟨_, r₃, h₃⟩ ← within h₂ (symbol .leftParen r₂)
  let ⟨scope, r₄, h₄⟩ ← within h₃ (readParameters scope r₃)
  let ⟨_, r₅, h₅⟩ ← within h₄ (symbol .leftBrace r₄)
  let ⟨scope, r₆, h₆⟩ ← readVariables localKind? ⟨scope, r₅, h₅⟩
  return ⟨⟨className, kind, isVoid, name.text, scope⟩, r₆, h₆⟩

/-- The outcome of reading, with the headers of the subroutines that were begun. -/
structure Progress (α : Type) where
  headers : List Header
  outcome : Except Fault α

/-- Reads the end of a class, behind which the file ends. -/
def readEnd (ts : List Lexeme) : Except Fault Unit := do
  let ⟨_, r, _⟩ ← symbol .rightBrace ts
  match r with
  | [] => return ()
  | l :: r => .error (unexpected .endOfFile (l :: r))

/-- Reads subroutines and the end of the class. -/
def readSubroutines (className : String) (scope : Scope) (ts : List Lexeme) :
    Progress (List Subroutine) :=
  match (frontKeyword? ts).bind SubroutineKind.ofKeyword? with
  | none => ⟨[], do readEnd ts; return []⟩
  | some kind =>
    match readHeader className scope kind ts with
    | .error fault => ⟨[], .error fault⟩
    | .ok ⟨header, r₁, h₁⟩ =>
      match within h₁ (readStatements header r₁) with
      | .error fault => ⟨[header], .error fault⟩
      | .ok ⟨body, r₂, _⟩ =>
        let later := readSubroutines className scope r₂
        ⟨header :: later.headers, do return ⟨header, body⟩ :: (← later.outcome)⟩
termination_by ts.length

/-- Reads a class up to its subroutines. -/
def readPreamble (ts : List Lexeme) : Except Fault (Taken (String × Scope) ts) := do
  let ⟨_, r₁, h₁⟩ ← keyword .class ts
  let ⟨name, r₂, h₂⟩ ← within h₁ (identifier .className r₁)
  let ⟨_, r₃, h₃⟩ ← within h₂ (symbol .leftBrace r₂)
  let ⟨scope, r₄, h₄⟩ ← readVariables classKind? ⟨{}, r₃, h₃⟩
  return ⟨(name.text, scope), r₄, h₄⟩

/-- Reads the class that a file holds. -/
def readClass (ts : List Lexeme) : Progress ClassDecl :=
  match readPreamble ts with
  | .error fault => ⟨[], .error fault⟩
  | .ok ⟨(name, scope), r, _⟩ =>
    let progress := readSubroutines name scope r
    ⟨progress.headers, do return ⟨name, scope, ← progress.outcome⟩⟩

end JackToolchain.Jack
