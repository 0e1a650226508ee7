import JackToolchain.Jack.Reading.Statement

/-!
# The grammar of statements and expressions

Trees that keep the shape in which a program is written: names are not looked up, an
operator chain has no nesting yet, and parentheses stay.

* `Grammar.Expr`, `Grammar.Stmt`: the trees.
* `Expr.tokens`, `Stmt.tokens`: the tokens that a tree is spelled with.
* `Expr.tree?`, `Stmt.tree?`: what a tree means in a subroutine, if its names are declared
  and it uses `this` and strings where they are allowed.
-/

namespace JackToolchain.Jack

/-- The symbol that writes an operation. -/
def BinaryOperator.symbol : BinaryOperator → Punctuation
  | .add => .plus
  | .subtract => .minus
  | .multiply => .asterisk
  | .divide => .slash
  | .and => .ampersand
  | .or => .bar
  | .less => .less
  | .greater => .greater
  | .equal => .equal

theorem BinaryOperator.ofSymbol?_eq_some_iff {s : Punctuation} {operator : BinaryOperator} :
    ofSymbol? s = some operator ↔ s = operator.symbol := by
  constructor
  · intro h
    cases s <;> cases h <;> rfl
  · rintro rfl
    cases operator <;> rfl

/-- Whether a string can be built at run time. -/
def isWritable (value : String) : Bool :=
  utf16Size value.toList ≤ maxConstant && value.toList.all (·.toNat ≤ maxConstant)

/-- Whether a subroutine has a current object. -/
def Header.hasObject (h : Header) : Bool :=
  h.kind ≠ .function

namespace Grammar

/-- What stands before the arguments of a call. -/
inductive Callee where
  | bare (name : String)
  | member (head name : String)
  | this (name : String)

mutual

/-- A term. -/
inductive Term where
  | integer (value : Nat)
  | string (value : String)
  | «true»
  | «false»
  | null
  | this
  | name (name : String)
  | element (array : String) (index : Expr)
  | call (callee : Callee) (arguments : List Expr)
  | enclosed (e : Expr)
  | negate (operand : Term)
  | invert (operand : Term)

/-- An expression: a term, and the operators and terms behind it. -/
inductive Expr where
  | mk (first : Term) (others : Chain)

/-- Operators with a term behind each. -/
inductive Chain where
  | nil
  | cons (operator : BinaryOperator) (operand : Term) (others : Chain)

end

/-- A statement. -/
inductive Stmt where
  | assign (name : String) (value : Expr)
  | assignElement (array : String) (index value : Expr)
  | ifThen (condition : Expr) (body : List Stmt)
  | ifElse (condition : Expr) (body alternative : List Stmt)
  | while (condition : Expr) (body : List Stmt)
  | call (callee : Callee) (arguments : List Expr)
  | return (value : Option Expr)

/-! ## Spelling -/

/-- The tokens before the arguments of a call. -/
def Callee.tokens : Callee → List Token
  | .bare name => [.identifier name]
  | .member head name => [.identifier head, .symbol .dot, .identifier name]
  | .this name => [.keyword .this, .symbol .dot, .identifier name]

mutual

/-- The tokens of a term. -/
def Term.tokens : Term → List Token
  | .integer value => [.integer value]
  | .string value => [.string value]
  | .true => [.keyword .true]
  | .false => [.keyword .false]
  | .null => [.keyword .null]
  | .this => [.keyword .this]
  | .name name => [.identifier name]
  | .element array index =>
    .identifier array :: .symbol .leftBracket :: (index.tokens ++ [.symbol .rightBracket])
  | .call callee arguments =>
    callee.tokens ++ .symbol .leftParen :: (argumentsTokens arguments ++ [.symbol .rightParen])
  | .enclosed e => .symbol .leftParen :: (e.tokens ++ [.symbol .rightParen])
  | .negate operand => .symbol .minus :: operand.tokens
  | .invert operand => .symbol .tilde :: operand.tokens

/-- The tokens of an expression. -/
def Expr.tokens : Expr → List Token
  | .mk first others => first.tokens ++ others.tokens

/-- The tokens of operators and their terms. -/
def Chain.tokens : Chain → List Token
  | .nil => []
  | .cons operator operand others => .symbol operator.symbol :: (operand.tokens ++ others.tokens)

/-- The tokens of arguments, with commas between them. -/
def argumentsTokens : List Expr → List Token
  | [] => []
  | e :: es => e.tokens ++ moreTokens es

/-- The tokens of arguments that each stand behind a comma. -/
def moreTokens : List Expr → List Token
  | [] => []
  | e :: es => .symbol .comma :: (e.tokens ++ moreTokens es)

end

/-- Tokens in braces. -/
def braced (tokens : List Token) : List Token :=
  .symbol .leftBrace :: (tokens ++ [.symbol .rightBrace])

mutual

/-- The tokens of a statement. -/
def Stmt.tokens : Stmt → List Token
  | .assign name value =>
    .keyword .let :: .identifier name :: .symbol .equal :: (value.tokens ++ [.symbol .semicolon])
  | .assignElement array index value =>
    .keyword .let :: .identifier array :: .symbol .leftBracket ::
      (index.tokens ++ .symbol .rightBracket :: .symbol .equal ::
        (value.tokens ++ [.symbol .semicolon]))
  | .ifThen condition body =>
    .keyword .if :: .symbol .leftParen ::
      (condition.tokens ++ .symbol .rightParen :: braced (statementsTokens body))
  | .ifElse condition body alternative =>
    .keyword .if :: .symbol .leftParen ::
      (condition.tokens ++ .symbol .rightParen ::
        (braced (statementsTokens body) ++ .keyword .else :: braced (statementsTokens alternative)))
  | .while condition body =>
    .keyword .while :: .symbol .leftParen ::
      (condition.tokens ++ .symbol .rightParen :: braced (statementsTokens body))
  | .call callee arguments =>
    .keyword .do ::
      (callee.tokens ++ .symbol .leftParen ::
        (argumentsTokens arguments ++ [.symbol .rightParen, .symbol .semicolon]))
  | .return none => [.keyword .return, .symbol .semicolon]
  | .return (some value) => .keyword .return :: (value.tokens ++ [.symbol .semicolon])

/-- The tokens of statements. -/
def statementsTokens : List Stmt → List Token
  | [] => []
  | s :: ss => s.tokens ++ statementsTokens ss

end

/-! ## Meaning -/

/-- What a call is made on, and the name of its subroutine. A declared name before the dot
is the object, and any other name is a class. -/
def Callee.resolve (h : Header) : Callee → Option (Target × String)
  | .bare name => some (.self, name)
  | .member head name =>
    match h.scope.find? head with
    | some v => some (.object v, name)
    | none => some (.type head, name)
  | .this name => if h.hasObject then some (.self, name) else none

mutual

/-- What a term means in a subroutine. -/
def Term.tree? (h : Header) : Term → Option Expression
  | .integer value => some (.integer value)
  | .string value => if isWritable value then some (.string value) else none
  | .true => some .true
  | .false => some .false
  | .null => some .null
  | .this => if h.hasObject then some .this else none
  | .name name => do return .variable (← h.scope.find? name)
  | .element array index => do return .element (← h.scope.find? array) (← index.tree? h)
  | .call callee arguments => do
    let (target, name) ← callee.resolve h
    return .call target name (← argumentsTree? h arguments)
  | .enclosed e => e.tree? h
  | .negate operand => do return .negate (← operand.tree? h)
  | .invert operand => do return .invert (← operand.tree? h)

/-- What an expression means in a subroutine. -/
def Expr.tree? (h : Header) : Expr → Option Expression
  | .mk first others => do others.tree? h (← first.tree? h)

/-- What operators and terms behind a value mean in a subroutine: the first operator is
applied first. -/
def Chain.tree? (h : Header) : Chain → Expression → Option Expression
  | .nil, left => some left
  | .cons operator operand others, left => do
    others.tree? h (.binary left operator (← operand.tree? h))

/-- What arguments mean in a subroutine. -/
def argumentsTree? (h : Header) : List Expr → Option (List Expression)
  | [] => some []
  | e :: es => do return (← e.tree? h) :: (← argumentsTree? h es)

end

mutual

/-- What a statement means in a subroutine. One without a result returns no value. -/
def Stmt.tree? (h : Header) : Stmt → Option Statement
  | .assign name value => do return .assign (← h.scope.find? name) (← value.tree? h)
  | .assignElement array index value => do
    return .assignElement (← h.scope.find? array) (← index.tree? h) (← value.tree? h)
  | .ifThen condition body => do
    return .ifThen (← condition.tree? h) (← statementsTree? h body)
  | .ifElse condition body alternative => do
    return .ifElse (← condition.tree? h) (← statementsTree? h body)
      (← statementsTree? h alternative)
  | .while condition body => do
    return .while (← condition.tree? h) (← statementsTree? h body)
  | .call callee arguments => do
    let (target, name) ← callee.resolve h
    return .call target name (← argumentsTree? h arguments)
  | .return none => some (.return none)
  | .return (some value) => if h.isVoid then none else do return .return (← value.tree? h)

/-- What statements mean in a subroutine. -/
def statementsTree? (h : Header) : List Stmt → Option (List Statement)
  | [] => some []
  | s :: ss => do return (← s.tree? h) :: (← statementsTree? h ss)

end

end Grammar

end JackToolchain.Jack
