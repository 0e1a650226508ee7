import JackToolchain.Jack.Reading.Expression

/-!
# Reading statements

    statements: statement*
    statement:  'let' name ('[' expression ']')? '=' expression ';'
              | 'if' '(' expression ')' block ('else' block)?
              | 'while' '(' expression ')' block
              | 'do' call ';'
              | 'return' expression? ';'
    block:      '{' statements '}'

A subroutine without a result returns nothing, so an expression behind its `return` is
refused.

* `readStatements`: statements and the brace behind them.
-/

namespace JackToolchain.Jack

/-- Reads an expression between two symbols. -/
def readEnclosed (h : Header) (left right : Punctuation) (ts : List Lexeme) :
    Except Fault (Taken Expression ts) := do
  let ⟨_, r₁, h₁⟩ ← symbol left ts
  let ⟨e, r₂, h₂⟩ ← within h₁ (readExpression h r₁)
  let ⟨_, r₃, h₃⟩ ← within h₂ (symbol right r₂)
  return ⟨e, r₃, h₃⟩

/-- Reads an assignment behind its `let`. -/
def readLet (h : Header) (ts : List Lexeme) : Except Fault (Taken Statement ts) := do
  let ⟨name, r₁, h₁⟩ ← identifier .variableName ts
  let target ← resolve h.scope name
  match frontSymbol? r₁ with
  | some .leftBracket => do
    let ⟨index, r₂, h₂⟩ ← within h₁ (readEnclosed h .leftBracket .rightBracket r₁)
    let ⟨value, r₃, h₃⟩ ← within h₂ (readEnclosed h .equal .semicolon r₂)
    return ⟨.assignElement target index value, r₃, h₃⟩
  | _ => do
    let ⟨value, r₂, h₂⟩ ← within h₁ (readEnclosed h .equal .semicolon r₁)
    return ⟨.assign target value, r₂, h₂⟩

/-- Reads the first token of a call. -/
def readCallHead (h : Header) (ts : List Lexeme) : Except Fault (Taken CallHead ts) := do
  let ⟨first, r, h₁⟩ ← next .subroutineCall ts
  match first.token with
  | .identifier name => return ⟨.named name, r, h₁⟩
  | .keyword .this => do
    allowThis h first.offset
    return ⟨.this, r, h₁⟩
  | _ => .error (unexpected .subroutineCall ts)

/-- Reads a call behind its `do`. -/
def readDo (h : Header) (ts : List Lexeme) : Except Fault (Taken Statement ts) := do
  let ⟨head, r₁, h₁⟩ ← readCallHead h ts
  let ⟨(target, name, arguments), r₂, h₂⟩ ← within h₁ (readCall h head r₁)
  let ⟨_, r₃, h₃⟩ ← within h₂ (symbol .semicolon r₂)
  return ⟨.call target name arguments, r₃, h₃⟩

/-- Reads what stands behind a `return`. -/
def readReturn (h : Header) (ts : List Lexeme) : Except Fault (Taken Statement ts) :=
  match frontSymbol? ts with
  | some .semicolon => do
    let ⟨_, r, h₁⟩ ← symbol .semicolon ts
    return ⟨.return none, r, h₁⟩
  | _ =>
    if h.isVoid then .error (unexpected (.symbol .semicolon) ts)
    else do
      let ⟨value, r₁, h₁⟩ ← readExpression h ts
      let ⟨_, r₂, h₂⟩ ← within h₁ (symbol .semicolon r₁)
      return ⟨.return (some value), r₂, h₂⟩

/-- Whether a statement starts with a keyword. -/
def startsStatement : Keyword → Bool
  | .let | .if | .while | .do | .return => true
  | _ => false

mutual

/-- Reads statements and the brace behind them. -/
def readStatements (h : Header) (ts : List Lexeme) : Except Fault (Taken (List Statement) ts) :=
  if (frontKeyword? ts).any startsStatement then do
    let ⟨s, r₁, h₁⟩ ← readStatement h ts
    let ⟨others, r₂, h₂⟩ ← within h₁ (readStatements h r₁)
    return ⟨s :: others, r₂, h₂⟩
  else do
    let ⟨_, r, h₁⟩ ← symbol .rightBrace ts
    return ⟨[], r, h₁⟩
termination_by 2 * ts.length + 1

/-- Reads a statement, which its keyword tells apart. -/
def readStatement (h : Header) (ts : List Lexeme) : Except Fault (Taken Statement ts) := do
  let ⟨first, r, h₁⟩ ← next .term ts
  match first.token with
  | .keyword .let => within h₁ (readLet h r)
  | .keyword .if => within h₁ (readIf h r)
  | .keyword .while => within h₁ (readWhile h r)
  | .keyword .do => within h₁ (readDo h r)
  | _ => within h₁ (readReturn h r)
termination_by 2 * ts.length

/-- Reads statements in braces. -/
def readBlock (h : Header) (ts : List Lexeme) : Except Fault (Taken (List Statement) ts) := do
  let ⟨_, r, h₁⟩ ← symbol .leftBrace ts
  within h₁ (readStatements h r)
termination_by 2 * ts.length

/-- Reads a conditional behind its `if`. -/
def readIf (h : Header) (ts : List Lexeme) : Except Fault (Taken Statement ts) := do
  let ⟨condition, r₁, h₁⟩ ← readEnclosed h .leftParen .rightParen ts
  let ⟨body, r₂, h₂⟩ ← within h₁ (readBlock h r₁)
  match frontKeyword? r₂ with
  | some .else => do
    let ⟨_, r₃, h₃⟩ ← within h₂ (keyword .else r₂)
    let ⟨alternative, r₄, h₄⟩ ← within h₃ (readBlock h r₃)
    return ⟨.ifElse condition body alternative, r₄, h₄⟩
  | _ => return ⟨.ifThen condition body, r₂, h₂⟩
termination_by 2 * ts.length

/-- Reads a loop behind its `while`. -/
def readWhile (h : Header) (ts : List Lexeme) : Except Fault (Taken Statement ts) := do
  let ⟨condition, r₁, h₁⟩ ← readEnclosed h .leftParen .rightParen ts
  let ⟨body, r₂, h₂⟩ ← within h₁ (readBlock h r₁)
  return ⟨.while condition body, r₂, h₂⟩
termination_by 2 * ts.length

end

end JackToolchain.Jack
