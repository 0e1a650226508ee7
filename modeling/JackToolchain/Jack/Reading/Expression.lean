import JackToolchain.Jack.Reading.Basic

/-!
# Reading expressions

    expression: term (operator term)*
    term:       integer | string | 'true' | 'false' | 'null' | 'this'
              | name | name '[' expression ']' | call | '(' expression ')'
              | '-' term | '~' term
    call:       name arguments | name '.' name arguments | 'this' '.' name arguments
    arguments:  '(' (expression (',' expression)*)? ')'

* `checkString`: the strings that can be written.
* `readExpression`, `readCall`: an expression, and a call behind its first token.
-/

namespace JackToolchain.Jack

/-- The number of 16 bit units that characters take in UTF-16. -/
def utf16Size : List Char → Nat
  | [] => 0
  | c :: cs => (if c.toNat < 0x10000 then 1 else 2) + utf16Size cs

/-- A string constant is built from its characters at run time, so its length and each
character have to be integer constants. -/
def checkString (value : String) (offset : Nat) : Except Fault Unit :=
  if maxConstant < utf16Size value.toList then
    .error ⟨.stringTooLong (utf16Size value.toList), some offset⟩
  else
    match value.toList.find? (maxConstant < ·.toNat) with
    | some c => .error ⟨.unsupportedCharacter c, some offset⟩
    | none => .ok ()

/-- The first token of a call. -/
inductive CallHead where
  | named (name : String)
  | this
deriving DecidableEq, Repr

/-- What a call with a dot is made on. A declared variable is the receiver, and any
other name is a class. -/
def CallHead.target (scope : Scope) : CallHead → Target
  | .this => .self
  | .named name =>
    match scope.find? name with
    | some v => .object v
    | none => .type name

/-- Reads the target and the name of a call behind its first token, and the parenthesis
that opens its arguments. A name with no dot behind it is called on the current object. -/
def readCallee (h : Header) (head : CallHead) (ts : List Lexeme) :
    Except Fault (Taken (Target × String) ts) :=
  match head, frontSymbol? ts with
  | .named name, some .leftParen => do
    let ⟨_, r, h₁⟩ ← symbol .leftParen ts
    return ⟨(.self, name), r, h₁⟩
  | head, _ => do
    let ⟨_, r₁, h₁⟩ ← symbol .dot ts
    let ⟨member, r₂, h₂⟩ ← within h₁ (identifier .subroutineName r₁)
    let ⟨_, r₃, h₃⟩ ← within h₂ (symbol .leftParen r₂)
    return ⟨(head.target h.scope, member.text), r₃, h₃⟩

mutual

/-- Reads an expression. -/
def readExpression (h : Header) (ts : List Lexeme) : Except Fault (Taken Expression ts) := do
  readOperations h (← readTerm h ts)
termination_by 3 * ts.length + 1
decreasing_by
  · omega
  · rename_i t
    have := t.shorter
    omega

/-- Reads the operators and terms behind an expression. -/
def readOperations (h : Header) {ts : List Lexeme} (left : Taken Expression ts) :
    Except Fault (Taken Expression ts) :=
  match (frontSymbol? left.rest).bind BinaryOperator.ofSymbol? with
  | none => .ok left
  | some operator => do
    let ⟨_, r₁, h₁⟩ ← next .term left.rest
    let ⟨right, _, h₂⟩ ← within h₁ (readTerm h r₁)
    readOperations h (left.extend (.binary left.value operator right) h₂)
termination_by 3 * left.rest.length
decreasing_by
  · omega
  · simp only [Taken.extend]
    omega

/-- Reads a term. -/
def readTerm (h : Header) (ts : List Lexeme) : Except Fault (Taken Expression ts) := do
  let ⟨first, r, h₀⟩ ← next .term ts
  match first.token with
  | .integer value => return ⟨.integer value, r, h₀⟩
  | .string value => do
    checkString value first.offset
    return ⟨.string value, r, h₀⟩
  | .keyword .true => return ⟨.true, r, h₀⟩
  | .keyword .false => return ⟨.false, r, h₀⟩
  | .keyword .null => return ⟨.null, r, h₀⟩
  | .keyword .this => do
    allowThis h first.offset
    match frontSymbol? r with
    | some .dot => do
      let ⟨(target, name, arguments), r₁, h₁⟩ ← within h₀ (readCall h .this r)
      return ⟨.call target name arguments, r₁, h₁⟩
    | _ => return ⟨.this, r, h₀⟩
  | .identifier name =>
    match frontSymbol? r with
    | some .leftBracket => do
      let array ← resolve h.scope ⟨name, first.offset⟩
      let ⟨_, r₁, h₁⟩ ← within h₀ (symbol .leftBracket r)
      let ⟨index, r₂, h₂⟩ ← within h₁ (readExpression h r₁)
      let ⟨_, r₃, h₃⟩ ← within h₂ (symbol .rightBracket r₂)
      return ⟨.element array index, r₃, h₃⟩
    | some .leftParen | some .dot => do
      let ⟨(target, name, arguments), r₁, h₁⟩ ← within h₀ (readCall h (.named name) r)
      return ⟨.call target name arguments, r₁, h₁⟩
    | _ => do
      let v ← resolve h.scope ⟨name, first.offset⟩
      return ⟨.variable v, r, h₀⟩
  | .symbol .leftParen => do
    let ⟨e, r₁, h₁⟩ ← within h₀ (readExpression h r)
    let ⟨_, r₂, h₂⟩ ← within h₁ (symbol .rightParen r₁)
    return ⟨e, r₂, h₂⟩
  | .symbol .minus => do
    let ⟨e, r₁, h₁⟩ ← within h₀ (readTerm h r)
    return ⟨.negate e, r₁, h₁⟩
  | .symbol .tilde => do
    let ⟨e, r₁, h₁⟩ ← within h₀ (readTerm h r)
    return ⟨.invert e, r₁, h₁⟩
  | _ => .error (unexpected .term ts)
termination_by 3 * ts.length

/-- Reads a call behind its first token. -/
def readCall (h : Header) (head : CallHead) (ts : List Lexeme) :
    Except Fault (Taken (Target × String × List Expression) ts) := do
  let ⟨(target, name), r₁, h₁⟩ ← readCallee h head ts
  let ⟨arguments, r₂, h₂⟩ ← within h₁ (readArguments h r₁)
  return ⟨(target, name, arguments), r₂, h₂⟩
termination_by 3 * ts.length

/-- Reads arguments and the parenthesis that closes them. -/
def readArguments (h : Header) (ts : List Lexeme) :
    Except Fault (Taken (List Expression) ts) :=
  match frontSymbol? ts with
  | some .rightParen => do
    let ⟨_, r, h₁⟩ ← symbol .rightParen ts
    return ⟨[], r, h₁⟩
  | _ => do
    let ⟨first, r₁, h₁⟩ ← readExpression h ts
    let ⟨others, r₂, h₂⟩ ← within h₁ (readMoreArguments h r₁)
    return ⟨first :: others, r₂, h₂⟩
termination_by 3 * ts.length + 2

/-- Reads arguments that each stand behind a comma, and the parenthesis that closes
them. -/
def readMoreArguments (h : Header) (ts : List Lexeme) :
    Except Fault (Taken (List Expression) ts) :=
  match frontSymbol? ts with
  | some .comma => do
    let ⟨_, r₁, h₁⟩ ← symbol .comma ts
    let ⟨e, r₂, h₂⟩ ← within h₁ (readExpression h r₁)
    let ⟨others, r₃, h₃⟩ ← within h₂ (readMoreArguments h r₂)
    return ⟨e :: others, r₃, h₃⟩
  | _ => do
    let ⟨_, r, h₁⟩ ← symbol .rightParen ts
    return ⟨[], r, h₁⟩
termination_by 3 * ts.length

end

end JackToolchain.Jack
