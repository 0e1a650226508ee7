import JackToolchain.CommandLine.Fault

/-!
# Reading a command line

An argument that starts with `-` names flags: one behind `--`, or one for each character
behind a single `-`. The arguments up to the next such one are parameters of the first
flag that it names.

* `Parser.read`: the flags that arguments give, all of them or a fault.
* `Parser.arranged`: the flags with the settings in front.
* `Parser.evaluate`: performs the actions of the flags in that order.
-/

namespace JackToolchain.CommandLine

/-- The rules of a tool and the flags that were given. -/
structure Parser (α : Type) where
  rules : List (Rule α) := []
  /-- The index of the rule that holds if no flag is given. -/
  default? : Option Nat := none
  tokens : List Token := []

/-- The token of a rule with the parameters given to it. -/
def Rule.token {α : Type} (r : Rule α) (argument : String) (parameters : List String) :
    Except Fault Token :=
  if parameters.length < r.least then .error (.notEnoughParameters argument)
  else if r.most.any (· < parameters.length) then .error (.tooManyParameters argument)
  else .ok ⟨r.stage, r.purpose, some parameters⟩

/-- Whether an argument names flags. -/
def isFlag (argument : String) : Bool :=
  argument.toList.head? == some '-'

namespace Parser

variable {α : Type}

/-- Adds a rule. There is no parser with a rule that no number of parameters fits. -/
def add? (p : Parser α) (r : Rule α) : Option (Parser α) :=
  if r.isSatisfiable then some { p with rules := p.rules ++ [r] } else none

/-- Adds a rule that holds if no flag is given. It starts some work. -/
def addDefault? (p : Parser α) (r : Rule α) : Option (Parser α) :=
  (p.add? { r with stage := .executable }).map fun q => { q with default? := some p.rules.length }

/-- The rule with the given name. -/
def ruleNamed (p : Parser α) (name : String) : Except Fault (Rule α) :=
  match p.rules.find? (·.long = name) with
  | some r => .ok r
  | none => .error (.invalidFlag name)

/-- The rule with the given character. -/
def ruleOf (p : Parser α) (flag : Char) : Except Fault (Rule α) :=
  match p.rules.find? (·.flag = flag) with
  | some r => .ok r
  | none => .error (.invalidFlag flag.toString)

/-- The rules that an argument names. -/
def rulesFor (p : Parser α) (argument : String) : Except Fault (List (Rule α)) :=
  match argument.toList with
  | '-' :: '-' :: name => do return [← p.ruleNamed (String.ofList name)]
  | '-' :: flags => flags.mapM p.ruleOf
  | _ => .error (.unexpectedArgument argument)

/-- The tokens that arguments give. -/
def tokensOf (p : Parser α) (arguments : List String) : Except Fault (List Token) :=
  match arguments with
  | [] => .ok []
  | argument :: rest => do
    match ← p.rulesFor argument with
    | [] => p.tokensOf rest
    | first :: cluster =>
      let token ← first.token argument (rest.takeWhile (!isFlag ·))
      let others ← cluster.mapM (·.token argument [])
      let later ← p.tokensOf (rest.dropWhile (!isFlag ·))
      return token :: others ++ later
termination_by arguments.length
decreasing_by
  · simp
  · have := (List.dropWhile_suffix (!isFlag ·) (l := rest)).length_le
    simp only [List.length_cons]
    omega

/-- The parser with the tokens that arguments give. -/
def read (p : Parser α) (arguments : List String) : Except Fault (Parser α) := do
  return { p with tokens := ← p.tokensOf arguments }

/-- The parser with the settings in front of the work, each in the order given. -/
def arranged (p : Parser α) : Parser α :=
  { p with tokens := p.tokens.filter (·.stage = .setting) ++
      p.tokens.filter (·.stage = .executable) }

/-- The action of a token, which is that of the first rule with its purpose. -/
def actionOf? (p : Parser α) (t : Token) : Option α :=
  (p.rules.find? (·.purpose = t.purpose)).map (·.action)

/-- The rule that holds if no flag is given, as an action and its token. -/
def defaultCall? (p : Parser α) : Option (α × Token) := do
  let r ← p.rules[← p.default?]?
  return (r.action, ⟨r.stage, r.purpose, none⟩)

/-- The actions to perform with the tokens that they are for. -/
def calls (p : Parser α) : List (α × Token) :=
  match p.tokens with
  | [] => p.defaultCall?.toList
  | _ => p.arranged.tokens.filterMap fun t => (p.actionOf? t).map (·, t)

/-- Performs the actions up to the first that fails. -/
def evaluate {m : Type → Type} [Monad m] {ε : Type} (p : Parser α)
    (perform : α → Token → ExceptT ε m Unit) : ExceptT ε m Unit :=
  p.calls.forM fun (action, token) => perform action token

end Parser

end JackToolchain.CommandLine
