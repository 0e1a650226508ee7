/-!
# Command line rules

A command line is a list of flags, each with the parameters behind it. A rule says which
flag there is, how many parameters it takes and what it is for.

* `Purpose`: what a flag is for.
* `Rule`: a flag with its action.
* `Token`: a flag that was given.
-/

namespace JackToolchain.CommandLine

/-- What a tool says about itself. -/
structure Info where
  name : String
  version : String
  authors : String
  license : String
  description : String
deriving DecidableEq, Repr

/-- What a flag is for. -/
inductive Purpose where
  | compile
  | translate
  | version (info : Info)
  | help (info : Info)
  | debug
  | output
  | noInit
  | annotate
deriving DecidableEq, Repr

/-- A character as it stands between quotes. -/
def quotedChar : Char → String
  | '"' => "\\\""
  | '\\' => "\\\\"
  | '\n' => "\\n"
  | '\r' => "\\r"
  | '\t' => "\\t"
  | c => c.toString

/-- A text between quotes. -/
def quoted (text : String) : String :=
  "\"" ++ String.join (text.toList.map quotedChar) ++ "\""

/-- The five texts of an info as a list. -/
def Info.text (i : Info) : String :=
  "[" ++ ", ".intercalate ([i.name, i.version, i.authors, i.license, i.description].map quoted) ++
    "]"

/-- A purpose as messages name it. -/
def Purpose.text : Purpose → String
  | .compile => "Compile"
  | .translate => "Translate"
  | .version info => "Version(" ++ info.text ++ ")"
  | .help info => "Help(" ++ info.text ++ ")"
  | .debug => "Debug"
  | .output => "Output"
  | .noInit => "NoInit"
  | .annotate => "Annotate"

/-- Whether a flag changes a setting or starts some work, which sees all settings. -/
inductive Stage where
  | setting | executable
deriving DecidableEq, Repr

/-- The name of a stage. -/
def Stage.text : Stage → String
  | .setting => "Setting"
  | .executable => "Executable"

/-- A flag that was given, with its parameters. There are none, not even an empty list of
them, if the tool chose the flag itself. -/
structure Token where
  stage : Stage
  purpose : Purpose
  parameters : Option (List String)
deriving DecidableEq, Repr

/-- A flag of a tool and the action that it stands for. -/
structure Rule (α : Type) where
  flag : Char
  long : String
  usage : String
  description : String
  purpose : Purpose
  /-- The fewest parameters. -/
  least : Nat
  /-- The most parameters, if there is a limit. -/
  most : Option Nat
  stage : Stage
  action : α

/-- Whether some number of parameters fits a rule. -/
def Rule.isSatisfiable {α : Type} (r : Rule α) : Bool :=
  r.most.all (r.least ≤ ·)

end JackToolchain.CommandLine
