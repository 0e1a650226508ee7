import JackToolchain.CommandLine.Fault

/-!
# Settings

A setting is a bit of the flags stored for its purpose, beside the parameters given.

* `Settings.set`: stores what a token says.
* `Settings.get`: the parameters of a setting.
* `Settings.isEnabled`, `Settings.output?`: what the tools ask.
-/

namespace JackToolchain.CommandLine

/-- What can be set. -/
inductive Setting where
  | printAll | printTokens | printSymbols | printProgram | output | noInit | annotate
deriving DecidableEq, Repr

namespace Setting

/-- The flag of a setting. -/
def bit : Setting → Nat
  | .printAll => 2
  | .printTokens => 4
  | .printSymbols => 8
  | .printProgram => 16
  | .output => 32
  | .noInit => 64
  | .annotate => 128

/-- The purpose that a setting is stored for. -/
def purpose : Setting → Purpose
  | .printAll | .printTokens | .printSymbols | .printProgram => .debug
  | .output => .output
  | .noInit => .noInit
  | .annotate => .annotate

/-- The setting that a parameter selects. -/
def ofSelector? : String → Option Setting
  | "all" => some .printAll
  | "tokens" => some .printTokens
  | "symbols" => some .printSymbols
  | "program" => some .printProgram
  | _ => none

end Setting

/-- The flags that parameters select. Without any selector they are the given ones. -/
def selectedFlags (parameters : List String) (fallback : Nat) : Nat :=
  let flags := parameters.foldl
    (fun flags s => flags ||| ((Setting.ofSelector? s).map Setting.bit).getD 0) 0
  if flags = 0 then fallback else flags

namespace Purpose

/-- The flags that a token stores if no parameter selects others. -/
def defaultFlags : Purpose → Nat
  | .debug => Setting.printAll.bit
  | .output => Setting.output.bit
  | .noInit => Setting.noInit.bit
  | .annotate => Setting.annotate.bit
  | _ => 0

/-- Whether a token stores its parameters. -/
def keepsParameters : Purpose → Bool
  | .debug | .output => true
  | _ => false

end Purpose

/-- What is stored for a purpose. -/
structure Choice where
  flags : Nat := 0
  parameters : Option (List String) := none
deriving DecidableEq, Repr

/-- What is stored for each purpose that has settings. -/
structure Settings where
  debug : Choice := {}
  output : Choice := {}
  noInit : Choice := {}
  annotate : Choice := {}
deriving DecidableEq, Repr

namespace Settings

/-- What is stored for a setting. -/
def choice (s : Settings) : Setting → Choice
  | .printAll | .printTokens | .printSymbols | .printProgram => s.debug
  | .output => s.output
  | .noInit => s.noInit
  | .annotate => s.annotate

/-- What a token of a purpose stores. -/
def choiceOf (purpose : Purpose) (parameters : List String) : Choice where
  flags := selectedFlags parameters purpose.defaultFlags
  parameters :=
    if purpose.keepsParameters && !parameters.isEmpty then some parameters else none

/-- Stores what a token says. -/
def set (s : Settings) (purpose : Purpose) (parameters : Option (List String)) :
    Except Fault Settings :=
  let choice := choiceOf purpose (parameters.getD [])
  match purpose with
  | .debug => .ok { s with debug := choice }
  | .output => .ok { s with output := choice }
  | .noInit => .ok { s with noInit := choice }
  | .annotate => .ok { s with annotate := choice }
  | _ => .error (.noSetting purpose)

/-- The parameters of a setting that is set. -/
def get (s : Settings) (setting : Setting) : Except Fault (Option (List String)) :=
  let choice := s.choice setting
  if choice.flags &&& setting.bit = 0 then .error .notSet else .ok choice.parameters

/-- Whether a setting is set. -/
def isSet (s : Settings) (setting : Setting) : Bool :=
  (s.get setting).isOk

/-- Whether something is to be printed: by its own selector, or because all is. -/
def isEnabled (s : Settings) (setting : Setting) : Bool :=
  s.isSet setting || s.isSet .printAll

/-- The path that output goes to. -/
def output? (s : Settings) : Option String :=
  match s.get .output with
  | .ok (some parameters) => parameters.head?
  | _ => none

end Settings

end JackToolchain.CommandLine
