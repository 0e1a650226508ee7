import JackToolchain.CommandLine.Help
import JackToolchain.CommandLine.Parser
import JackToolchain.CommandLine.Settings
import JackToolchain.Files.Roster
import JackToolchain.Tool.Failure

/-!
# Running a tool

A tool has rules and one kind of work. A run reads the command line, stores the settings
and then does the work, and its exit code says whether all of that succeeded.

* `readAll`: reads every file, also behind one that is faulty.
* `run`: a run of a tool.
-/

namespace JackToolchain.Tool

open Terminal CommandLine Files

variable {m : Type → Type} [Monad m] [Host m]

/-- Reads every file and logs the faults. It fails if there are any. -/
def readAll {α : Type} (palette : Palette) (files : List Source)
    (read : Source → m (Except String α)) : ExceptT Failure m (List α) := do
  let outcomes ← files.mapM fun file => do
    let outcome ← read file
    if let .error report := outcome then
      log palette .error report
    return outcome
  match outcomes.countP (!·.isOk) with
  | 0 => return outcomes.filterMap Except.toOption
  | failed => throw (.filesFailed failed files.length)

/-- Logs that some part of a run succeeded. -/
def logSuccess (palette : Palette) (message : String) : m Unit :=
  log palette .info (palette.paint ⟨.green, true, false⟩ message)

/-- What a rule stands for. -/
inductive RuleAction where
  | help | version | set | work
deriving DecidableEq, Repr

/-- The work of a tool on the parameters of its flag. -/
abbrev Work (m : Type → Type) := Settings → List String → ExceptT Failure m Unit

/-- Performs the action of a rule. Settings last until the end of the run. -/
def perform (palette : Palette) (rules : List (Rule RuleAction)) (work : Work m) (action : RuleAction)
    (token : Token) : ExceptT Failure (StateT Settings m) Unit := do
  match action with
  | .help =>
    Host.print .output (← ofExcept ((helpText palette rules token.purpose).mapError .usage))
  | .version =>
    Host.print .output (← ofExcept ((versionText palette token.purpose).mapError .usage))
  | .set =>
    set (← ofExcept (((← get).set token.purpose token.parameters).mapError .usage))
  | .work =>
    let some parameters := token.parameters | throw .noInput
    ofExcept (← (work (← get) parameters).run)

/-- Reads a command line and performs its actions. -/
def performAll (palette : Palette) (parser : Parser RuleAction) (work : Work m)
    (arguments : List String) : m (Except Failure Unit) := do
  match parser.read arguments with
  | .error fault => return .error (.usage fault)
  | .ok parser =>
    let (outcome, _) ← ((parser.evaluate (perform palette parser.rules work)).run).run {}
    return outcome

/-- Runs a tool and returns its exit code: 0 if all went well, and 1 after a failure,
which is logged. -/
def run (palette : Palette) (parser : Parser RuleAction) (work : Work m) (arguments : List String) :
    m UInt32 := do
  match ← performAll palette parser work arguments with
  | .ok () => return 0
  | .error failure => do
    log palette .error (failure.message palette)
    return 1

/-- The parser of a tool whose first rule holds if no flag is given. -/
def parserOf (rules : List (Rule RuleAction)) : Parser RuleAction :=
  { rules, default? := some 0 }

/-- The rules that every tool has: its help and its version. -/
def commonRules (info : Info) : List (Rule RuleAction) :=
  [ ⟨'h', "help", "-", "Print help", .help info, 0, some 0, .executable, .help⟩,
    ⟨'v', "version", "-", "Print version", .version info, 0, some 0, .executable, .version⟩ ]

end JackToolchain.Tool
