import JackToolchain.Files.FileTree
import JackToolchain.Terminal.Log

/-!
# What a tool asks of its host

A tool reads and writes files and prints messages. The host that it runs on is a
parameter, so that the same definition runs on the system and on a machine made of
values.

* `Host`: the operations of a host.
* `Machine`: a host made of values.
* `log`: prints a log line.
-/

namespace JackToolchain.Files

open Terminal

/-- Where a text is printed. -/
inductive Channel where
  | output | error
deriving DecidableEq, Repr

/-- The operations that tools use. -/
class Host (m : Type → Type) where
  isDirectory : FilePath → m Bool
  isFile : FilePath → m Bool
  /-- The names in a directory. -/
  names : FilePath → m (Option (List String))
  /-- The text of a file, if it is one. -/
  read : FilePath → m (Option String)
  /-- The name that a directory has in its parent. -/
  ownName : FilePath → m (Option String)
  /-- Makes a directory and the parents that are missing. -/
  makeDirectories : FilePath → m Bool
  write : FilePath → String → m Bool
  /-- Moves a file over another. -/
  move : FilePath → FilePath → m (Except Obstacle Unit)
  remove : FilePath → m Unit
  print : Channel → String → m Unit
  time : m TimeOfDay

/-- The operations of a host within a larger set of effects. -/
@[reducible]
def Host.within {m n : Type → Type} [Host m] (lift : {α : Type} → m α → n α) : Host n where
  isDirectory p := lift (Host.isDirectory p)
  isFile p := lift (Host.isFile p)
  names p := lift (Host.names p)
  read p := lift (Host.read p)
  ownName p := lift (Host.ownName p)
  makeDirectories p := lift (Host.makeDirectories p)
  write p text := lift (Host.write p text)
  move source target := lift (Host.move source target)
  remove p := lift (Host.remove p)
  print channel text := lift (Host.print channel text)
  time := lift Host.time

/-- An action that can fail uses the same host. -/
instance {m : Type → Type} [Monad m] [Host m] {ε : Type} : Host (ExceptT ε m) :=
  Host.within ExceptT.lift

/-- An action with a state uses the same host. -/
instance {m : Type → Type} [Monad m] [Host m] {σ : Type} : Host (StateT σ m) :=
  Host.within StateT.lift

/-- A host made of values: a directory tree, a working directory in it, a clock that stands
still, and what was printed. -/
structure Machine where
  tree : FileTree
  here : Location
  time : TimeOfDay := ⟨0⟩
  output : String := ""
  errors : String := ""

/-- Prints a text on one of the channels. -/
def Machine.print (channel : Channel) (text : String) (m : Machine) : Machine :=
  match channel with
  | .output => { m with output := m.output ++ text }
  | .error => { m with errors := m.errors ++ text }

/-- Changes the tree of a machine by an operation that can fail. -/
def Machine.change (operation : FileTree → Location → Except Obstacle FileTree) (m : Machine) :
    Except Obstacle Unit × Machine :=
  match operation m.tree m.here with
  | .ok tree => (.ok (), { m with tree })
  | .error obstacle => (.error obstacle, m)

/-- What a machine's tree answers. -/
def Machine.ask {α : Type} (question : FileTree → Location → α) : StateM Machine α := do
  let m ← get
  return question m.tree m.here

/-- A machine is a host whose operations act on its tree and what it printed. -/
instance : Host (StateT Machine Id) where
  isDirectory p := Machine.ask fun t here => t.isDirectory here p
  isFile p := Machine.ask fun t here => t.isFile here p
  names p := Machine.ask fun t here => (t.locate here p).toOption.map t.names
  read p := Machine.ask fun t here => t.read? here p
  ownName p := Machine.ask fun t here => (t.locate here p).toOption.bind (·.getLast?)
  makeDirectories p := modifyGet fun m =>
    let (tree, made) := m.tree.makeDirectories m.here p.ancestors
    (made, { m with tree })
  write p text := do return (← modifyGet (Machine.change (·.write · p text))).isOk
  move source target := modifyGet (Machine.change (·.move · source target))
  remove p := modify fun m => { m with tree := m.tree.remove m.here p }
  print channel text := modify (Machine.print channel text)
  time := do return (← get).time

variable {m : Type → Type} [Monad m] [Host m]

/-- Prints a log line. Only errors go to the error channel. -/
def log (palette : Palette) (severity : Severity) (message : String) : m Unit := do
  let time ← Host.time
  let channel := if severity = .error then Channel.error else Channel.output
  Host.print channel (severity.line palette time message)

end JackToolchain.Files
