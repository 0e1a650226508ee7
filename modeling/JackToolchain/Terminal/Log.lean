import JackToolchain.Terminal.Palette

/-!
# Log lines

A log line carries a mark, the time of day, a severity and a message.

* `TimeOfDay.text`: a time as `HH:MM:SS`.
* `Severity.line`: the line that logs a message.
-/

namespace JackToolchain.Terminal

/-- A time of day in seconds since midnight. -/
structure TimeOfDay where
  seconds : Nat
deriving DecidableEq, Repr

/-- A number below 100 with two digits. -/
def twoDigits (n : Nat) : String :=
  if n < 10 then "0" ++ toString n else toString n

/-- Hours, minutes and seconds. -/
def TimeOfDay.text (t : TimeOfDay) : String :=
  twoDigits (t.seconds / 3600 % 24) ++ ":" ++ twoDigits (t.seconds / 60 % 60) ++ ":" ++
    twoDigits (t.seconds % 60)

/-- The severity of a message. -/
inductive Severity where
  | error | warning | info
deriving DecidableEq, Repr

/-- The mark at the start of a log line. -/
def Severity.mark : Severity → String
  | .error => "!"
  | .warning => "?"
  | .info => "+"

/-- The name of a severity. -/
def Severity.word : Severity → String
  | .error => "Error"
  | .warning => "Warning"
  | .info => "Info"

/-- The colour that shows a severity. -/
def Severity.color : Severity → Color
  | .error => .red
  | .warning => .yellow
  | .info => .green

/-- The line that logs a message at a time. -/
def Severity.line (severity : Severity) (palette : Palette) (time : TimeOfDay)
    (message : String) : String :=
  "[" ++ palette.paint ⟨severity.color, true, false⟩ severity.mark ++ "] [" ++ time.text ++
    "] [" ++ palette.paint ⟨severity.color, true, true⟩ severity.word ++ "]: " ++ message ++ "\n"

end JackToolchain.Terminal
