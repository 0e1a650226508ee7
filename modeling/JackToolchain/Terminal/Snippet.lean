import JackToolchain.Terminal.Palette
import JackToolchain.Text.Basic
import JackToolchain.Text.Position

/-!
# Source snippets

A snippet shows the line of a file that a message is about, with a mark under the
place.

* `Snippet.render`: the snippet as text.
-/

namespace JackToolchain.Terminal

open Text

/-- A message about a place in a file. -/
structure Snippet where
  file : String
  position : Position
  message : String

/-- The snippet as text. Its margin is as wide as the line number. -/
def Snippet.render (palette : Palette) (s : Snippet) : String :=
  let number := toString s.position.line
  let margin := blanks number.length
  let frame := palette.paint ⟨.green, true, false⟩
  let bar := frame "|"
  let number := palette.paint ⟨.yellow, true, false⟩ number
  let column := palette.paint ⟨.red, false, false⟩ (toString (s.position.column + 1))
  let pointer := palette.paint ⟨.red, true, false⟩ (blanks s.position.column ++ "^-----")
  "\n".intercalate
    [ margin ++ frame "-->" ++ " " ++ palette.paint ⟨.green, false, false⟩ s.file ++ ":" ++
        number ++ ":" ++ column,
      margin ++ " " ++ bar,
      number ++ " " ++ bar ++ " " ++ s.position.lineContent,
      margin ++ " " ++ bar ++ " " ++ pointer,
      margin ++ " " ++ bar,
      margin ++ " " ++ frame "=" ++ " " ++ s.message ]

/-- A message followed by the snippet that it is about. -/
def Snippet.report (palette : Palette) (s : Snippet) : String :=
  s.message ++ "\n" ++ s.render palette

end JackToolchain.Terminal
