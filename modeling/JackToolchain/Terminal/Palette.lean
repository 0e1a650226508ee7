/-!
# Styled text

Messages are coloured with ANSI escape sequences as far as the terminal shows them. The
weight and the underline of a text do not depend on the palette.

* `Palette`: the colours that a terminal shows.
* `Palette.paint`: a text in a style.
-/

namespace JackToolchain.Terminal

/-- The colours of messages. -/
inductive Color where
  | red | yellow | green | cyan
deriving DecidableEq, Repr

/-- How a text looks. -/
structure Style where
  color : Color
  bold : Bool := false
  underline : Bool := false
deriving DecidableEq, Repr

/-- The colours that a terminal shows: none, its own bright ones, or any. -/
inductive Palette where
  | plain | bright | trueColor
deriving DecidableEq, Repr

/-- The escape sequence with the given parameters. -/
def escape (parameters : String) : String :=
  "\x1b[" ++ parameters ++ "m"

/-- The parameters that select one of the terminal's bright colours. -/
def Color.bright : Color → String
  | .red => "91"
  | .yellow => "93"
  | .green => "92"
  | .cyan => "96"

/-- The parameters that select a colour by its red, green and blue parts. -/
def Color.exact : Color → String
  | .red => "38;2;255;101;120"
  | .yellow => "38;2;234;203;100"
  | .green => "38;2;157;210;116"
  | .cyan => "38;2;109;199;227"

/-- A text in a colour of the palette. -/
def Palette.tint (palette : Palette) (color : Color) (text : String) : String :=
  match palette with
  | .plain => text
  | .bright => escape color.bright ++ text ++ escape "39"
  | .trueColor => escape color.exact ++ text ++ escape "39"

/-- A text in a style. Bold stands inside the underline. -/
def Palette.paint (palette : Palette) (style : Style) (text : String) : String :=
  let tinted := palette.tint style.color text
  let weighted := if style.bold then escape "1" ++ tinted ++ escape "0" else tinted
  if style.underline then escape "4" ++ weighted ++ escape "0" else weighted

end JackToolchain.Terminal
