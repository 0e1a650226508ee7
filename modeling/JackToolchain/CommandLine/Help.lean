import JackToolchain.CommandLine.Fault
import JackToolchain.Terminal.Palette
import JackToolchain.Text.Basic

/-!
# Help and version

* `helpText`: what a tool says about its flags.
* `versionText`: what a tool says about itself.
-/

namespace JackToolchain.CommandLine

open Terminal Text

/-- The line of the help text that a rule has. -/
def Rule.helpLine {α : Type} (r : Rule α) : String :=
  "\n  -" ++ r.flag.toString ++ "    --" ++ padRight 11 r.long ++ " " ++ padRight 31 r.usage ++
    " " ++ r.description

/-- The headings above the rules. -/
def headings : String :=
  "\n  Flag  Long Flag     Params                          Description\n" ++
    "  ----  ---------     ------                          -----------"

/-- The help text of a tool with some rules. -/
def helpText {α : Type} (palette : Palette) (rules : List (Rule α)) :
    Purpose → Except Fault String
  | .help info =>
    let name := palette.paint ⟨.cyan, true, false⟩ info.name
    .ok (info.authors ++ " - " ++ name ++ " v" ++ info.version ++ "\n\n" ++
      palette.paint ⟨.green, true, false⟩ "Usage:" ++ " " ++ name ++ " " ++
      palette.paint ⟨.yellow, false, false⟩ "[<Argument>*]" ++ "\n" ++
      palette.paint ⟨.green, true, false⟩ headings ++
      String.join (rules.map Rule.helpLine) ++ "\n")
  | _ => .error .noHelpInfo

/-- The version text of a tool. -/
def versionText (palette : Palette) : Purpose → Except Fault String
  | .version info =>
    let heading := palette.paint ⟨.green, true, false⟩
    .ok (heading "Version:" ++ "     " ++ palette.paint ⟨.cyan, true, false⟩ info.name ++ " v" ++
      info.version ++ "\n" ++
      heading "Author:" ++ "      " ++ info.authors ++ "\n" ++
      heading "License:" ++ "     " ++ info.license ++ "\n" ++
      heading "Description:" ++ " " ++ info.description ++ "\n")
  | _ => .error .noVersionInfo

end JackToolchain.CommandLine
