import JackToolchain.Jack.Keyword
import JackToolchain.Jack.Punctuation

/-!
# Tokens

* `Token`: what a source text is made of.
* `Lexeme`: a token with its place.
* `Token.describe`: a token as messages name it.
-/

namespace JackToolchain.Jack

/-- The greatest integer that a Jack constant writes. -/
def maxConstant : Nat := 32767

/-- A word of the language. -/
inductive Token where
  | identifier (name : String)
  | integer (value : Nat)
  | keyword (k : Keyword)
  | string (value : String)
  | symbol (s : Punctuation)
deriving DecidableEq, Repr

/-- A token and the byte offset at which it starts. -/
structure Lexeme where
  token : Token
  offset : Nat
deriving DecidableEq, Repr

/-- A token as messages name it. -/
def Token.describe : Token → String
  | .identifier name => "identifier `" ++ name ++ "`"
  | .integer value => "integer constant `" ++ toString value ++ "`"
  | .keyword k => "keyword `" ++ k.text ++ "`"
  | .string value => "string constant \"" ++ value ++ "\""
  | .symbol s => "symbol `" ++ s.text ++ "`"

end JackToolchain.Jack
