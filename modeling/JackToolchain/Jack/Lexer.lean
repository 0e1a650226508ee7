import JackToolchain.Jack.Token
import JackToolchain.Text.Basic
import JackToolchain.Text.Position

/-!
# Splitting a source text into tokens

A text is a sequence of blanks, comments, symbols, strings and words. Every step takes
the longest piece that it can, so the text alone fixes the tokens.

* `afterBlockComment`: the text behind a block comment.
* `Token.ofWord`: the token that a word is.
* `lex`: the tokens of a text with their byte offsets.
-/

namespace JackToolchain.Jack

open Text

/-- The text behind the first `*/`, or nothing if there is none. -/
def afterBlockComment : List Char → List Char
  | '*' :: '/' :: cs => cs
  | _ :: cs => afterBlockComment cs
  | [] => []

theorem afterBlockComment_length_le (cs : List Char) :
    (afterBlockComment cs).length ≤ cs.length := by
  fun_induction afterBlockComment cs with
  | case1 => simp; omega
  | case2 => simp; omega
  | case3 => simp

/-- Whether a character ends a word. -/
def isSeparator (c : Char) : Bool :=
  isBlank c || c == '"' || (Punctuation.ofChar? c).isSome

/-- A word is a keyword, else an integer constant if its digits write one, else an
identifier. -/
def Token.ofWord (word : List Char) : Token :=
  let name := String.ofList word
  match Keyword.ofText? name with
  | some k => .keyword k
  | none =>
    match decimal? word with
    | some n => if n ≤ maxConstant then .integer n else .identifier name
    | none => .identifier name

/-- The tokens of a text whose first character has the given byte offset. A comment or a
string that is not closed runs to the end of the text. -/
def lexFrom (offset : Nat) (text : List Char) : List Lexeme :=
  match text with
  | [] => []
  | '/' :: '/' :: cs =>
    let comment := cs.takeWhile (· != '\n')
    lexFrom (offset + 2 + byteSize comment) (cs.dropWhile (· != '\n'))
  | '/' :: '*' :: cs =>
    let rest := afterBlockComment cs
    lexFrom (offset + 2 + byteSize (cs.take (cs.length - rest.length))) rest
  | '"' :: cs =>
    let value := cs.takeWhile (· != '"')
    ⟨.string (String.ofList value), offset⟩ ::
      lexFrom (offset + 2 + byteSize value) ((cs.dropWhile (· != '"')).drop 1)
  | c :: cs =>
    if isBlank c then
      lexFrom (offset + c.utf8Size) cs
    else
      match Punctuation.ofChar? c with
      | some s => ⟨.symbol s, offset⟩ :: lexFrom (offset + c.utf8Size) cs
      | none =>
        let word := c :: cs.takeWhile (!isSeparator ·)
        ⟨Token.ofWord word, offset⟩ ::
          lexFrom (offset + byteSize word) (cs.dropWhile (!isSeparator ·))
termination_by text.length
decreasing_by
  · have := (List.dropWhile_suffix (· != '\n') (l := cs)).length_le
    simp only [List.length_cons]
    omega
  · have := afterBlockComment_length_le cs
    simp only [List.length_cons]
    omega
  · have := (List.dropWhile_suffix (· != '"') (l := cs)).length_le
    simp only [List.length_drop, List.length_cons]
    omega
  · simp
  · simp
  · have := (List.dropWhile_suffix (!isSeparator ·) (l := cs)).length_le
    simp only [List.length_cons]
    omega

/-- The tokens of a source text. -/
def lex (source : String) : List Lexeme :=
  lexFrom 0 source.toList

end JackToolchain.Jack
