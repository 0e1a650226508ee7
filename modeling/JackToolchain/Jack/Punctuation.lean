/-!
# Symbols

The punctuation of Jack. Each symbol is a single character.

* `Punctuation.char`, `Punctuation.ofChar?`: a symbol's character, and back.
* `Punctuation.ofChar?_eq_some_iff`: the two agree.
-/

namespace JackToolchain.Jack

/-- A punctuation mark. -/
inductive Punctuation where
  | ampersand | asterisk | comma | dot | equal | greater | leftBrace | leftParen | leftBracket
  | less | minus | plus | rightBrace | rightParen | rightBracket | semicolon | slash | tilde | bar
deriving DecidableEq, Repr

namespace Punctuation

/-- The character that writes a symbol. -/
def char : Punctuation → Char
  | .ampersand => '&'
  | .asterisk => '*'
  | .comma => ','
  | .dot => '.'
  | .equal => '='
  | .greater => '>'
  | .leftBrace => '{'
  | .leftParen => '('
  | .leftBracket => '['
  | .less => '<'
  | .minus => '-'
  | .plus => '+'
  | .rightBrace => '}'
  | .rightParen => ')'
  | .rightBracket => ']'
  | .semicolon => ';'
  | .slash => '/'
  | .tilde => '~'
  | .bar => '|'

/-- A symbol as a text. -/
def text (s : Punctuation) : String :=
  s.char.toString

/-- Every symbol. -/
def all : List Punctuation :=
  [.ampersand, .asterisk, .comma, .dot, .equal, .greater, .leftBrace, .leftParen, .leftBracket,
   .less, .minus, .plus, .rightBrace, .rightParen, .rightBracket, .semicolon, .slash, .tilde, .bar]

/-- The symbol that a character is. -/
def ofChar? (c : Char) : Option Punctuation :=
  all.find? (·.char = c)

theorem mem_all (s : Punctuation) : s ∈ all := by
  cases s <;> decide

theorem char_injective {s t : Punctuation} (h : s.char = t.char) : s = t := by
  have : ∀ s ∈ all, ∀ t ∈ all, s.char = t.char → s = t := by decide
  exact this s (mem_all s) t (mem_all t) h

theorem ofChar?_eq_some_iff {c : Char} {s : Punctuation} : ofChar? c = some s ↔ s.char = c := by
  constructor
  · intro h
    simpa using List.find?_some h
  · rintro rfl
    cases h : ofChar? s.char with
    | none => exact absurd (List.find?_eq_none.1 h s (mem_all s)) (by simp)
    | some t =>
      have ht : t.char = s.char := by simpa using List.find?_some h
      rw [char_injective ht]

end Punctuation

end JackToolchain.Jack
