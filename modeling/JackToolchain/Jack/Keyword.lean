/-!
# Keywords

The words that Jack reserves.

* `Keyword.text`, `Keyword.ofText?`: a keyword's spelling, and back.
* `Keyword.ofText?_eq_some_iff`: the two agree.
-/

namespace JackToolchain.Jack

/-- A reserved word. -/
inductive Keyword where
  | boolean | char | «class» | constructor | «do» | «else» | «false» | field | function | «if»
  | int | «let» | method | null | «return» | static | this | «true» | var | void | «while»
deriving DecidableEq, Repr

namespace Keyword

/-- How a keyword is spelled. -/
def text : Keyword → String
  | .boolean => "boolean"
  | .char => "char"
  | .class => "class"
  | .constructor => "constructor"
  | .do => "do"
  | .else => "else"
  | .false => "false"
  | .field => "field"
  | .function => "function"
  | .if => "if"
  | .int => "int"
  | .let => "let"
  | .method => "method"
  | .null => "null"
  | .return => "return"
  | .static => "static"
  | .this => "this"
  | .true => "true"
  | .var => "var"
  | .void => "void"
  | .while => "while"

/-- Every keyword. -/
def all : List Keyword :=
  [.boolean, .char, .class, .constructor, .do, .else, .false, .field, .function, .if, .int,
   .let, .method, .null, .return, .static, .this, .true, .var, .void, .while]

/-- The keyword with the given spelling. -/
def ofText? (word : String) : Option Keyword :=
  all.find? (·.text = word)

theorem mem_all (k : Keyword) : k ∈ all := by
  cases k <;> decide

theorem text_injective {k l : Keyword} (h : k.text = l.text) : k = l := by
  have : ∀ k ∈ all, ∀ l ∈ all, k.text = l.text → k = l := by decide
  exact this k (mem_all k) l (mem_all l) h

theorem ofText?_eq_some_iff {word : String} {k : Keyword} :
    ofText? word = some k ↔ k.text = word := by
  constructor
  · intro h
    simpa using List.find?_some h
  · rintro rfl
    cases h : ofText? k.text with
    | none => exact absurd (List.find?_eq_none.1 h k (mem_all k)) (by simp)
    | some l =>
      have hl : l.text = k.text := by simpa using List.find?_some h
      rw [text_injective hl]

end Keyword

end JackToolchain.Jack
