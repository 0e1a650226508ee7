import JackToolchain.Jack.Fault
import JackToolchain.Jack.Tree

/-!
# Reading tokens

A rule of the grammar takes tokens off the front of a list. It decides by the first of
them alone, and its result says that fewer are left, which is why reading ends.

* `Taken`: what a rule read and the tokens that are left.
* `within`: what is read of the rest is read of the whole.
* `next`, `symbol`, `keyword`, `identifier`: the rules for a single token.
* `declare`, `resolve`: the two uses of a name.
-/

namespace JackToolchain.Jack

/-- A value read off the front of some tokens, and the fewer tokens behind it. -/
structure Taken (α : Type) (ts : List Lexeme) where
  value : α
  rest : List Lexeme
  shorter : rest.length < ts.length

/-- What is read of the rest is read of the whole. -/
def within {α : Type} {ts r : List Lexeme} (h : r.length < ts.length)
    (reading : Except Fault (Taken α r)) : Except Fault (Taken α ts) :=
  reading.map fun t => ⟨t.value, t.rest, Nat.lt_trans t.shorter h⟩

/-- A value read off with another and with the tokens behind it. -/
def Taken.extend {α β : Type} {ts r : List Lexeme} (t : Taken α ts) (value : β)
    (h : r.length < t.rest.length) : Taken β ts :=
  ⟨value, r, Nat.lt_trans h t.shorter⟩

/-- A fault at the token at hand, or at the end of the file. -/
def unexpected (expected : Expected) : List Lexeme → Fault
  | [] => ⟨.unexpectedEnd expected, none⟩
  | l :: _ => ⟨.unexpectedToken expected l.token, some l.offset⟩

/-- The symbol at the front of a list of tokens. -/
def frontSymbol? : List Lexeme → Option Punctuation
  | ⟨.symbol s, _⟩ :: _ => some s
  | _ => none

/-- The keyword at the front of a list of tokens. -/
def frontKeyword? : List Lexeme → Option Keyword
  | ⟨.keyword k, _⟩ :: _ => some k
  | _ => none

/-- Takes a token of any kind. -/
def next (expected : Expected) (ts : List Lexeme) : Except Fault (Taken Lexeme ts) :=
  match ts with
  | [] => .error (unexpected expected [])
  | l :: rest => .ok ⟨l, rest, Nat.lt_succ_self _⟩

/-- Takes a token that is accepted as some value. -/
def accept {α : Type} (expected : Expected) (value? : Token → Option α) (ts : List Lexeme) :
    Except Fault (Taken α ts) := do
  let ⟨l, rest, h⟩ ← next expected ts
  match value? l.token with
  | some value => return ⟨value, rest, h⟩
  | none => .error (unexpected expected ts)

/-- Takes a symbol. -/
def symbol (s : Punctuation) (ts : List Lexeme) : Except Fault (Taken Unit ts) :=
  accept (.symbol s) (fun t => if t = .symbol s then some () else none) ts

/-- Takes a keyword. -/
def keyword (k : Keyword) (ts : List Lexeme) : Except Fault (Taken Unit ts) :=
  accept (.keyword k) (fun t => if t = .keyword k then some () else none) ts

/-- A name with its byte offset. -/
structure Name where
  text : String
  offset : Nat
deriving DecidableEq, Repr

/-- Takes an identifier. -/
def identifier (expected : Expected) (ts : List Lexeme) : Except Fault (Taken Name ts) := do
  let ⟨l, rest, h⟩ ← next expected ts
  match l.token with
  | .identifier name => return ⟨⟨name, l.offset⟩, rest, h⟩
  | _ => .error (unexpected expected ts)

/-- Declares a name. -/
def declare (scope : Scope) (name : Name) (type : String) (kind : Kind) : Except Fault Scope :=
  match scope.define name.text type kind with
  | some scope => .ok scope
  | none => .error ⟨.duplicateDeclaration name.text, some name.offset⟩

/-- The variable that a name means. -/
def resolve (scope : Scope) (name : Name) : Except Fault Variable :=
  match scope.find? name.text with
  | some v => .ok v
  | none => .error ⟨.undeclaredVariable name.text, some name.offset⟩

/-- Refuses `this` in a function, which has no object. -/
def allowThis (h : Header) (offset : Nat) : Except Fault Unit :=
  if h.kind = .function then .error ⟨.thisInFunction, some offset⟩ else .ok ()

end JackToolchain.Jack
