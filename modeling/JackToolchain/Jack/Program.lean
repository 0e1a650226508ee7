import JackToolchain.Jack.Code
import JackToolchain.Jack.Reading.Class

/-!
# Compiling a class

* `Program`: the instructions of a class.
* `Program.ofTokens`: what the tokens of a file compile to.
* `compile`: what a file compiles to.
* `ofTokens_eq_ok_iff`, `ofTokens_eq_error_iff`: a class compiles exactly if it is read.
-/

namespace JackToolchain.Jack

open Vm Files

/-- The instructions of a class. -/
structure Program where
  className : String
  instructions : List Instruction
deriving DecidableEq, Repr

/-- The program of a class. -/
def ClassDecl.program (c : ClassDecl) : Program :=
  ⟨c.name, c.code⟩

/-- The program that tokens compile to, with the headers that were read on the way. -/
def Program.ofTokens (tokens : List Lexeme) : Progress Program :=
  let progress := readClass tokens
  ⟨progress.headers, progress.outcome.map ClassDecl.program⟩

theorem ofTokens_eq_ok_iff {tokens : List Lexeme} {p : Program} :
    (Program.ofTokens tokens).outcome = .ok p ↔
      ∃ c, (readClass tokens).outcome = .ok c ∧ p = ⟨c.name, c.code⟩ := by
  rw [Program.ofTokens]
  cases (readClass tokens).outcome <;> simp [Except.map, ClassDecl.program, eq_comm]

theorem ofTokens_eq_error_iff {tokens : List Lexeme} {fault : Fault} :
    (Program.ofTokens tokens).outcome = .error fault ↔
      (readClass tokens).outcome = .error fault := by
  rw [Program.ofTokens]
  cases (readClass tokens).outcome <;> simp [Except.map]

/-- The program that a file compiles to. -/
def compile (source : Source) : Except Fault Program :=
  (Program.ofTokens (lex source.content)).outcome

end JackToolchain.Jack
