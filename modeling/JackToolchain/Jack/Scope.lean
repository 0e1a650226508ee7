import JackToolchain.Text.Basic
import JackToolchain.Vm.Instruction

/-!
# Declared variables

A scope holds the variables of a class and those of the subroutine being read. A name is
looked up in the subroutine first. The variables of a kind are numbered from 0 in the
order of their declarations, by a counter of 16 bits.

* `counted`: what a counter of 16 bits shows.
* `Scope.define`: declares a variable.
* `Scope.find?`: the variable that a name means.
* `Scope.count`: what the counter of a kind shows, which is the index of its next variable.
-/

namespace JackToolchain.Jack

open Vm

/-- What a counter of 16 bits shows when it has counted up to a number. Behind 65535 it goes on
with 0. -/
def counted (n : Nat) : Nat :=
  (UInt16.ofNat n).toNat

theorem toNat_le_maxNumber (n : UInt16) : n.toNat ≤ maxNumber :=
  Nat.le_of_lt_succ n.toNat_lt

/-- A counter that is not left behind shows the number. -/
theorem counted_eq_iff {n : Nat} : counted n = n ↔ n ≤ maxNumber := by
  rw [counted, UInt16.toNat_ofNat', Nat.mod_eq_iff_lt (by decide)]
  exact Nat.lt_succ_iff

theorem counted_self_le (n : Nat) : counted n ≤ n := by
  rw [counted, UInt16.toNat_ofNat']
  exact Nat.mod_le ..

/-- What a variable belongs to. -/
inductive Kind where
  | static | field | argument | «local»
deriving DecidableEq, Repr

namespace Kind

/-- The name of a kind. -/
def text : Kind → String
  | .static => "static"
  | .field => "field"
  | .argument => "argument"
  | .local => "local"

/-- The segment that holds the variables of a kind. -/
def segment : Kind → Segment
  | .static => .static
  | .field => .this
  | .argument => .argument
  | .local => .local

/-- Whether variables of a kind are declared by the class, and not by a subroutine. -/
def isClassLevel : Kind → Bool
  | .static | .field => true
  | .argument | .local => false

end Kind

/-- A declared variable. -/
structure Variable where
  name : String
  type : String
  kind : Kind
  index : UInt16
deriving DecidableEq, Repr

/-- The counters of a level: the first is for static variables or arguments, and the second
for fields or local variables. -/
structure Counters where
  first : UInt16 := 0
  second : UInt16 := 0
deriving DecidableEq, Repr

namespace Counters

/-- The counter of a kind on its level. -/
def get (c : Counters) : Kind → UInt16
  | .static | .argument => c.first
  | .field | .local => c.second

/-- Counts one more of a kind. -/
def bump (c : Counters) : Kind → Counters
  | .static | .argument => { c with first := c.first + 1 }
  | .field | .local => { c with second := c.second + 1 }

end Counters

/-- The variables in reach, each level in the order of its declarations and with its
counters. -/
structure Scope where
  classLevel : List Variable := []
  subroutineLevel : List Variable := []
  classCounters : Counters := {}
  subroutineCounters : Counters := {}
deriving DecidableEq, Repr

namespace Scope

/-- The level that variables of a kind are declared in. -/
def level (s : Scope) (kind : Kind) : List Variable :=
  if kind.isClassLevel then s.classLevel else s.subroutineLevel

/-- What the counter of a kind shows. -/
def count (s : Scope) (kind : Kind) : UInt16 :=
  (if kind.isClassLevel then s.classCounters else s.subroutineCounters).get kind

/-- The variable that a name means. -/
def find? (s : Scope) (name : String) : Option Variable :=
  (s.subroutineLevel.find? (·.name = name)).or (s.classLevel.find? (·.name = name))

/-- Declares a variable. A name is declared once on its level. -/
def define (s : Scope) (name type : String) (kind : Kind) : Option Scope :=
  if (s.level kind).any (·.name = name) then none
  else
    let entry := ⟨name, type, kind, s.count kind⟩
    if kind.isClassLevel then
      some { s with
        classLevel := s.classLevel ++ [entry]
        classCounters := s.classCounters.bump kind }
    else
      some { s with
        subroutineLevel := s.subroutineLevel ++ [entry]
        subroutineCounters := s.subroutineCounters.bump kind }

/-- The scope at the start of the next subroutine. -/
def leaveSubroutine (s : Scope) : Scope :=
  { s with subroutineLevel := [], subroutineCounters := {} }

end Scope

/-- The line of a table that shows a variable. -/
def Variable.row (v : Variable) : String :=
  "    " ++ Text.padRight 16 v.name ++ " " ++ Text.padRight 12 v.type ++ " " ++ v.kind.text ++
    " " ++ toString v.index.toNat ++ "\n"

/-- The scope as a table. -/
def Scope.table (s : Scope) : String :=
  "  class scope:\n" ++ String.join (s.classLevel.map Variable.row) ++
    "  subroutine scope:\n" ++ String.join (s.subroutineLevel.map Variable.row)

end JackToolchain.Jack
