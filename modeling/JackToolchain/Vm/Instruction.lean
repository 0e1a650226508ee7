/-!
# Stack machine instructions

* `Segment`, `Operator`, `Instruction`: the instruction set.
* `Instruction.text`: the line that writes an instruction.
* `Segment.ofText?`, `Operator.ofText?`: the names in lines, with `ofText?_eq_some_iff`
  saying that they are the ones `text` writes.
-/

namespace JackToolchain.Vm

/-- The greatest number in an instruction. -/
def maxNumber : Nat := 65535

/-- A part of memory that instructions address by an index. -/
inductive Segment where
  | constant | argument | «local» | static | this | that | pointer | temp
deriving DecidableEq, Repr

namespace Segment

/-- The name of a segment. -/
def text : Segment → String
  | .constant => "constant"
  | .argument => "argument"
  | .local => "local"
  | .static => "static"
  | .this => "this"
  | .that => "that"
  | .pointer => "pointer"
  | .temp => "temp"

/-- Every segment. -/
def all : List Segment :=
  [.constant, .argument, .local, .static, .this, .that, .pointer, .temp]

/-- The segment with the given name. -/
def ofText? (name : String) : Option Segment :=
  all.find? (·.text = name)

theorem mem_all (s : Segment) : s ∈ all := by
  cases s <;> decide

theorem text_injective {s t : Segment} (h : s.text = t.text) : s = t := by
  have : ∀ s ∈ all, ∀ t ∈ all, s.text = t.text → s = t := by decide
  exact this s (mem_all s) t (mem_all t) h

theorem ofText?_eq_some_iff {name : String} {s : Segment} :
    ofText? name = some s ↔ s.text = name := by
  constructor
  · intro h
    simpa using List.find?_some h
  · rintro rfl
    cases h : ofText? s.text with
    | none => exact absurd (List.find?_eq_none.1 h s (mem_all s)) (by simp)
    | some t =>
      have ht : t.text = s.text := by simpa using List.find?_some h
      rw [text_injective ht]

end Segment

/-- An operation on the top of the stack. -/
inductive Operator where
  | add | sub | neg | eq | gt | lt | and | or | not
deriving DecidableEq, Repr

namespace Operator

/-- The name of an operator. -/
def text : Operator → String
  | .add => "add"
  | .sub => "sub"
  | .neg => "neg"
  | .eq => "eq"
  | .gt => "gt"
  | .lt => "lt"
  | .and => "and"
  | .or => "or"
  | .not => "not"

/-- Every operator. -/
def all : List Operator :=
  [.add, .sub, .neg, .eq, .gt, .lt, .and, .or, .not]

/-- The operator with the given name. -/
def ofText? (name : String) : Option Operator :=
  all.find? (·.text = name)

theorem mem_all (o : Operator) : o ∈ all := by
  cases o <;> decide

theorem text_injective {o p : Operator} (h : o.text = p.text) : o = p := by
  have : ∀ o ∈ all, ∀ p ∈ all, o.text = p.text → o = p := by decide
  exact this o (mem_all o) p (mem_all p) h

theorem ofText?_eq_some_iff {name : String} {o : Operator} :
    ofText? name = some o ↔ o.text = name := by
  constructor
  · intro h
    simpa using List.find?_some h
  · rintro rfl
    cases h : ofText? o.text with
    | none => exact absurd (List.find?_eq_none.1 h o (mem_all o)) (by simp)
    | some p =>
      have hp : p.text = o.text := by simpa using List.find?_some h
      rw [text_injective hp]

end Operator

/-- An instruction of the stack machine. -/
inductive Instruction where
  | push (segment : Segment) (index : Nat)
  | pop (segment : Segment) (index : Nat)
  | operate (operator : Operator)
  | label (name : String)
  | goto (name : String)
  | ifGoto (name : String)
  | function (name : String) (locals : Nat)
  | call (name : String) (arguments : Nat)
  | «return»
deriving DecidableEq, Repr

namespace Instruction

/-- The name that an instruction carries: its segment, operator, label or function. -/
def subject? : Instruction → Option String
  | .push segment _ | .pop segment _ => some segment.text
  | .operate operator => some operator.text
  | .label name | .goto name | .ifGoto name | .function name _ | .call name _ => some name
  | .return => none

/-- The number that an instruction carries: its index or its count. -/
def number? : Instruction → Option Nat
  | .push _ n | .pop _ n | .function _ n | .call _ n => some n
  | _ => none

/-- Whether the line format can write an instruction's number. -/
def IsEncodable (i : Instruction) : Prop :=
  ∀ n, i.number? = some n → n ≤ maxNumber

/-- The line that writes an instruction. -/
def text : Instruction → String
  | .push segment index => "push " ++ segment.text ++ " " ++ toString index
  | .pop segment index => "pop " ++ segment.text ++ " " ++ toString index
  | .operate operator => operator.text
  | .label name => "label " ++ name
  | .goto name => "goto " ++ name
  | .ifGoto name => "if-goto " ++ name
  | .function name locals => "function " ++ name ++ " " ++ toString locals
  | .call name arguments => "call " ++ name ++ " " ++ toString arguments
  | .return => "return"

end Instruction

/-- The text of a program, one line for each instruction. -/
def listing (program : List Instruction) : String :=
  String.join (program.map fun i => i.text ++ "\n")

end JackToolchain.Vm
