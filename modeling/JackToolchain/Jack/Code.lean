import JackToolchain.Jack.Tree
import JackToolchain.Vm.Instruction

/-!
# Code for the stack machine

Each part of a tree has its instructions. An expression leaves its value on the stack,
and a statement leaves the stack as it was. Labels are numbered within a subroutine in
the order in which its conditionals and loops start.

* `argumentCount`: how many arguments a call counts.
* `Expression.code`: the instructions of an expression.
* `Statement.code`: the instructions of a statement.
* `ClassDecl.code`: the instructions of a class, which are those of its subroutines.
-/

namespace JackToolchain.Jack

open Vm

/-- The instruction that puts a variable on the stack. -/
def Variable.push (v : Variable) : Instruction :=
  .push v.kind.segment v.index.toNat

/-- The instruction that moves the top of the stack to a variable. -/
def Variable.pop (v : Variable) : Instruction :=
  .pop v.kind.segment v.index.toNat

/-- The instruction that combines the two values on top of the stack. -/
def BinaryOperator.instruction : BinaryOperator → Instruction
  | .add => .operate .add
  | .subtract => .operate .sub
  | .multiply => .call "Math.multiply" 2
  | .divide => .call "Math.divide" 2
  | .and => .operate .and
  | .or => .operate .or
  | .less => .operate .lt
  | .greater => .operate .gt
  | .equal => .operate .eq

namespace Target

/-- The receiver that stands before the arguments of a call, if it has one. -/
def receiver : Target → List Instruction
  | .self => [.push .pointer 0]
  | .object v => [v.push]
  | .type _ => []

/-- How many receivers a call counts. -/
def receiverCount : Target → UInt16
  | .self | .object _ => 1
  | .type _ => 0

/-- The name of the class that a call goes to. -/
def typeName (className : String) : Target → String
  | .self => className
  | .object v => v.type
  | .type name => name

end Target

/-- How many arguments a call counts, one after the other and in 16 bits. -/
def argumentCount (arguments : List Expression) : UInt16 :=
  arguments.foldl (fun count _ => count + 1) 0

/-- The instructions that build a string, character by character. -/
def stringCode (value : String) : List Instruction :=
  [.push .constant value.length, .call "String.new" 1] ++
    value.toList.flatMap fun c => [.push .constant c.toNat, .call "String.appendChar" 2]

mutual

/-- The instructions of an expression in a class. They leave its value on the stack. -/
def Expression.code (className : String) : Expression → List Instruction
  | .integer value => [.push .constant value]
  | .string value => stringCode value
  | .true => [.push .constant 0, .operate .not]
  | .false => [.push .constant 0]
  | .null => [.push .constant 0]
  | .this => [.push .pointer 0]
  | .variable v => [v.push]
  | .element array index =>
    index.code className ++
      [array.push, .operate .add, .pop .pointer 1, .push .that 0]
  | .negate operand => operand.code className ++ [.operate .neg]
  | .invert operand => operand.code className ++ [.operate .not]
  | .binary left operator right =>
    left.code className ++ right.code className ++ [operator.instruction]
  | .call target name arguments =>
    target.receiver ++ argumentsCode className arguments ++
      [.call (qualifiedName (target.typeName className) name)
        (argumentCount arguments + target.receiverCount).toNat]

/-- The instructions of arguments. They leave the values on the stack, the last on top. -/
def argumentsCode (className : String) : List Expression → List Instruction
  | [] => []
  | e :: es => e.code className ++ argumentsCode className es

end

/-- The instructions of a call. -/
def callCode (className : String) (target : Target) (name : String)
    (arguments : List Expression) : List Instruction :=
  (Expression.call target name arguments).code className

/-- How many conditionals and loops of a subroutine have started. -/
structure Labels where
  conditionals : Nat := 0
  loops : Nat := 0
deriving DecidableEq, Repr

mutual

/-- The instructions of a statement, which leave the stack as it was, and the labels in
use behind it. -/
def Statement.code (className : String) (labels : Labels) :
    Statement → List Instruction × Labels
  | .assign target value => (value.code className ++ [target.pop], labels)
  | .assignElement array index value =>
    -- The value may itself use `that`, so the address is bound last.
    (index.code className ++ [array.push, .operate .add] ++ value.code className ++
      [.pop .temp 0, .pop .pointer 1, .push .temp 0, .pop .that 0], labels)
  | .ifThen condition body =>
    let n := toString labels.conditionals
    let (body, labels) :=
      statementsCode className { labels with conditionals := labels.conditionals + 1 } body
    (condition.code className ++
      [.ifGoto ("IF_TRUE" ++ n), .goto ("IF_FALSE" ++ n), .label ("IF_TRUE" ++ n)] ++ body ++
      [.label ("IF_FALSE" ++ n)], labels)
  | .ifElse condition body alternative =>
    let n := toString labels.conditionals
    let (body, labels) :=
      statementsCode className { labels with conditionals := labels.conditionals + 1 } body
    let (alternative, labels) := statementsCode className labels alternative
    (condition.code className ++
      [.ifGoto ("IF_TRUE" ++ n), .goto ("IF_FALSE" ++ n), .label ("IF_TRUE" ++ n)] ++ body ++
      [.goto ("IF_END" ++ n), .label ("IF_FALSE" ++ n)] ++ alternative ++
      [.label ("IF_END" ++ n)], labels)
  | .while condition body =>
    let n := toString labels.loops
    let (body, labels) :=
      statementsCode className { labels with loops := labels.loops + 1 } body
    ([.label ("WHILE_EXP" ++ n)] ++ condition.code className ++
      [.operate .not, .ifGoto ("WHILE_END" ++ n)] ++ body ++
      [.goto ("WHILE_EXP" ++ n), .label ("WHILE_END" ++ n)], labels)
  | .call target name arguments =>
    (callCode className target name arguments ++ [.pop .temp 0], labels)
  | .return none => ([.push .constant 0, .return], labels)
  | .return (some value) => (value.code className ++ [.return], labels)

/-- The instructions of statements in their order. -/
def statementsCode (className : String) (labels : Labels) :
    List Statement → List Instruction × Labels
  | [] => ([], labels)
  | s :: ss =>
    let (first, labels) := s.code className labels
    let (others, labels) := statementsCode className labels ss
    (first ++ others, labels)

end

/-- The instructions that set the current object: a new one with room for the fields, or
the one that a method is called on. -/
def Header.prologue (h : Header) : List Instruction :=
  match h.kind with
  | .constructor =>
    [.push .constant (h.scope.count .field).toNat, .call "Memory.alloc" 1, .pop .pointer 0]
  | .method => [.push .argument 0, .pop .pointer 0]
  | .function => []

/-- The return that ends a subroutine whose last statement is none. -/
def Subroutine.epilogue (s : Subroutine) : List Instruction :=
  if (s.body.getLast?.map Statement.isReturn).getD false then []
  else [.push .constant 0, .return]

/-- The instructions of a subroutine. -/
def Subroutine.code (s : Subroutine) : List Instruction :=
  [.function s.qualifiedName (s.scope.count .local).toNat] ++ s.prologue ++
    (statementsCode s.className {} s.body).1 ++ s.epilogue

/-- The instructions of a class. -/
def ClassDecl.code (c : ClassDecl) : List Instruction :=
  c.subroutines.flatMap Subroutine.code

end JackToolchain.Jack
