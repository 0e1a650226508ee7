import JackToolchain.Hack.Idiom
import JackToolchain.Vm.Instruction

/-!
# Lowering stack machine instructions

An instruction becomes assembly lines that depend on where it stands: labels are
qualified by the function around it, static variables by the stem of its file, and
generated labels are numbered.

* `Context`: where an instruction stands.
* `lower`: the lines of an instruction, or why it has none.
* `Context.after`: where the next instruction stands.
-/

namespace JackToolchain.Hack

open Vm

/-- The greatest number that an address instruction can load. -/
def maxLiteral : Nat := 32767

/-- The number of cells that a call saves below the local variables. -/
def frameSize : Nat := 5

/-- The first cell of the segment `temp`, and the number of its cells. -/
def tempBase : Nat := 5

@[inherit_doc tempBase]
def tempSize : Nat := 8

/-- Where an instruction stands: the stem of its file, the function that it is in, and
how many comparisons and calls were lowered before it. -/
structure Context where
  stem : String
  function? : Option String := none
  comparisons : Nat := 0
  calls : Nat := 0
deriving DecidableEq, Repr

namespace Context

/-- What qualifies labels: the function around them, or the file outside functions. -/
def scope (c : Context) : String :=
  c.function?.getD c.stem

/-- A label as the whole program knows it. -/
def qualify (c : Context) (label : String) : String :=
  c.scope ++ "$" ++ label

/-- The label behind the next call. -/
def returnLabel (c : Context) : String :=
  c.qualify ("ret." ++ toString c.calls)

/-- The cell of a static variable. -/
def staticCell (c : Context) (index : Nat) : Operand :=
  .symbol (c.stem ++ "." ++ toString index)

end Context

/-- Why an instruction has no lines. -/
inductive Cause where
  | pointerIndex (index : Nat)
  | tempIndex (index : Nat)
  | popConstant
  | constantOutOfRange (value : Nat)
deriving DecidableEq, Repr

/-- What is wrong, in words. -/
def Cause.text : Cause → String
  | .pointerIndex index => "Pointer index must be 0 or 1. Found: " ++ toString index
  | .tempIndex index => "Temp index must be between 0 and 7. Found: " ++ toString index
  | .popConstant => "Cannot pop into the constant segment"
  | .constantOutOfRange value => "Constant must be at most 32767. Found: " ++ toString value

/-- Where a segment lies: its values are its indices, its base address is in a register,
or each of its cells has a fixed address. -/
inductive Place where
  | immediate
  | based (register : String)
  | fixed (cell : Operand)
deriving DecidableEq, Repr

/-- The place of a segment's index. -/
def place (c : Context) (segment : Segment) (index : Nat) : Except Cause Place :=
  match segment with
  | .constant => .ok .immediate
  | .local => .ok (.based "LCL")
  | .argument => .ok (.based "ARG")
  | .this => .ok (.based "THIS")
  | .that => .ok (.based "THAT")
  | .pointer =>
    match index with
    | 0 => .ok (.fixed (.symbol "THIS"))
    | 1 => .ok (.fixed (.symbol "THAT"))
    | n => .error (.pointerIndex n)
  | .temp =>
    if index < tempSize then .ok (.fixed (.literal (tempBase + index)))
    else .error (.tempIndex index)
  | .static => .ok (.fixed (c.staticCell index))

/-- Puts the value at a segment's index on the stack. -/
def lowerPush (c : Context) (segment : Segment) (index : Nat) : Except Cause (List Line) := do
  match ← place c segment index with
  | .immediate =>
    if index ≤ maxLiteral then return loadConstant index ++ pushD
    else throw (.constantOutOfRange index)
  | .based register =>
    return loadCell (.symbol register) ++
      [.address (.literal index), .assign .a .dPlusA, .assign .d .m] ++ pushD
  | .fixed cell => return loadCell cell ++ pushD

/-- Moves the top of the stack to a segment's index. The address of a based cell waits in
`R13` while the stack is read. -/
def lowerPop (c : Context) (segment : Segment) (index : Nat) : Except Cause (List Line) := do
  match ← place c segment index with
  | .immediate => throw .popConstant
  | .based register =>
    return loadCell (.symbol register) ++ [.address (.literal index), .assign .d .dPlusA] ++
      storeCell (.symbol "R13") ++ popD ++ [addressOf "R13", .assign .a .m, .assign .m .d]
  | .fixed cell => return popD ++ storeCell cell

/-- Applies an operator to the top of the stack. -/
def lowerOperator (c : Context) : Operator → List Line
  | .add => combineTop .dPlusM
  | .sub => combineTop .mMinusD
  | .and => combineTop .dAndM
  | .or => combineTop .dOrM
  | .neg => replaceTop .negM
  | .not => replaceTop .notM
  | .eq => compareTop c.stem c.comparisons .equal
  | .gt => compareTop c.stem c.comparisons .greater
  | .lt => compareTop c.stem c.comparisons .less

/-- Starts a function with its local variables at zero. -/
def lowerFunction (name : String) (locals : Nat) : List Line :=
  .label name :: (List.replicate locals (.assign .d .zero :: pushD)).flatten

/-- Saves the caller's frame, gives the callee its arguments and goes to it. -/
def lowerCall (c : Context) (name : String) (arguments : Nat) : List Line :=
  [addressOf c.returnLabel, .assign .d .a] ++ pushD ++
    ["LCL", "ARG", "THIS", "THAT"].flatMap (fun r => loadCell (.symbol r) ++ pushD) ++
    loadCell (.symbol "SP") ++ [.address (.literal (frameSize + arguments)), .assign .d .dMinusA] ++
    storeCell (.symbol "ARG") ++ loadCell (.symbol "SP") ++ storeCell (.symbol "LCL") ++
    goto name ++ [.label c.returnLabel]

/-- Moves the cell at a distance below the frame to a register. -/
def restore (distance : Nat) (register : String) : List Line :=
  loadCell (.symbol "R13") ++
    [.address (.literal distance), .assign .a .dMinusA, .assign .d .m] ++
    storeCell (.symbol register)

/-- Gives the caller the result and its frame. The return address is read first, since
the result of a call without arguments is stored over it. -/
def lowerReturn : List Line :=
  loadCell (.symbol "LCL") ++ storeCell (.symbol "R13") ++
    [.address (.literal frameSize), .assign .a .dMinusA, .assign .d .m] ++
    storeCell (.symbol "R14") ++
    popD ++ [addressOf "ARG", .assign .a .m, .assign .m .d] ++
    [addressOf "ARG", .assign .d .incM] ++ storeCell (.symbol "SP") ++
    restore 1 "THAT" ++ restore 2 "THIS" ++ restore 3 "ARG" ++ restore 4 "LCL" ++
    [addressOf "R14", .assign .a .m, .jump .zero .always]

/-- The lines of an instruction. -/
def lower (c : Context) : Instruction → Except Cause (List Line)
  | .push segment index => lowerPush c segment index
  | .pop segment index => lowerPop c segment index
  | .operate operator => .ok (lowerOperator c operator)
  | .label name => .ok [.label (c.qualify name)]
  | .goto name => .ok (goto (c.qualify name))
  | .ifGoto name => .ok (ifGoto (c.qualify name))
  | .function name locals => .ok (lowerFunction name locals)
  | .call name arguments => .ok (lowerCall c name arguments)
  | .return => .ok lowerReturn

/-- Where the instruction behind a given one stands. -/
def Context.after (c : Context) : Instruction → Context
  | .operate .eq | .operate .gt | .operate .lt => { c with comparisons := c.comparisons + 1 }
  | .function name _ => { c with function? := some name }
  | .call _ _ => { c with calls := c.calls + 1 }
  | _ => c

end JackToolchain.Hack
