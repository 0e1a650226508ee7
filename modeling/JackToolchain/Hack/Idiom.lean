import JackToolchain.Hack.Assembly

/-!
# Idioms of the stack

The stack grows upwards, and the cell `SP` holds the address of its first free cell.
These are the short sequences that all lowering is made of.
-/

namespace JackToolchain.Hack

/-- Loads an address by its name. -/
def addressOf (name : String) : Line :=
  .address (.symbol name)

/-- Moves a number to `D`. -/
def loadConstant (n : Nat) : List Line :=
  [.address (.literal n), .assign .d .a]

/-- Moves a cell to `D`. -/
def loadCell (cell : Operand) : List Line :=
  [.address cell, .assign .d .m]

/-- Moves `D` to a cell. -/
def storeCell (cell : Operand) : List Line :=
  [.address cell, .assign .m .d]

/-- Puts `D` on the stack. -/
def pushD : List Line :=
  [addressOf "SP", .assign .a .m, .assign .m .d, addressOf "SP", .assign .m .incM]

/-- Takes the top of the stack to `D`. -/
def popD : List Line :=
  [addressOf "SP", .assign .m .decM, .assign .a .m, .assign .d .m]

/-- Goes on at a label. -/
def goto (label : String) : List Line :=
  [addressOf label, .jump .zero .always]

/-- Takes the top of the stack and goes on at a label unless it is zero. -/
def ifGoto (label : String) : List Line :=
  popD ++ [addressOf label, .jump .d .notEqual]

/-- Replaces the top of the stack by a value computed from it as `M`. -/
def replaceTop (value : Comp) : List Line :=
  [addressOf "SP", .assign .a .decM, .assign .m value]

/-- Takes `y` from the top of the stack and replaces the `x` below it by a value computed
from them as `D` and `M`. -/
def combineTop (value : Comp) : List Line :=
  [addressOf "SP", .assign .am .decM, .assign .d .m, .assign .a .decA, .assign .m value]

/-- Replaces the two values on top of the stack by -1 if their difference meets a
condition, and by 0 if not. The stem and the number make its labels unique. -/
def compareTop (stem : String) (number : Nat) (condition : Condition) : List Line :=
  let label (branch : String) :=
    "__" ++ condition.text ++ "_" ++ branch ++ "_" ++ stem ++ "_" ++ toString number
  combineTop .mMinusD ++
    [.assign .d .m, addressOf (label "TRUE"), .jump .d condition] ++
    replaceTop .zero ++ goto (label "END") ++
    [.label (label "TRUE")] ++ replaceTop .minusOne ++ [.label (label "END")]

end JackToolchain.Hack
