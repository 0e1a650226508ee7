import JackToolchain.Vm.Instruction
import Mathlib.Algebra.Group.Nat.Defs
import Mathlib.Logic.Function.Basic

/-!
# The stack machine

The stack machine computes with words of 16 bits, as the processor does that it runs on, and
an address is a word. The machine works on a stack of words, the variables of the running
subroutine, and the memory that all subroutines share. What its operators and its calls
compute is a parameter: a call takes its arguments off the stack and leaves one result, and
it may change the shared memory.

* `Word`, `Ram`: words, and a memory with a word at each address.
* `Memory`, `Frame`, `State`: what the machine works on.
* `Meaning`: what its operators and its calls compute.
* `effect`, `exec`: what an instruction does, and what instructions without jumps do.
-/

namespace JackToolchain

/-- A word, which is also an address. -/
abbrev Word := BitVec 16

/-- A memory with a word at each address. -/
abbrev Ram := Word → Word

namespace Word

/-- A word that is the sum of an address and a number lies that far behind it. -/
theorem toNat_add_ofNat {s : Word} {i : Nat} (h : s.toNat + i < 2 ^ 16) :
    (s + BitVec.ofNat 16 i).toNat = s.toNat + i := by
  rw [BitVec.toNat_add, BitVec.toNat_ofNat, Nat.add_mod_mod, Nat.mod_eq_of_lt h]

/-- A word that is the difference of an address and a number lies that far before it. -/
theorem toNat_sub_ofNat {s : Word} {i : Nat} (h : i ≤ s.toNat) :
    (s - BitVec.ofNat 16 i).toNat = s.toNat - i := by
  have hs := s.isLt
  rw [BitVec.toNat_sub, BitVec.toNat_ofNat]
  omega

theorem add_one_add (s : Word) (i : Nat) :
    s + 1 + BitVec.ofNat 16 i = s + BitVec.ofNat 16 (i + 1) := by
  rw [BitVec.add_assoc, Nat.add_comm, BitVec.ofNat_add]; rfl

end Word

namespace Vm

/-- What the operators compute. The first word is the lower one on the stack. -/
structure Arithmetic where
  neg : Word → Word
  not : Word → Word
  add : Word → Word → Word
  sub : Word → Word → Word
  and : Word → Word → Word
  or : Word → Word → Word
  eq : Word → Word → Word
  gt : Word → Word → Word
  lt : Word → Word → Word

namespace Arithmetic

/-- The function of an operator that takes one word. -/
def unary? (a : Arithmetic) : Operator → Option (Word → Word)
  | .neg => some a.neg
  | .not => some a.not
  | .add | .sub | .and | .or | .eq | .gt | .lt => none

/-- The function of an operator that takes two words. -/
def binary? (a : Arithmetic) : Operator → Option (Word → Word → Word)
  | .add => some a.add
  | .sub => some a.sub
  | .and => some a.and
  | .or => some a.or
  | .eq => some a.eq
  | .gt => some a.gt
  | .lt => some a.lt
  | .neg | .not => none

/-- The stack after an operator. -/
def operate (a : Arithmetic) (operator : Operator) : List Word → Option (List Word)
  | y :: x :: stack =>
    match a.unary? operator with
    | some f => some (f y :: x :: stack)
    | none => (a.binary? operator).map fun f => f x y :: stack
  | [x] => (a.unary? operator).map fun f => [f x]
  | [] => none

/-- A truth value as a word. -/
def truth (b : Bool) : Word :=
  if b then -1 else 0

/-- The arithmetic of signed words, modulo 2^16. -/
def words : Arithmetic where
  neg x := -x
  not x := ~~~x
  add x y := x + y
  sub x y := x - y
  and x y := x &&& y
  or x y := x ||| y
  eq x y := truth (x = y)
  gt x y := truth (y.slt x)
  lt x y := truth (x.slt y)

end Arithmetic

/-- The memory that all subroutines share. -/
structure Memory where
  statics : Nat → Word
  heap : Ram

/-- What belongs to a running subroutine: its variables and its object. -/
structure Frame where
  locals : Nat → Word
  arguments : Nat → Word
  this : Word

/-- What a subroutine sees. -/
structure Store extends Memory, Frame

/-- The machine. -/
structure State where
  /-- The operands, the top of the stack first. -/
  stack : List Word
  store : Store
  that : Word
  temps : Nat → Word

/-- What the operators and the calls of a program compute. A call makes a result and a new
memory of the name of its subroutine, the arguments and the memory. -/
structure Meaning extends Arithmetic where
  call : String → List Word → Memory → Word × Memory

/-- The operators of signed words, with any calls. -/
def Meaning.words (call : String → List Word → Memory → Word × Memory) : Meaning where
  toArithmetic := .words
  call := call

namespace State

/-- The value at an index of a segment. -/
def read? (s : State) : Segment → Nat → Option Word
  | .constant, i => some (BitVec.ofNat 16 i)
  | .argument, i => some (s.store.arguments i)
  | .local, i => some (s.store.locals i)
  | .static, i => some (s.store.statics i)
  | .this, i => some (s.store.heap (s.store.this + BitVec.ofNat 16 i))
  | .that, i => some (s.store.heap (s.that + BitVec.ofNat 16 i))
  | .pointer, 0 => some s.store.this
  | .pointer, 1 => some s.that
  | .pointer, _ => none
  | .temp, i => if i < 8 then some (s.temps i) else none

/-- The machine after a value is written to an index of a segment. -/
def write? (s : State) (v : Word) : Segment → Nat → Option State
  | .constant, _ => none
  | .argument, i => some { s with store.arguments := Function.update s.store.arguments i v }
  | .local, i => some { s with store.locals := Function.update s.store.locals i v }
  | .static, i => some { s with store.statics := Function.update s.store.statics i v }
  | .this, i => some { s with
      store.heap := Function.update s.store.heap (s.store.this + BitVec.ofNat 16 i) v }
  | .that, i => some { s with
      store.heap := Function.update s.store.heap (s.that + BitVec.ofNat 16 i) v }
  | .pointer, 0 => some { s with store.this := v }
  | .pointer, 1 => some { s with that := v }
  | .pointer, _ => none
  | .temp, i => if i < 8 then some { s with temps := Function.update s.temps i v } else none

end State

variable (μ : Meaning)

/-- The effect of an instruction behind which the next one follows. There is none if the
stack has too few operands. -/
def effect (s : State) : Instruction → Option State
  | .push segment index => (s.read? segment index).map fun v => { s with stack := v :: s.stack }
  | .pop segment index =>
    match s.stack with
    | v :: stack => { s with stack }.write? v segment index
    | [] => none
  | .operate operator => (μ.operate operator s.stack).map fun stack => { s with stack }
  | .call name arguments =>
    if arguments ≤ s.stack.length then
      let (v, memory) := μ.call name (s.stack.take arguments).reverse s.store.toMemory
      some { s with stack := v :: s.stack.drop arguments, store.toMemory := memory }
    else none
  | .label _ | .goto _ | .ifGoto _ | .function _ _ | .return => none

/-- The effect of instructions without jumps. -/
def exec : List Instruction → State → Option State
  | [], s => some s
  | i :: code, s => (effect μ s i).bind (exec code)

theorem exec_append (code more : List Instruction) (s : State) :
    exec μ (code ++ more) s = (exec μ code s).bind (exec μ more) := by
  induction code generalizing s with
  | nil => rfl
  | cons i code ih =>
    rw [List.cons_append, exec, exec, Option.bind_assoc]
    exact congrArg _ (funext fun t => ih t)

end Vm

end JackToolchain
