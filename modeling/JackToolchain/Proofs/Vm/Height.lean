import JackToolchain.Proofs.Vm.Run

/-!
# The height of the operand stack

Every position of a block has one height of the operand stack, on whatever path the machine
gets there. In code that is made of statements the heights can be read off from the first
instruction to the last, since every jump and every label stands between two statements.

* `Instruction.takes`, `Instruction.after`: what an instruction does to the height.
* `Balanced`: heights that agree with the instructions and the jumps of a block.
* `Balanced.stack_length`: on every run the stack has the height of the position.
* `IsBlock.enough_operands`: **a block keeps to its own operands**.
* `climb`: the height behind code, read off from its first instruction to its last.
* `length_of_exec`, `Balanced.height_behind`: runs and heights of code without jumps agree with it.
* `balanced_of_climb`: what is read off is balanced.
-/

namespace JackToolchain.Vm

/-- The number of values that an operator takes off the stack. -/
def Operator.arity : Operator → Nat
  | .neg | .not => 1
  | .add | .sub | .eq | .gt | .lt | .and | .or => 2

namespace Instruction

/-- The number of values that an instruction takes off the stack. -/
def takes : Instruction → Nat
  | .push _ _ | .label _ | .goto _ | .function _ _ => 0
  | .pop _ _ | .ifGoto _ | .return => 1
  | .operate operator => operator.arity
  | .call _ arguments => arguments

/-- The number of values that an instruction puts on the stack. -/
def puts : Instruction → Nat
  | .push _ _ | .operate _ | .call _ _ => 1
  | .pop _ _ | .label _ | .goto _ | .ifGoto _ | .function _ _ | .return => 0

/-- The height that an instruction makes of the height before it. -/
def after (i : Instruction) (height : Nat) : Nat :=
  height - i.takes + i.puts

/-- Whether the machine can get from an instruction to the one behind it. -/
def goesOn : Instruction → Bool
  | .goto _ | .return => false
  | _ => true

/-- The label that an instruction jumps to. -/
@[simp] def jumpName? : Instruction → Option String
  | .goto name | .ifGoto name => some name
  | _ => none

/-- Whether an instruction starts a subroutine. -/
def isFunction : Instruction → Bool
  | .function _ _ => true
  | _ => false

end Instruction

/-- The labels that code jumps to. -/
def jumpNames (code : List Instruction) : List String :=
  code.filterMap Instruction.jumpName?

@[simp] theorem jumpNames_nil : jumpNames [] = [] := rfl

@[simp] theorem jumpNames_cons (i : Instruction) (code : List Instruction) :
    jumpNames (i :: code) = i.jumpName?.toList ++ jumpNames code := by
  cases i <;> rfl

@[simp] theorem jumpNames_append (code more : List Instruction) :
    jumpNames (code ++ more) = jumpNames code ++ jumpNames more :=
  List.filterMap_append

theorem jumpNames_of_straight {code : List Instruction} (h : code.all Instruction.isStraight) :
    jumpNames code = [] := by
  rw [jumpNames, List.filterMap_eq_nil_iff]
  intro i hi
  have hs := List.all_eq_true.1 h i hi
  cases i <;> first | rfl | cases hs

theorem isFunction_of_straight {code : List Instruction} (h : code.all Instruction.isStraight) :
    ∀ i ∈ code, i.isFunction = false := by
  intro i hi
  have hs := List.all_eq_true.1 h i hi
  cases i <;> first | rfl | cases hs

/-- Heights of the positions of a block, which starts at its header. Behind the header there
are no operands, at a `return` there is the result alone, and every way from one position to
another changes the height as the instruction does. -/
structure Balanced (block : List Instruction) (height : Nat → Nat) : Prop where
  start : height 1 = 0
  enough : ∀ (pc : Nat) (i : Instruction), block[pc]? = some i → i.takes ≤ height pc
  next : ∀ (pc : Nat) (i : Instruction), block[pc]? = some i → i.goesOn →
    height (pc + 1) = i.after (height pc)
  defined : jumpNames block ⊆ labelNames block
  jump : ∀ (pc : Nat) (i : Instruction) (name : String) (target : Nat), block[pc]? = some i →
    i.jumpName? = some name → block[target]? = some (.label name) →
    height target = i.after (height pc)
  result : ∀ pc : Nat, block[pc]? = some .return → height pc = 1

/-- A block is one subroutine: it starts with its only header and ends with `return`, and its
positions have heights. -/
structure IsBlock (block : List Instruction) : Prop where
  header : ∃ name locals body, block = .function name locals :: body ∧
    ∀ i ∈ body, i.isFunction = false
  last : block.getLast? = some .return
  heights : ∃ height, Balanced block height

/-! ## Runs -/

section runs

variable {μ : Meaning} {block : List Instruction} {height : Nat → Nat} {c d : Config}

theorem Arithmetic.length_operate {a : Arithmetic} {operator : Operator} {stack stack' : List Word}
    (h : a.operate operator stack = some stack') :
    operator.arity ≤ stack.length ∧ stack'.length = stack.length - operator.arity + 1 := by
  match stack with
  | [] => cases h
  | [x] => cases operator <;> cases h <;> exact ⟨Nat.le_refl _, rfl⟩
  | y :: x :: stack =>
    cases operator <;> cases h <;> simp [Operator.arity]

theorem State.stack_write? {s t : State} {v : Word} {segment : Segment} {index : Nat}
    (h : s.write? v segment index = some t) : t.stack = s.stack := by
  unfold State.write? at h
  split at h
  case h_10 =>
    obtain ⟨-, h⟩ := Option.ite_none_right_eq_some.1 h
    cases h
    rfl
  all_goals cases h <;> rfl

/-- An instruction without a jump changes the stack as it changes the height. -/
theorem length_effect {s t : State} {i : Instruction} (h : effect μ s i = some t) :
    i.takes ≤ s.stack.length ∧ t.stack.length = i.after s.stack.length := by
  cases i with
  | push segment index =>
    obtain ⟨v, -, rfl⟩ := Option.map_eq_some_iff.1 h
    exact ⟨Nat.zero_le _, rfl⟩
  | pop segment index =>
    simp only [effect] at h
    split at h
    · next v stack hs =>
      rw [State.stack_write? h, hs]
      exact ⟨Nat.succ_pos _, rfl⟩
    · cases h
  | operate operator =>
    obtain ⟨stack, hs, rfl⟩ := Option.map_eq_some_iff.1 h
    exact Arithmetic.length_operate hs
  | call name arguments =>
    obtain ⟨hle, h⟩ := Option.ite_none_right_eq_some.1 h
    cases h
    exact ⟨hle, by simp [Instruction.after, Instruction.takes, Instruction.puts]⟩
  | label | goto | ifGoto | function | «return» => cases h

/-- A step goes on behind an instruction or to the label of a jump, and it changes the stack as
the instruction changes the height. -/
theorem step_cases (h : step μ block c = some d) :
    ∃ i, block[c.pc]? = some i ∧ i.takes ≤ c.state.stack.length ∧
      d.state.stack.length = i.after c.state.stack.length ∧
      (i.goesOn ∧ d.pc = c.pc + 1 ∨
        ∃ name, i.jumpName? = some name ∧ block[d.pc]? = some (.label name)) := by
  have hjump {name : String} {target : Nat} (ht : block.idxOf? (.label name) = some target) :
      block[target]? = some (.label name) := by
    obtain ⟨hlt, heq, -⟩ := List.idxOf?_eq_some_iff.1 ht
    rw [List.getElem?_eq_getElem hlt, heq]
  unfold step at h
  -- a label, a jump, a jump with a condition, any other instruction, and no instruction at all
  split at h
  · next name hi =>
    cases h
    exact ⟨_, hi, Nat.zero_le _, rfl, .inl ⟨rfl, rfl⟩⟩
  · next name hi =>
    obtain ⟨target, ht, rfl⟩ := Option.map_eq_some_iff.1 h
    exact ⟨_, hi, Nat.zero_le _, rfl, .inr ⟨name, rfl, hjump ht⟩⟩
  · next name hi =>
    split at h
    · next v stack hs =>
      rw [hs]
      refine ⟨_, hi, Nat.succ_pos _, ?_⟩
      split at h
      · cases h
        exact ⟨rfl, .inl ⟨rfl, rfl⟩⟩
      · obtain ⟨target, ht, rfl⟩ := Option.map_eq_some_iff.1 h
        exact ⟨rfl, .inr ⟨name, rfl, hjump ht⟩⟩
    · cases h
  · next i hlabel hgoto hif hi =>
    obtain ⟨t, ht, rfl⟩ := Option.map_eq_some_iff.1 h
    obtain ⟨hle, hlen⟩ := length_effect ht
    refine ⟨i, hi, hle, hlen, .inl ⟨?_, rfl⟩⟩
    cases i <;> first | rfl | cases ht
  · cases h

/-- A step keeps the stack at the height of the position. -/
theorem Balanced.step (hb : Balanced block height) (h : step μ block c = some d)
    (hc : c.state.stack.length = height c.pc) : d.state.stack.length = height d.pc := by
  obtain ⟨i, hi, -, hlen, ⟨hgo, hpc⟩ | ⟨name, hname, htarget⟩⟩ := step_cases h
  · rw [hlen, hpc, hb.next _ _ hi hgo, hc]
  · rw [hlen, hb.jump _ _ _ _ hi hname htarget, hc]

/-- On every run the stack has the height of the position. -/
theorem Balanced.stack_length (hb : Balanced block height) (h : Reaches μ block c d)
    (hc : c.state.stack.length = height c.pc) : d.state.stack.length = height d.pc := by
  induction h with
  | refl => exact hc
  | tail _ hstep ih => exact hb.step hstep ih

/-- A run stays inside a block that ends with `return`. -/
theorem lt_length_of_reaches (hlast : block.getLast? = some .return) (h : Reaches μ block c d)
    (hc : c.pc < block.length) : d.pc < block.length := by
  induction h with
  | refl => exact hc
  | @tail d e _ hstep ih =>
    obtain ⟨i, hi, -, -, ⟨hgo, hpc⟩ | ⟨name, -, htarget⟩⟩ := step_cases hstep
    · -- what goes on is not the last instruction
      have hne : d.pc ≠ block.length - 1 := by
        intro heq
        rw [List.getLast?_eq_getElem?, ← heq, hi] at hlast
        cases hlast
        cases hgo
      omega
    · exact (List.getElem?_eq_some_iff.1 htarget).1

/-- **A block keeps to its own operands.** On every run of a block from behind its header, which
it starts without operands, the machine stands at one of its instructions, with as many operands
as the instruction takes, and at a `return` with exactly one. -/
theorem IsBlock.enough_operands (hb : IsBlock block) {s : State} (hs : s.stack = [])
    (h : Reaches μ block ⟨1, s⟩ d) :
    ∃ i, block[d.pc]? = some i ∧ i.takes ≤ d.state.stack.length ∧
      (i = .return → d.state.stack.length = 1) := by
  obtain ⟨height, hheight⟩ := hb.heights
  have hlen : d.state.stack.length = height d.pc :=
    hheight.stack_length h (by rw [hs, hheight.start]; rfl)
  -- the header alone is no block, since a block ends with `return`
  have hone : 1 < block.length := by
    obtain ⟨name, locals, body, rfl, -⟩ := hb.header
    cases body with
    | nil => cases hb.last
    | cons i body => simp
  have hlt : d.pc < block.length := lt_length_of_reaches hb.last h hone
  have hi := List.getElem?_eq_getElem hlt
  refine ⟨block[d.pc], hi, ?_, ?_⟩
  · rw [hlen]
    exact hheight.enough _ _ hi
  · intro hreturn
    rw [hlen]
    exact hheight.result _ (hi.trans (congrArg some hreturn))

end runs

/-! ## Heights that are read off -/

/-- Whether an instruction inside a subroutine can stand at a height. Labels and jumps stand
between statements, where nothing is below the condition of a jump, and a `return` takes the
only value there is. -/
def Instruction.fits (i : Instruction) (height : Nat) : Bool :=
  match i with
  | .label _ | .goto _ | .ifGoto _ | .return => height == i.takes
  | .function _ _ => false
  | .push _ _ | .pop _ _ | .operate _ | .call _ _ => i.takes ≤ height

/-- The height behind code, if every instruction fits where it stands. -/
def climb : List Instruction → Nat → Option Nat
  | [], height => some height
  | i :: code, height => if i.fits height then climb code (i.after height) else none

theorem climb_append (code more : List Instruction) (height : Nat) :
    climb (code ++ more) height = (climb code height).bind (climb more) := by
  induction code generalizing height with
  | nil => rfl
  | cons i code ih =>
    simp only [List.cons_append, climb]
    split
    · exact ih _
    · rfl

theorem climb_append_of_eq {code more : List Instruction} {n m : Nat} (h : climb code n = some m) :
    climb (code ++ more) n = climb more m := by
  rw [climb_append, h, Option.bind_some]

section climb

variable {block code more : List Instruction} {height : Nat → Nat} {i : Instruction} {name : String}
  {pc target n m : Nat}

/-- Where code has run, the stack has the height behind it. -/
theorem length_of_exec {μ : Meaning} {s t : State} (hx : exec μ code s = some t)
    (hc : climb code s.stack.length = some n) : t.stack.length = n := by
  induction code generalizing s with
  | nil =>
    cases hx
    exact Option.some.inj hc
  | cons i code ih =>
    obtain ⟨u, hi, hx⟩ := Option.bind_eq_some_iff.1 hx
    obtain ⟨-, hc⟩ := Option.ite_none_right_eq_some.1 hc
    exact ih hx (by rwa [(length_effect hi).2])

/-! ### Heights of a balanced block -/

/-- Code without jumps changes the height of a position as it does any other. -/
theorem Balanced.height_behind (hb : Balanced block height) (hp : Holds block pc code)
    (hs : code.all Instruction.isStraight) (hc : climb code (height pc) = some n) :
    height (behind pc code) = n := by
  induction code generalizing pc with
  | nil => exact Option.some.inj hc
  | cons i code ih =>
    rw [List.all_cons, Bool.and_eq_true] at hs
    obtain ⟨hi, hs⟩ := hs
    have hgo : i.goesOn := by cases i <;> first | rfl | cases hi
    obtain ⟨-, hc⟩ := Option.ite_none_right_eq_some.1 hc
    rw [behind_cons]
    exact ih hp.tail hs (by rwa [hb.next pc i hp.head hgo])

theorem Balanced.height_label (hb : Balanced block height)
    (hp : Holds block pc (.label name :: code)) : height (pc + 1) = height pc :=
  hb.next pc _ hp.head rfl

theorem Balanced.height_goto (hb : Balanced block height)
    (hp : Holds block pc (.goto name :: code)) (ht : Holds block target (.label name :: more)) :
    height pc = height target :=
  (hb.jump pc _ name target hp.head rfl ht.head).symm

/-- A conditional jump takes its condition, whether it goes on or to its label. -/
theorem Balanced.height_ifGoto (hb : Balanced block height)
    (hp : Holds block pc (.ifGoto name :: code)) : height pc = height (pc + 1) + 1 ∧
      ∀ target more, Holds block target (.label name :: more) →
        height target = height (pc + 1) := by
  have henough : 1 ≤ height pc := hb.enough pc _ hp.head
  have hnext : height (pc + 1) = height pc - 1 := hb.next pc _ hp.head rfl
  refine ⟨by omega, fun target more ht => ?_⟩
  rw [hnext]
  exact hb.jump pc _ name target hp.head rfl ht.head

/-! ### Blocks -/

/-- Code can be cut before any of its instructions. -/
theorem climb_take (h : climb code n = some m) (hi : code[pc]? = some i) :
    ∃ k, climb (code.take pc) n = some k ∧ i.fits k ∧
      climb (code.take (pc + 1)) n = some (i.after k) := by
  obtain ⟨hlt, rfl⟩ := List.getElem?_eq_some_iff.1 hi
  have hsplit : climb (code.take pc ++ code.drop pc) n = some m := by
    rwa [List.take_append_drop]
  rw [climb_append, List.drop_eq_getElem_cons hlt] at hsplit
  obtain ⟨k, hk, hrest⟩ := Option.bind_eq_some_iff.1 hsplit
  rw [climb] at hrest
  obtain ⟨hfits, -⟩ := Option.ite_none_right_eq_some.1 hrest
  refine ⟨k, hk, hfits, ?_⟩
  rw [List.take_succ_eq_append_getElem hlt, climb_append_of_eq hk]
  simp [climb, hfits]

theorem Instruction.fits_function (h : i.fits n) : i.isFunction = false := by
  cases i <;> first | rfl | cases h

theorem Instruction.takes_le_of_fits (h : i.fits n) : i.takes ≤ n := by
  cases i <;> simp_all [Instruction.fits]

/-- Behind a jump, and at a label, there are no operands. -/
theorem Instruction.after_of_jump {name : String} (h : i.fits n) (hj : i.jumpName? = some name) :
    i.after n = 0 := by
  cases i <;> simp_all [Instruction.fits, Instruction.after, Instruction.takes, Instruction.puts]

/-- Heights that are read off behind a header are balanced, if every jump has its label. -/
theorem balanced_of_climb {name : String} {locals : Nat} (h : climb code 0 = some 0)
    (hdefined : jumpNames code ⊆ labelNames code) :
    Balanced (.function name locals :: code)
      fun pc => (climb (code.take (pc - 1)) 0).getD 0 := by
  have hat {pc : Nat} {i : Instruction} (hi : code[pc]? = some i) :
      i.fits ((climb (code.take pc) 0).getD 0) ∧
        (climb (code.take (pc + 1)) 0).getD 0 = i.after ((climb (code.take pc) 0).getD 0) := by
    obtain ⟨k, hk, hfits, hnext⟩ := climb_take h hi
    simp [hk, hnext, hfits]
  -- position 0 is the header, and position `pc + 1` is position `pc` of the code
  refine ⟨rfl, ?_, ?_, by simpa using hdefined, ?_, ?_⟩
  · intro pc i hi
    cases pc with
    | zero =>
      cases hi
      exact Nat.zero_le _
    | succ pc => exact Instruction.takes_le_of_fits (hat hi).1
  · intro pc i hi _
    cases pc with
    | zero =>
      cases hi
      rfl
    | succ pc => exact (hat hi).2
  · intro pc i name target hi hname htarget
    cases pc with
    | zero =>
      cases hi
      cases hname
    | succ pc =>
      cases target with
      | zero => cases htarget
      | succ target =>
        -- a jump leaves no operands, and a label fits nowhere else
        have hlabel : (climb (code.take target) 0).getD 0 = 0 := by
          simpa [Instruction.fits, Instruction.takes] using (hat htarget).1
        exact hlabel.trans (Instruction.after_of_jump (hat hi).1 hname).symm
  · intro pc hi
    cases pc with
    | zero => cases hi
    | succ pc => simpa [Instruction.fits, Instruction.takes] using (hat hi).1

theorem isFunction_of_climb (h : climb code n = some m) : ∀ i ∈ code, i.isFunction = false := by
  intro i hi
  obtain ⟨pc, hlt, rfl⟩ := List.getElem_of_mem hi
  obtain ⟨k, -, hfits, -⟩ := climb_take h (List.getElem?_eq_getElem hlt)
  exact Instruction.fits_function hfits

end climb

end JackToolchain.Vm
