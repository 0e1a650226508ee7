import JackToolchain.Hack.Lowering
import JackToolchain.Proofs.Vm.Machine

/-!
# The processor

A program is loaded with its labels and comments taken out. The processor has the
registers `A` and `D`, a program counter and a memory. It follows the program line by line
unless it jumps.

* `Assembled`: a program whose instructions all have an address.
* `Assembled.resolve`: what the assembler puts for an operand.
* `Assembled.run`: what the processor does in a number of steps.
* `run_exec`: lines without a jump are passed from the first to the last.
-/

namespace JackToolchain.Hack

/-- The cells of the registers that lowering uses. -/
def SP : Word := 0

@[inherit_doc SP]
def LCL : Word := 1

@[inherit_doc SP]
def ARG : Word := 2

@[inherit_doc SP]
def THIS : Word := 3

@[inherit_doc SP]
def THAT : Word := 4

@[inherit_doc SP]
def R13 : Word := 13

@[inherit_doc SP]
def R14 : Word := 14

/-- The names that the assembler knows without a definition, with their addresses. -/
def predefined : List (String × Nat) :=
  [("SP", 0), ("LCL", 1), ("ARG", 2), ("THIS", 3), ("THAT", 4), ("SCREEN", 16384),
   ("KBD", 24576), ("R0", 0), ("R1", 1), ("R2", 2), ("R3", 3), ("R4", 4), ("R5", 5),
   ("R6", 6), ("R7", 7), ("R8", 8), ("R9", 9), ("R10", 10), ("R11", 11), ("R12", 12),
   ("R13", 13), ("R14", 14), ("R15", 15)]

/-- The first cell that the assembler gives to a name of its own. -/
def variableBase : Nat := 16

/-- Whether a line is loaded into the processor. -/
def Line.isInstruction : Line → Bool
  | .comment _ | .label _ => false
  | .address _ | .assign _ _ | .jump _ _ => true

/-- The name that a line loads. -/
def Line.symbol? : Line → Option String
  | .address (.symbol name) => some name
  | _ => none

/-- The lines that are loaded into the processor. -/
def instructions (lines : List Line) : List Line :=
  lines.filter Line.isInstruction

/-- How many instructions there are in some lines. -/
def size (lines : List Line) : Nat :=
  (instructions lines).length

@[simp] theorem instructions_append (l₁ l₂ : List Line) :
    instructions (l₁ ++ l₂) = instructions l₁ ++ instructions l₂ :=
  List.filter_append l₁ l₂

@[simp] theorem size_append (l₁ l₂ : List Line) : size (l₁ ++ l₂) = size l₁ + size l₂ := by
  simp [size]

/-- The names that lines load and that are neither predefined nor labels, in the order in
which they first occur. -/
def variableNames (lines : List Line) : List String :=
  ((lines.filterMap Line.symbol?).filter fun name =>
    (predefined.lookup name).isNone && !lines.contains (.label name)).eraseDups

/-- The number that a name stands for: the address it is predefined with, else that of the
instruction behind its label, else a cell of its own. -/
def symbolAddress (lines : List Line) (name : String) : Nat :=
  match predefined.lookup name with
  | some address => address
  | none =>
    if .label name ∈ lines then size (lines.takeWhile (· ≠ .label name))
    else variableBase + (variableNames lines).idxOf name

/-- A program whose instructions all have an address. -/
structure Assembled where
  lines : List Line
  addressable : size lines < 2 ^ 16

/-- The processor with its memory. -/
structure Cpu where
  a : Word
  d : Word
  ram : Ram
  pc : Nat

/-- The value of a computation. -/
def Comp.value? (σ : Cpu) : Comp → Option Word
  | .zero => some 0
  | .minusOne => some (-1)
  | .a => some σ.a
  | .d => some σ.d
  | .m => some (σ.ram σ.a)
  | .notM => some (~~~σ.ram σ.a)
  | .negM => some (-σ.ram σ.a)
  | .incM => some (σ.ram σ.a + 1)
  | .decM => some (σ.ram σ.a - 1)
  | .decA => some (σ.a - 1)
  | .dPlusA => some (σ.d + σ.a)
  | .dMinusA => some (σ.d - σ.a)
  | .dPlusM => some (σ.d + σ.ram σ.a)
  | .mMinusD => some (σ.ram σ.a - σ.d)
  | .dAndM => some (σ.d &&& σ.ram σ.a)
  | .dOrM => some (σ.d ||| σ.ram σ.a)
  | .verbatim _ => none

/-- Whether a value meets a condition. Values are compared with zero as signed numbers. -/
def Condition.holds? (v : Word) : Condition → Option Bool
  | .always => some true
  | .equal => some (v = 0)
  | .greater => some (0 < v.toInt)
  | .less => some (v.toInt < 0)
  | .notEqual => some (v ≠ 0)
  | .verbatim _ => none

/-- The processor after a value is stored and the program counter moved on. A memory cell
is addressed by `A` as it was before. -/
def Destination.store (v : Word) (σ : Cpu) : Destination → Cpu
  | .a => { σ with a := v, pc := σ.pc + 1 }
  | .d => { σ with d := v, pc := σ.pc + 1 }
  | .m => { σ with ram := Function.update σ.ram σ.a v, pc := σ.pc + 1 }
  | .am => { σ with a := v, ram := Function.update σ.ram σ.a v, pc := σ.pc + 1 }

namespace Assembled

variable (p : Assembled)

/-- The word that the assembler puts for an operand. -/
def resolve : Operand → Word
  | .literal n => BitVec.ofNat 16 n
  | .symbol name => BitVec.ofNat 16 (symbolAddress p.lines name)

/-- The effect of a line behind which the next one follows. -/
def perform (σ : Cpu) : Line → Option Cpu
  | .comment _ | .label _ => some σ
  | .address operand => some { σ with a := p.resolve operand, pc := σ.pc + 1 }
  | .assign destination value => (value.value? σ).map fun v => destination.store v σ
  | .jump _ _ => none

/-- The effect of lines without a jump. -/
def exec : List Line → Cpu → Option Cpu
  | [], σ => some σ
  | line :: lines, σ => (p.perform σ line).bind (exec lines)

/-- One step of the processor, which stops behind the last instruction. -/
def step (σ : Cpu) : Option Cpu :=
  match (instructions p.lines)[σ.pc]? with
  | some (.jump value condition) => do
    let taken ← condition.holds? (← value.value? σ)
    return { σ with pc := if taken then σ.a.toNat else σ.pc + 1 }
  | some line => p.perform σ line
  | none => none

/-- The processor after a number of steps. -/
def run : Nat → Cpu → Option Cpu
  | 0, σ => some σ
  | n + 1, σ => (p.step σ).bind (run n)

/-- The processor gets from one state to another. -/
def Reaches (σ σ' : Cpu) : Prop :=
  ∃ n, p.run n σ = some σ'

/-- Lines stand in the program, the first of them at an address. -/
def Holds (start : Nat) (lines : List Line) : Prop :=
  ∃ before after, p.lines = before ++ lines ++ after ∧ start = size before

/-- A name is defined once: it is not predefined, and one line is its label. -/
def DefinesOnce (name : String) : Prop :=
  predefined.lookup name = none ∧ p.lines.count (.label name) = 1

end Assembled

variable {p : Assembled} {σ σ' σ'' : Cpu}

theorem Assembled.run_add {m n : Nat} (h₁ : p.run m σ = some σ') (h₂ : p.run n σ' = some σ'') :
    p.run (m + n) σ = some σ'' := by
  induction m generalizing σ with
  | zero =>
    obtain rfl : σ = σ' := by simpa [run] using h₁
    rw [Nat.zero_add]; exact h₂
  | succ m ih =>
    rw [Nat.succ_add]
    obtain ⟨τ, hτ, hr⟩ := Option.bind_eq_some_iff.1 h₁
    exact Option.bind_eq_some_iff.2 ⟨τ, hτ, ih hr⟩

namespace Assembled.Reaches

theorem of_run {n : Nat} (h : p.run n σ = some σ') : p.Reaches σ σ' := ⟨n, h⟩

theorem refl (p : Assembled) (σ : Cpu) : p.Reaches σ σ := ⟨0, rfl⟩

theorem trans (h₁ : p.Reaches σ σ') (h₂ : p.Reaches σ' σ'') : p.Reaches σ σ'' := by
  obtain ⟨m, hm⟩ := h₁
  obtain ⟨n, hn⟩ := h₂
  exact ⟨m + n, run_add hm hn⟩

theorem of_step (h : p.step σ = some σ') : p.Reaches σ σ' :=
  ⟨1, by simp [run, h]⟩

end Assembled.Reaches

open Assembled

variable {start : Nat} {line : Line} {lines l₁ l₂ : List Line} {name : String}

namespace Assembled.Holds

theorem self (p : Assembled) : p.Holds 0 p.lines :=
  ⟨[], [], (List.append_nil _).symm, rfl⟩

theorem left (h : p.Holds start (l₁ ++ l₂)) : p.Holds start l₁ := by
  obtain ⟨before, after, hp, hs⟩ := h
  exact ⟨before, l₂ ++ after, by simp [hp], hs⟩

theorem right (h : p.Holds start (l₁ ++ l₂)) : p.Holds (start + size l₁) l₂ := by
  obtain ⟨before, after, hp, rfl⟩ := h
  exact ⟨before ++ l₁, after, by simp [hp], by simp⟩

theorem tail (h : p.Holds start (line :: lines)) : p.Holds (start + size [line]) lines :=
  right (show p.Holds start ([line] ++ lines) from h)

theorem head (h : p.Holds start (line :: lines)) (hi : line.isInstruction) :
    (instructions p.lines)[start]? = some line := by
  obtain ⟨before, after, hp, rfl⟩ := h
  have hl : instructions p.lines =
      instructions before ++ line :: instructions (lines ++ after) := by
    simp [hp, instructions, hi]
  rw [hl, size, List.getElem?_append_right (Nat.le_refl _), Nat.sub_self, List.getElem?_cons_zero]

theorem start_lt (h : p.Holds start lines) : start + size lines < 2 ^ 16 := by
  obtain ⟨before, after, hp, rfl⟩ := h
  have := p.addressable
  rw [hp, size_append, size_append] at this
  omega

/-- A label that is defined once stands for the address of the line behind it. -/
theorem resolve_label (h : p.Holds start (.label name :: lines)) (hd : p.DefinesOnce name) :
    p.resolve (.symbol name) = BitVec.ofNat 16 start := by
  have hs := h.start_lt
  obtain ⟨before, after, hp, rfl⟩ := h
  have hb : Line.label name ∉ before := by
    intro hm
    have h₁ := List.count_pos_iff.2 hm
    have h₂ := hd.2
    rw [hp, List.count_append, List.count_append, List.count_cons_self] at h₂
    omega
  have ht : p.lines.takeWhile (· ≠ .label name) = before := by
    rw [hp, List.append_assoc, List.takeWhile_append_of_pos]
    · simp
    · intro l hl
      simpa using ne_of_mem_of_not_mem hl hb
  have hmem : Line.label name ∈ p.lines := by simp [hp]
  simp only [resolve, symbolAddress, hd.1, hmem, if_true, ht]

theorem toNat_resolve_label (h : p.Holds start (.label name :: lines)) (hd : p.DefinesOnce name) :
    (p.resolve (.symbol name)).toNat = start := by
  have hs := h.start_lt
  rw [h.resolve_label hd, BitVec.toNat_ofNat, Nat.mod_eq_of_lt (by omega)]

end Assembled.Holds

theorem perform_pc (h : p.perform σ line = some σ') : σ'.pc = σ.pc + size [line] := by
  cases line with
  | comment _ | label _ => 
    obtain rfl : σ = σ' := by simpa [perform] using h
    rfl
  | address o =>
    obtain rfl : { σ with a := p.resolve o, pc := σ.pc + 1 } = σ' := by simpa [perform] using h
    rfl
  | assign dest value =>
    obtain ⟨v, -, rfl⟩ := Option.map_eq_some_iff.1 h
    cases dest <;> rfl
  | jump value condition => simp [perform] at h

/-- **Lines without a jump run straight through**, in as many steps as they have
instructions. -/
theorem run_exec (h : p.Holds σ.pc lines) (hx : p.exec lines σ = some σ') :
    p.run (size lines) σ = some σ' ∧ σ'.pc = σ.pc + size lines := by
  induction lines generalizing σ with
  | nil =>
    obtain rfl : σ = σ' := by simpa [exec] using hx
    exact ⟨rfl, rfl⟩
  | cons line lines ih =>
    obtain ⟨τ, hτ, hr⟩ := Option.bind_eq_some_iff.1 hx
    have hpc := perform_pc hτ
    obtain ⟨hrun, hend⟩ := ih (hpc ▸ h.tail) hr
    have hs : size (line :: lines) = size [line] + size lines := size_append [line] lines
    refine ⟨?_, by omega⟩
    rw [hs]
    refine run_add ?_ hrun
    by_cases hi : line.isInstruction
    · have h1 : size [line] = 1 := by simp [size, instructions, hi]
      have hstep : p.step σ = p.perform σ line := by
        rw [step, h.head hi]
        cases line <;> simp_all [perform]
      rw [h1, run, hstep, hτ]; rfl
    · have h0 : size [line] = 0 := by simp [size, instructions, hi]
      have hst : σ = τ := by
        cases line <;> simp_all [perform, Line.isInstruction]
      rw [h0, hst]; rfl

end JackToolchain.Hack
