import JackToolchain.Proofs.Hack.Stack
import JackToolchain.Proofs.Vm.Machine

/-!
# Memory access and arithmetic on the processor

The stack machine keeps its stack and its segments in the memory of the processor. A
segment's index is a cell there, and an instruction that moves or combines values is a
change of a few cells. Its lowering makes exactly that change.

* `cell?`: the cell of a segment's index.
* `stackStep?`: the memory after an instruction of the stack machine.
* `run_lower`: **the lowering of an instruction that does not jump leaves that memory**,
  but for `R13`, where a pop through a base register keeps the address of its target.
-/

namespace JackToolchain.Hack

open Vm Assembled

/-- Whether an instruction moves or combines values, and compares none. -/
def isStraight : Instruction → Bool
  | .push _ _ | .pop _ _ => true
  | .operate operator =>
    match operator with
    | .add | .sub | .neg | .and | .or | .not => true
    | .eq | .gt | .lt => false
  | _ => false

/-- How many values an instruction takes off the stack. -/
def operands : Instruction → Nat
  | .pop _ _ => 1
  | .operate operator => if (Arithmetic.words.unary? operator).isSome then 1 else 2
  | _ => 0

/-- The base address of a segment that is addressed through a register. -/
def base? (ram : Ram) : Segment → Option Word
  | .local => some (ram LCL)
  | .argument => some (ram ARG)
  | .this => some (ram THIS)
  | .that => some (ram THAT)
  | .constant | .static | .pointer | .temp => none

variable (p : Assembled) (c : Context) (ram : Ram)

/-- The cell of a segment's index, in a program that puts static variables where the
assembler has put them. -/
def cell? (segment : Segment) (index : Nat) : Option Word :=
  match segment with
  | .constant => none
  | .local | .argument | .this | .that =>
    (base? ram segment).map (· + BitVec.ofNat 16 index)
  | .pointer =>
    match index with
    | 0 => some THIS
    | 1 => some THAT
    | _ => none
  | .temp => if index < 8 then some (5 + BitVec.ofNat 16 index) else none
  | .static => some (p.resolve (.symbol (c.stem ++ "." ++ toString index)))

/-- The memory after an instruction of the stack machine. -/
def stackStep? : Instruction → Option Ram
  | .push .constant index => some (pushWord ram (BitVec.ofNat 16 index))
  | .push segment index => (cell? p c ram segment index).map fun a => pushWord ram (ram a)
  | .pop segment index => (cell? p c ram segment index).map fun a =>
    Function.update (Function.update ram SP (ram SP - 1)) a (ram (ram SP - 1))
  | .operate operator =>
    match Arithmetic.words.unary? operator with
    | some f => some (Function.update ram (ram SP - 1) (f (ram (ram SP - 1))))
    | none => (Arithmetic.words.binary? operator).map fun f =>
      Function.update
        (Function.update ram (ram SP - 2) (f (ram (ram SP - 2)) (ram (ram SP - 1)))) SP
        (ram SP - 1)
  | _ => none

/-- A memory with what the lowering of an instruction leaves in `R13`: the address of the
target of a pop through a base register, unless that is `R13` itself. -/
def withTarget (before : Ram) (i : Instruction) (ram : Ram) : Ram :=
  match i with
  | .pop segment index =>
    match base? before segment with
    | some base =>
      if base + BitVec.ofNat 16 index = R13 then ram
      else Function.update ram R13 (base + BitVec.ofNat 16 index)
    | none => ram
  | _ => ram

section place

variable {p : Assembled} {c : Context} {ram : Ram} {segment : Segment} {index : Nat}

theorem eq_constant_of_place (h : place c segment index = .ok .immediate) :
    segment = .constant := by
  cases segment with
  | constant => rfl
  | temp => simp only [place] at h; split at h <;> simp at h
  | pointer => simp only [place] at h; split at h <;> simp at h
  | argument | «local» | static | this | that => simp [place] at h

/-- A segment with a base register. -/
theorem base?_of_place (ram : Ram) {register : String}
    (h : place c segment index = .ok (.based register)) :
    base? ram segment = some (ram (p.resolve (.symbol register))) := by
  cases segment with
  | argument | «local» | this | that =>
    obtain rfl : _ = register := by simpa [place] using h
    simp [base?]
  | temp => simp only [place] at h; split at h <;> simp at h
  | pointer => simp only [place] at h; split at h <;> simp at h
  | constant | static => simp [place] at h

theorem cell?_of_base {a : Word} (h : base? ram segment = some a) :
    cell? p c ram segment index = some (a + BitVec.ofNat 16 index) := by
  cases segment <;> simp_all [base?, cell?]

/-- A segment whose cells have fixed addresses. -/
theorem cell?_of_place (ram : Ram) {cell : Operand} (h : place c segment index = .ok (.fixed cell)) :
    cell? p c ram segment index = some (p.resolve cell) ∧ base? ram segment = none := by
  cases segment with
  | constant | argument | «local» | this | that => simp [place] at h
  | static =>
    obtain rfl : c.staticCell index = cell := by simpa [place] using h
    exact ⟨rfl, rfl⟩
  | pointer =>
    simp only [place] at h
    split at h
    · obtain rfl : Operand.symbol "THIS" = cell := by simpa using h
      simp [cell?, base?]
    · obtain rfl : Operand.symbol "THAT" = cell := by simpa using h
      simp [cell?, base?]
    · simp at h
  | temp =>
    by_cases hi : index < tempSize
    · obtain rfl : Operand.literal (tempBase + index) = cell := by simpa [place, hi] using h
      have hi' : index < 8 := hi
      simp [cell?, base?, hi', resolve, tempBase, BitVec.ofNat_add]
    · simp [place, hi] at h

end place

variable {p : Assembled} {c : Context} {σ : Cpu} {segment : Segment} {index : Nat}
  {code : List Line}

/-- The three ways to lower a push. -/
theorem lowerPush_cases (hl : lowerPush c segment index = .ok code) :
    (segment = .constant ∧ code = loadConstant index ++ pushD) ∨
    (∃ register, place c segment index = .ok (.based register) ∧
      code = loadCell (.symbol register) ++
        [Line.address (.literal index), .assign .a .dPlusA, .assign .d .m] ++ pushD) ∨
    (∃ cell, place c segment index = .ok (.fixed cell) ∧ code = loadCell cell ++ pushD) := by
  simp only [lowerPush] at hl
  cases hp : place c segment index with
  | error cause => rw [hp] at hl; cases hl
  | ok pl =>
    rw [hp] at hl
    cases pl with
    | immediate =>
      refine .inl ⟨eq_constant_of_place hp, ?_⟩
      simp only [bind, Except.bind] at hl
      split at hl
      · exact (Except.ok.inj hl).symm
      · cases hl
    | based register => exact .inr (.inl ⟨register, rfl, (Except.ok.inj hl).symm⟩)
    | fixed cell => exact .inr (.inr ⟨cell, rfl, (Except.ok.inj hl).symm⟩)

/-- The two ways to lower a pop. -/
theorem lowerPop_cases (hl : lowerPop c segment index = .ok code) :
    (∃ register, place c segment index = .ok (.based register) ∧
      code = loadCell (.symbol register) ++ [.address (.literal index), .assign .d .dPlusA] ++
        storeCell (.symbol "R13") ++ popD ++ [addressOf "R13", .assign .a .m, .assign .m .d]) ∨
    (∃ cell, place c segment index = .ok (.fixed cell) ∧ code = popD ++ storeCell cell) := by
  simp only [lowerPop] at hl
  cases hp : place c segment index with
  | error cause => rw [hp] at hl; cases hl
  | ok pl =>
    rw [hp] at hl
    cases pl with
    | immediate => cases hl
    | based register => exact .inl ⟨register, rfl, (Except.ok.inj hl).symm⟩
    | fixed cell => exact .inr ⟨cell, rfl, (Except.ok.inj hl).symm⟩

theorem exec_lowerPush (hl : lowerPush c segment index = .ok code)
    (hsp : 256 ≤ (σ.ram SP).toNat) :
    ∃ σ', stackStep? p c σ.ram (.push segment index) = some σ'.ram ∧
      p.exec code σ = some σ' := by
  obtain ⟨rfl, rfl⟩ | ⟨register, hp, rfl⟩ | ⟨cell, hp, rfl⟩ := lowerPush_cases hl
  · refine ⟨⟨SP, BitVec.ofNat 16 index, pushWord σ.ram (BitVec.ofNat 16 index), σ.pc + 7⟩,
      rfl, ?_⟩
    rw [exec_append, exec_loadConstant]
    exact exec_pushD hsp
  · have hb := base?_of_place (p := p) σ.ram hp
    have hs : segment ≠ .constant := by rintro rfl; simp [base?] at hb
    obtain ⟨a, ha⟩ :
        ∃ a, σ.ram (p.resolve (.symbol register)) + BitVec.ofNat 16 index = a := ⟨_, rfl⟩
    refine ⟨⟨SP, σ.ram a, pushWord σ.ram (σ.ram a), σ.pc + 10⟩, ?_, ?_⟩
    · simp [stackStep?, cell?_of_base hb, ha]
    · rw [exec_append, exec_append, exec_loadCell, ← ha]
      exact exec_pushD hsp
  · obtain ⟨hcell, -⟩ := cell?_of_place (p := p) σ.ram hp
    have hs : segment ≠ .constant := by rintro rfl; simp [cell?] at hcell
    refine ⟨⟨SP, σ.ram (p.resolve cell), pushWord σ.ram (σ.ram (p.resolve cell)), σ.pc + 7⟩,
      ?_, ?_⟩
    · simp [stackStep?, hcell]
    · rw [exec_append, exec_loadCell]
      exact exec_pushD hsp

theorem exec_lowerPop (hl : lowerPop c segment index = .ok code)
    (hsp : 257 ≤ (σ.ram SP).toNat) :
    ∃ ram σ', stackStep? p c σ.ram (.pop segment index) = some ram ∧
      p.exec code σ = some σ' ∧ σ'.ram = withTarget σ.ram (.pop segment index) ram := by
  have hs : 256 ≤ (σ.ram SP - 1).toNat := by bv_omega
  have hne : σ.ram SP - 1 ≠ R13 := ne_of_high hs
  obtain ⟨register, hp, rfl⟩ | ⟨cell, hp, rfl⟩ := lowerPop_cases hl
  · have hb := base?_of_place (p := p) σ.ram hp
    obtain ⟨b, hreg⟩ : ∃ b, σ.ram (p.resolve (.symbol register)) = b := ⟨_, rfl⟩
    obtain ⟨a, ha⟩ : ∃ a, b + BitVec.ofNat 16 index = a := ⟨_, rfl⟩
    rw [hreg] at hb
    refine ⟨Function.update (Function.update σ.ram SP (σ.ram SP - 1)) a (σ.ram (σ.ram SP - 1)),
      ⟨a, σ.ram (σ.ram SP - 1),
      Function.update (Function.update (Function.update σ.ram R13 a) SP (σ.ram SP - 1)) a
        (σ.ram (σ.ram SP - 1)), σ.pc + 13⟩, ?_, ?_, ?_⟩
    · simp [stackStep?, cell?_of_base hb, ha]
    · have hSP : Function.update σ.ram R13 a SP = σ.ram SP := Function.update_of_ne (by decide) ..
      have hload : p.exec (loadCell (.symbol register)) σ =
          some ⟨p.resolve (.symbol register), b, σ.ram, σ.pc + 2⟩ := by rw [exec_loadCell, hreg]
      have hadd : p.exec [.address (.literal index), .assign .d .dPlusA]
          ⟨p.resolve (.symbol register), b, σ.ram, σ.pc + 2⟩ =
            some ⟨BitVec.ofNat 16 index, a, σ.ram, σ.pc + 4⟩ := by rw [← ha]; rfl
      have hkeep : p.exec (storeCell (.symbol "R13")) ⟨BitVec.ofNat 16 index, a, σ.ram, σ.pc + 4⟩ =
          some ⟨R13, a, Function.update σ.ram R13 a, σ.pc + 6⟩ := by
        rw [exec_storeCell, resolve_R13]
      have hpop : p.exec popD ⟨R13, a, Function.update σ.ram R13 a, σ.pc + 6⟩ =
          some ⟨σ.ram SP - 1, σ.ram (σ.ram SP - 1),
            Function.update (Function.update σ.ram R13 a) SP (σ.ram SP - 1), σ.pc + 10⟩ := by
        rw [exec_popD (by simpa only [hSP] using hs)]
        simp only [hSP, Function.update_of_ne hne]
      refine exec_seq (exec_seq (exec_seq (exec_seq hload hadd) hkeep) hpop) ?_
      rw [exec_storeThrough, resolve_R13]
      simp only [Function.update_of_ne (by decide : R13 ≠ SP), Function.update_self]
    · have hcomm : Function.update (Function.update σ.ram R13 a) SP (σ.ram SP - 1) =
          Function.update (Function.update σ.ram SP (σ.ram SP - 1)) R13 a :=
        Function.update_comm (by decide) ..
      simp only [withTarget, hb, ha, hcomm]
      split
      · next h => rw [h, Function.update_idem]
      · next h => exact Function.update_comm (Ne.symm h) ..
  · obtain ⟨hc, hb⟩ := cell?_of_place (p := p) σ.ram hp
    have hram : stackStep? p c σ.ram (.pop segment index) =
        some (Function.update (Function.update σ.ram SP (σ.ram SP - 1)) (p.resolve cell)
          (σ.ram (σ.ram SP - 1))) := by
      simp only [stackStep?, hc, Option.map_some]
    exact ⟨_, _, hram, exec_seq (exec_popD hs) (exec_storeCell cell), by simp only [withTarget, hb]⟩

/-- The lowering of an operator that compares nothing. -/
theorem exec_lowerOperator {operator : Operator} (hi : isStraight (.operate operator))
    (hsp : 256 + operands (.operate operator) ≤ (σ.ram SP).toNat) :
    ∃ σ', stackStep? p c σ.ram (.operate operator) = some σ'.ram ∧
      p.exec (lowerOperator c operator) σ = some σ' := by
  have hunary {value : Comp} {f : Word → Word} (hl : lowerOperator c operator = replaceTop value)
      (hf : ∀ τ : Cpu, value.value? τ = some (f (τ.ram τ.a)))
      (hu : Arithmetic.words.unary? operator = some f) :
      ∃ σ', stackStep? p c σ.ram (.operate operator) = some σ'.ram ∧
        p.exec (lowerOperator c operator) σ = some σ' := by
    rw [hl]
    refine ⟨_, ?_, exec_replaceTop hf⟩
    simp [stackStep?, hu]
  have hbinary {value : Comp} {f : Word → Word → Word}
      (hl : lowerOperator c operator = combineTop value)
      (hf : ∀ τ : Cpu, value.value? τ = some (f (τ.ram τ.a) τ.d))
      (hu : Arithmetic.words.unary? operator = none)
      (hb : Arithmetic.words.binary? operator = some f) :
      ∃ σ', stackStep? p c σ.ram (.operate operator) = some σ'.ram ∧
        p.exec (lowerOperator c operator) σ = some σ' := by
    have h₂ : 258 ≤ (σ.ram SP).toNat := by simpa [operands, hu] using hsp
    have hsub : σ.ram SP - 1 - 1 = σ.ram SP - 2 := by bv_omega
    have hne : σ.ram SP - 2 ≠ SP := ne_of_high (by bv_omega)
    rw [hl]
    refine ⟨_, ?_, exec_combineTop hf (by bv_omega) (by bv_omega)⟩
    simp only [stackStep?, hu, hb, Option.map_some, hsub]
    rw [Function.update_comm hne]
  cases operator with
  | add => exact hbinary rfl (fun _ => congrArg some (BitVec.add_comm ..)) rfl rfl
  | sub => exact hbinary rfl (fun _ => rfl) rfl rfl
  | and => exact hbinary rfl (fun _ => congrArg some (BitVec.and_comm ..)) rfl rfl
  | or => exact hbinary rfl (fun _ => congrArg some (BitVec.or_comm ..)) rfl rfl
  | neg => exact hunary rfl (fun _ => rfl) rfl
  | not => exact hunary rfl (fun _ => rfl) rfl
  | eq | gt | lt => cases hi

/-- **Lowering keeps the meaning of instructions that do not jump.** Where the program
holds the lowering of such an instruction, the processor passes it from the first line to
the last. The memory is then that of the stack machine, up to the address that a pop
through a base register leaves in `R13`. -/
theorem run_lower {i : Instruction} (hl : lower c i = .ok code) (hi : isStraight i)
    (hp : p.Holds σ.pc code) (hsp : 256 + operands i ≤ (σ.ram SP).toNat) :
    ∃ ram σ', stackStep? p c σ.ram i = some ram ∧ p.run (size code) σ = some σ' ∧
      σ'.pc = σ.pc + size code ∧ σ'.ram = withTarget σ.ram i ram := by
  have hexec : ∃ ram σ', stackStep? p c σ.ram i = some ram ∧ p.exec code σ = some σ' ∧
      σ'.ram = withTarget σ.ram i ram := by
    cases i with
    | push segment index =>
      obtain ⟨σ', hram, hx⟩ := exec_lowerPush hl hsp
      exact ⟨_, σ', hram, hx, rfl⟩
    | pop segment index => exact exec_lowerPop hl hsp
    | operate operator =>
      obtain rfl : lowerOperator c operator = code := Except.ok.inj hl
      obtain ⟨σ', hram, hx⟩ := exec_lowerOperator hi hsp
      exact ⟨_, σ', hram, hx, rfl⟩
    | label _ | goto _ | ifGoto _ | function _ _ | call _ _ | «return» => cases hi
  obtain ⟨ram, σ', hram, hx, hσ⟩ := hexec
  obtain ⟨hrun, hpc⟩ := run_exec hp hx
  exact ⟨ram, σ', hram, hrun, hpc, hσ⟩

/-- A pop whose target is the cell of `R13` itself leaves its value there. -/
theorem run_lower_pop_scratch :
    ∃ (p : Assembled) (σ σ' : Cpu), lower { stem := "Main" } (.pop .local 2) = .ok p.lines ∧
      p.Holds σ.pc p.lines ∧ σ.ram SP = 257 ∧ σ.ram LCL = 11 ∧ σ.ram 256 = 7 ∧
      p.run (size p.lines) σ = some σ' ∧ σ'.ram R13 = 7 := by
  obtain ⟨code, hc⟩ : ∃ code, lower { stem := "Main" } (.pop .local 2) = .ok code := ⟨_, rfl⟩
  have hs : size code < 2 ^ 16 := by
    obtain rfl := Except.ok.inj hc
    decide
  obtain ⟨ram, σ', hram, hrun, -, hσ⟩ :=
    run_lower (p := ⟨code, hs⟩)
      (σ := ⟨0, 0, fun a => if a = SP then 257 else if a = LCL then 11 else 7, 0⟩)
      hc rfl (Holds.self _) (by decide)
  refine ⟨⟨code, hs⟩, _, σ', hc, Holds.self _, rfl, rfl, rfl, hrun, ?_⟩
  rw [hσ, ← Option.some.inj hram]
  decide

end JackToolchain.Hack
