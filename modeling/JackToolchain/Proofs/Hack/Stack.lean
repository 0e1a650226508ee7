import JackToolchain.Proofs.Hack.Cpu

/-!
# The idioms of the stack on the processor

What each of the short sequences does that all lowering is made of. `SP` has to point
above the registers: then no push and no pop writes to the cell that holds `SP`.

* `pushWord`: the memory after a push, with the cells that it changes.
* `exec_pushD`, `exec_popD`, `exec_combineTop`, `exec_replaceTop`: the idioms.
-/

namespace JackToolchain.Hack

open Assembled

/-- The memory after a word is put on the stack. -/
def pushWord (ram : Ram) (v : Word) : Ram :=
  Function.update (Function.update ram (ram SP) v) SP (ram SP + 1)

variable {p : Assembled} {σ : Cpu} {ram : Ram} {v : Word}

/-- A cell that lies above the registers is none of them. -/
theorem ne_of_high {a r : Word} (ha : 256 ≤ a.toNat) (hr : r.toNat < 256 := by decide) :
    a ≠ r := by
  rintro rfl
  omega

@[simp] theorem pushWord_SP : pushWord ram v SP = ram SP + 1 :=
  Function.update_self ..

theorem toNat_pushWord_SP (ram : Ram) (v : Word) (h : (ram SP).toNat + 1 < 2 ^ 16) :
    (pushWord ram v SP).toNat = (ram SP).toNat + 1 := by
  rw [pushWord_SP]; bv_omega

theorem pushWord_top (h : 256 ≤ (ram SP).toNat) : pushWord ram v (ram SP) = v := by
  rw [pushWord, Function.update_of_ne (ne_of_high h), Function.update_self]

theorem pushWord_of_ne {a : Word} (h₁ : a ≠ SP) (h₂ : a ≠ ram SP) : pushWord ram v a = ram a := by
  rw [pushWord, Function.update_of_ne h₁, Function.update_of_ne h₂]

@[simp] theorem resolve_literal (n : Nat) : p.resolve (.literal n) = BitVec.ofNat 16 n := rfl

theorem resolve_predefined {name : String} {address : Nat}
    (h : predefined.lookup name = some address) :
    p.resolve (.symbol name) = BitVec.ofNat 16 address := by
  simp [resolve, symbolAddress, h]

@[simp] theorem resolve_SP : p.resolve (.symbol "SP") = SP := resolve_predefined (by decide)

@[simp] theorem resolve_LCL : p.resolve (.symbol "LCL") = LCL := resolve_predefined (by decide)

@[simp] theorem resolve_ARG : p.resolve (.symbol "ARG") = ARG := resolve_predefined (by decide)

@[simp] theorem resolve_THIS : p.resolve (.symbol "THIS") = THIS :=
  resolve_predefined (by decide)

@[simp] theorem resolve_THAT : p.resolve (.symbol "THAT") = THAT :=
  resolve_predefined (by decide)

@[simp] theorem resolve_R13 : p.resolve (.symbol "R13") = R13 := resolve_predefined (by decide)

@[simp] theorem resolve_R14 : p.resolve (.symbol "R14") = R14 := resolve_predefined (by decide)

theorem exec_append (l₁ l₂ : List Line) :
    p.exec (l₁ ++ l₂) σ = (p.exec l₁ σ).bind (p.exec l₂) := by
  induction l₁ generalizing σ with
  | nil => rfl
  | cons line lines ih =>
    simp only [List.cons_append, exec]
    cases p.perform σ line with
    | none => rfl
    | some τ => exact ih

theorem exec_seq {σ' σ'' : Cpu} {l₁ l₂ : List Line} (h₁ : p.exec l₁ σ = some σ')
    (h₂ : p.exec l₂ σ' = some σ'') : p.exec (l₁ ++ l₂) σ = some σ'' := by
  rw [exec_append, h₁]; exact h₂

theorem exec_loadConstant (n : Nat) :
    p.exec (loadConstant n) σ =
      some ⟨BitVec.ofNat 16 n, BitVec.ofNat 16 n, σ.ram, σ.pc + 2⟩ := rfl

theorem exec_loadCell (cell : Operand) :
    p.exec (loadCell cell) σ =
      some ⟨p.resolve cell, σ.ram (p.resolve cell), σ.ram, σ.pc + 2⟩ := rfl

theorem exec_storeCell (cell : Operand) :
    p.exec (storeCell cell) σ =
      some ⟨p.resolve cell, σ.d, Function.update σ.ram (p.resolve cell) σ.d, σ.pc + 2⟩ := rfl

/-- `D` is stored in the cell that a register points to. -/
theorem exec_storeThrough (register : String) :
    p.exec [addressOf register, .assign .a .m, .assign .m .d] σ =
      some ⟨σ.ram (p.resolve (.symbol register)), σ.d,
        Function.update σ.ram (σ.ram (p.resolve (.symbol register))) σ.d, σ.pc + 3⟩ := rfl

theorem exec_pushD (h : 256 ≤ (σ.ram SP).toNat) :
    p.exec pushD σ = some ⟨SP, σ.d, pushWord σ.ram σ.d, σ.pc + 5⟩ := by
  have hne : SP ≠ σ.ram SP := (ne_of_high h).symm
  simp only [pushD, addressOf, exec, perform, Destination.store, Comp.value?, resolve_SP,
    Option.map_some, Option.bind_some, pushWord, Function.update_of_ne hne]

/-- `D` gets the top of the stack, and `A` the address of its cell. -/
theorem exec_popD (h : 256 ≤ (σ.ram SP - 1).toNat) :
    p.exec popD σ = some ⟨σ.ram SP - 1, σ.ram (σ.ram SP - 1),
      Function.update σ.ram SP (σ.ram SP - 1), σ.pc + 4⟩ := by
  have hne : σ.ram SP - 1 ≠ SP := ne_of_high h
  simp only [popD, addressOf, exec, perform, Destination.store, Comp.value?, resolve_SP,
    Option.map_some, Option.bind_some, Function.update_self, Function.update_of_ne hne]

/-- The top of the stack becomes what `value` computes of it. -/
theorem exec_replaceTop {value : Comp} {f : Word → Word}
    (hf : ∀ τ : Cpu, value.value? τ = some (f (τ.ram τ.a))) :
    p.exec (replaceTop value) σ = some ⟨σ.ram SP - 1, σ.d,
      Function.update σ.ram (σ.ram SP - 1) (f (σ.ram (σ.ram SP - 1))), σ.pc + 3⟩ := by
  simp only [replaceTop, addressOf, exec, perform, hf]
  simp only [Destination.store, Comp.value?, resolve_SP, Option.map_some, Option.bind_some]

/-- The two words on top of the stack become what `value` computes of them: the lower one
is in the cell at `A`, and the upper one in `D`. -/
theorem exec_combineTop {value : Comp} {f : Word → Word → Word}
    (hf : ∀ τ : Cpu, value.value? τ = some (f (τ.ram τ.a) τ.d))
    (h₁ : 256 ≤ (σ.ram SP - 1).toNat) (h₂ : 256 ≤ (σ.ram SP - 1 - 1).toNat) :
    p.exec (combineTop value) σ = some ⟨σ.ram SP - 1 - 1, σ.ram (σ.ram SP - 1),
      Function.update (Function.update σ.ram SP (σ.ram SP - 1)) (σ.ram SP - 1 - 1)
        (f (σ.ram (σ.ram SP - 1 - 1)) (σ.ram (σ.ram SP - 1))), σ.pc + 5⟩ := by
  have hne₁ : σ.ram SP - 1 ≠ SP := ne_of_high h₁
  have hne₂ : σ.ram SP - 1 - 1 ≠ SP := ne_of_high h₂
  simp only [combineTop, addressOf, exec, perform, hf]
  simp only [Destination.store, Comp.value?, resolve_SP, Option.map_some, Option.bind_some,
    Function.update_of_ne hne₁, Function.update_of_ne hne₂]

end JackToolchain.Hack
