import JackToolchain.Proofs.Hack.Stack

/-!
# The calling convention

A call saves the frame of its caller in five cells on the stack: the address behind the
call, and the registers `LCL`, `ARG`, `THIS` and `THAT`. The callee's frame lies behind
them. A return finds them below `LCL` and puts the result where the arguments were.

* `pushWords`: the memory after several pushes.
* `Saved`: the five cells.
* `call_return`: **a call, the callee's prologue and its return** leave the caller with its
  registers, and with the result in the place of the arguments.
-/

namespace JackToolchain.Hack

open Assembled

variable {p : Assembled} {c : Context} {σ : Cpu} {ram : Ram} {v : Word} {vs : List Word}

/-- The memory after words are put on the stack, the first of them first. -/
def pushWords (ram : Ram) (vs : List Word) : Ram :=
  vs.foldl pushWord ram

theorem pushWords_cons : pushWords ram (v :: vs) = pushWords (pushWord ram v) vs := rfl

theorem pushWords_SP : pushWords ram vs SP = ram SP + BitVec.ofNat 16 vs.length := by
  induction vs generalizing ram with
  | nil => simp [pushWords]
  | cons v vs ih =>
    rw [pushWords_cons, ih, pushWord_SP, List.length_cons, Word.add_one_add]

/-- The cells below the stack and those behind the pushed words keep their values. -/
theorem pushWords_of_outside {a : Word} (hfit : (ram SP).toNat + vs.length < 2 ^ 16)
    (hne : a ≠ SP) (ha : a.toNat < (ram SP).toNat ∨ (ram SP).toNat + vs.length ≤ a.toNat) :
    pushWords ram vs a = ram a := by
  induction vs generalizing ram with
  | nil => rfl
  | cons v vs ih =>
    rw [List.length_cons] at hfit ha
    have hnext := toNat_pushWord_SP ram v (by omega)
    have htop : a ≠ ram SP := by
      rintro rfl
      omega
    rw [pushWords_cons, ih (by omega) (by omega),
      pushWord_of_ne hne htop]

/-- The pushed words lie one behind the other. -/
theorem pushWords_getElem (hsp : 256 ≤ (ram SP).toNat)
    (hfit : (ram SP).toNat + vs.length < 2 ^ 16) {i : Nat} (hi : i < vs.length) :
    pushWords ram vs (ram SP + BitVec.ofNat 16 i) = vs[i] := by
  induction vs generalizing ram i with
  | nil => cases hi
  | cons v vs ih =>
    rw [List.length_cons] at hfit hi
    have hnext := toNat_pushWord_SP ram v (by omega)
    cases i with
    | zero =>
      rw [pushWords_cons, BitVec.add_zero,
        pushWords_of_outside (by omega) (ne_of_high hsp)
          (by omega), pushWord_top hsp, List.getElem_cons_zero]
    | succ i =>
      have hcell : ram SP + BitVec.ofNat 16 (i + 1) =
          pushWord ram v SP + BitVec.ofNat 16 i := by rw [pushWord_SP, Word.add_one_add]
      rw [pushWords_cons, hcell, ih (by omega)
        (by omega) (by omega), List.getElem_cons_succ]

/-- Saving registers puts their values on the stack. -/
theorem exec_saveRegisters (registers : List String) (hsp : 256 ≤ (σ.ram SP).toNat)
    (hfit : (σ.ram SP).toNat + registers.length < 2 ^ 16)
    (hlow : ∀ r ∈ registers, p.resolve (.symbol r) ≠ SP ∧ (p.resolve (.symbol r)).toNat < 256) :
    ∃ σ', p.exec (registers.flatMap fun r => loadCell (.symbol r) ++ pushD) σ = some σ' ∧
      σ'.ram = pushWords σ.ram (registers.map fun r => σ.ram (p.resolve (.symbol r))) := by
  induction registers generalizing σ with
  | nil => exact ⟨σ, rfl, rfl⟩
  | cons r registers ih =>
    rw [List.length_cons] at hfit
    obtain ⟨v, hv⟩ : ∃ v, σ.ram (p.resolve (.symbol r)) = v := ⟨_, rfl⟩
    obtain ⟨τ, hτ, hram⟩ : ∃ τ, p.exec (loadCell (.symbol r) ++ pushD) σ = some τ ∧
        τ.ram = pushWord σ.ram v := by
      refine ⟨_, exec_seq (exec_loadCell _) (exec_pushD hsp), ?_⟩
      rw [hv]
    have hnext := toNat_pushWord_SP σ.ram v (by omega)
    rw [← hram] at hnext
    obtain ⟨σ', hx, hσ'⟩ := ih (σ := τ) (by omega) (by omega) fun q hq =>
      hlow q (List.mem_cons_of_mem _ hq)
    refine ⟨σ', exec_seq hτ hx, ?_⟩
    -- a push changes no register but `SP`
    have hkeep : registers.map (fun q => τ.ram (p.resolve (.symbol q))) =
        registers.map fun q => σ.ram (p.resolve (.symbol q)) := by
      refine List.map_congr_left fun q hq => ?_
      obtain ⟨hq₁, hq₂⟩ := hlow q (List.mem_cons_of_mem _ hq)
      rw [hram, pushWord_of_ne hq₁ (ne_of_high hsp hq₂).symm]
    rw [hσ', hkeep, hram, List.map_cons, hv, pushWords_cons]

/-- Every local variable of a function starts at zero. -/
theorem exec_pushZeros {k : Nat} (hsp : 256 ≤ (σ.ram SP).toNat)
    (hfit : (σ.ram SP).toNat + k < 2 ^ 16) :
    ∃ σ', p.exec (List.replicate k (.assign .d .zero :: pushD)).flatten σ = some σ' ∧
      σ'.ram = pushWords σ.ram (List.replicate k 0) := by
  induction k generalizing σ with
  | zero => exact ⟨σ, rfl, rfl⟩
  | succ k ih =>
    obtain ⟨τ, hτ, hram⟩ : ∃ τ, p.exec ([.assign .d .zero] ++ pushD) σ = some τ ∧
        τ.ram = pushWord σ.ram 0 :=
      ⟨_, exec_seq rfl (exec_pushD (σ := ⟨σ.a, 0, σ.ram, σ.pc + 1⟩) hsp), rfl⟩
    have hnext := toNat_pushWord_SP σ.ram 0 (by omega)
    rw [← hram] at hnext
    obtain ⟨σ', hx, hσ'⟩ := ih (σ := τ) (by omega) (by omega)
    refine ⟨σ', ?_, by rw [hσ', hram, List.replicate_succ, pushWords_cons]⟩
    rw [List.replicate_succ, List.flatten_cons]
    exact exec_seq hτ hx

theorem reaches_goto {name : String} (h : p.Holds σ.pc (goto name)) :
    ∃ σ', p.Reaches σ σ' ∧ σ'.pc = (p.resolve (.symbol name)).toNat ∧ σ'.ram = σ.ram := by
  have hline : p.Holds σ.pc ([addressOf name] ++ [.jump .zero .always]) := h
  have hload : p.exec [addressOf name] σ =
      some ⟨p.resolve (.symbol name), σ.d, σ.ram, σ.pc + 1⟩ := rfl
  have hjump : p.step ⟨p.resolve (.symbol name), σ.d, σ.ram, σ.pc + 1⟩ =
      some ⟨p.resolve (.symbol name), σ.d, σ.ram, (p.resolve (.symbol name)).toNat⟩ := by
    have hfetch : (instructions p.lines)[σ.pc + 1]? = some (.jump .zero .always) :=
      hline.right.head rfl
    rw [step, hfetch]; rfl
  exact ⟨_, (Reaches.of_run (run_exec hline.left hload).1).trans (.of_step hjump), rfl, rfl⟩

/-- The lines of a call that save its caller's frame. -/
def saveLines (c : Context) : List Line :=
  [addressOf c.returnLabel, .assign .d .a] ++ pushD ++
    ["LCL", "ARG", "THIS", "THAT"].flatMap fun r => loadCell (.symbol r) ++ pushD

/-- The lines of a call that give its callee a frame. -/
def frameLines (n : Nat) : List Line :=
  loadCell (.symbol "SP") ++ [Line.address (.literal (frameSize + n)), .assign .d .dMinusA] ++
    storeCell (.symbol "ARG") ++ loadCell (.symbol "SP") ++ storeCell (.symbol "LCL")

theorem lowerCall_eq (c : Context) (name : String) (n : Nat) :
    lowerCall c name n = saveLines c ++ frameLines n ++ goto name ++ [.label c.returnLabel] := by
  simp only [lowerCall, saveLines, frameLines, List.append_assoc]

/-- The memory after a call, which comes back to an address. -/
def enterFrame (ram : Ram) (back : Word) (n : Nat) : Ram :=
  Function.update
    (Function.update (pushWords ram [back, ram LCL, ram ARG, ram THIS, ram THAT]) ARG
      (ram SP - BitVec.ofNat 16 n)) LCL (ram SP + 5)

theorem exec_saveLines {back : Word} (hb : p.resolve (.symbol c.returnLabel) = back)
    (hsp : 256 ≤ (σ.ram SP).toNat) (hfit : (σ.ram SP).toNat + 5 < 2 ^ 16) :
    ∃ σ', p.exec (saveLines c) σ = some σ' ∧
      σ'.ram = pushWords σ.ram [back, σ.ram LCL, σ.ram ARG, σ.ram THIS, σ.ram THAT] := by
  have hback : p.exec [addressOf c.returnLabel, .assign .d .a] σ =
      some ⟨back, back, σ.ram, σ.pc + 2⟩ := by rw [← hb]; rfl
  obtain ⟨τ, hτ, hram⟩ : ∃ τ, p.exec ([addressOf c.returnLabel, .assign .d .a] ++ pushD) σ =
      some τ ∧ τ.ram = pushWord σ.ram back :=
    ⟨_, exec_seq hback (exec_pushD (σ := ⟨back, back, σ.ram, σ.pc + 2⟩) hsp), rfl⟩
  have hnext := toNat_pushWord_SP σ.ram back (by omega)
  rw [← hram] at hnext
  obtain ⟨σ', hx, hσ'⟩ := exec_saveRegisters (p := p) (σ := τ)
    ["LCL", "ARG", "THIS", "THAT"] (by omega)
    (by simp only [List.length_cons, List.length_nil]; omega) (by simp; decide)
  have hlow {r : Word} (hr : r ≠ SP) (hr' : r.toNat < 256 := by decide) : τ.ram r = σ.ram r := by
    rw [hram, pushWord_of_ne hr (ne_of_high hsp hr').symm]
  refine ⟨σ', exec_seq hτ hx, ?_⟩
  rw [hσ']
  simp only [List.map_cons, List.map_nil, resolve_LCL, resolve_ARG, resolve_THIS, resolve_THAT,
    hlow (by decide : LCL ≠ SP), hlow (by decide : ARG ≠ SP), hlow (by decide : THIS ≠ SP),
    hlow (by decide : THAT ≠ SP)]
  rw [hram, ← pushWords_cons]

theorem exec_frameLines (n : Nat) :
    p.exec (frameLines n) σ = some ⟨LCL, σ.ram SP, Function.update
      (Function.update σ.ram ARG (σ.ram SP - BitVec.ofNat 16 (frameSize + n))) LCL (σ.ram SP),
      σ.pc + 10⟩ := by
  simp only [frameLines, exec_append, exec_loadCell, exec_storeCell, exec, perform,
    Destination.store, Comp.value?, Option.map_some, Option.bind_some, resolve_SP, resolve_ARG,
    resolve_LCL, resolve_literal, Function.update_of_ne (by decide : SP ≠ ARG)]

/-- A call goes to its function. -/
theorem reaches_call {name : String} {n : Nat} (h : p.Holds σ.pc (lowerCall c name n))
    (hsp : 256 ≤ (σ.ram SP).toNat) (hfit : (σ.ram SP).toNat + 5 < 2 ^ 16) :
    ∃ σ', p.Reaches σ σ' ∧ σ'.pc = (p.resolve (.symbol name)).toNat ∧
      σ'.ram = enterFrame σ.ram (p.resolve (.symbol c.returnLabel)) n := by
  rw [lowerCall_eq] at h
  obtain ⟨σ₁, hsave, hram₁⟩ := exec_saveLines (p := p) (c := c) (σ := σ) rfl hsp hfit
  have hbody := exec_seq hsave (exec_frameLines (σ := σ₁) n)
  obtain ⟨hrun, hpc⟩ := run_exec h.left.left hbody
  obtain ⟨σ', hgoto, hentry, hram⟩ := reaches_goto (hpc ▸ h.left.right)
  refine ⟨σ', (Reaches.of_run hrun).trans hgoto, hentry, ?_⟩
  have hsp₁ : σ₁.ram SP = σ.ram SP + 5 := by rw [hram₁, pushWords_SP]; rfl
  have harg : σ.ram SP + 5 - BitVec.ofNat 16 (frameSize + n) = σ.ram SP - BitVec.ofNat 16 n := by
    rw [BitVec.ofNat_add]
    simp only [frameSize]
    bv_omega
  rw [hram, hsp₁, harg, hram₁, enterFrame]

/-- A function starts with its local variables at zero. -/
theorem run_lowerFunction {name : String} {k : Nat} (h : p.Holds σ.pc (lowerFunction name k))
    (hsp : 256 ≤ (σ.ram SP).toNat) (hfit : (σ.ram SP).toNat + k < 2 ^ 16) :
    ∃ σ', p.Reaches σ σ' ∧ σ'.pc = σ.pc + size (lowerFunction name k) ∧
      σ'.ram = pushWords σ.ram (List.replicate k 0) := by
  obtain ⟨σ', hx, hram⟩ := exec_pushZeros (p := p) hsp hfit
  have hbody : p.exec (lowerFunction name k) σ = some σ' := hx
  obtain ⟨hrun, hpc⟩ := run_exec h hbody
  exact ⟨σ', .of_run hrun, hpc, hram⟩

/-- The frame of the running function is in `R13`, and the four cells below it hold the
caller's registers. -/
structure Kept (frame : Word) (saved : Nat → Word) (ram : Ram) : Prop where
  frame_eq : ram R13 = frame
  high : ∀ d, 1 ≤ d → d ≤ 4 → 256 ≤ (frame - BitVec.ofNat 16 d).toNat
  saved_eq : ∀ d, 1 ≤ d → d ≤ 4 → ram (frame - BitVec.ofNat 16 d) = saved d

/-- A change of a register does not reach the saved cells. -/
theorem Kept.update {frame r v : Word} {saved : Nat → Word} (h : Kept frame saved ram)
    (hr : r ≠ R13) (hlow : r.toNat < 256) : Kept frame saved (Function.update ram r v) where
  frame_eq := by rw [Function.update_of_ne hr.symm, h.frame_eq]
  high := h.high
  saved_eq d hd hd' := by
    rw [Function.update_of_ne (ne_of_high (h.high d hd hd') hlow), h.saved_eq d hd hd']

/-- A register is loaded from a cell below the frame. -/
theorem exec_restore {frame r : Word} {saved : Nat → Word} {d : Nat} {register : String}
    (h : Kept frame saved σ.ram) (hr : p.resolve (.symbol register) = r) (hd : 1 ≤ d)
    (hd' : d ≤ 4) :
    ∃ σ', p.exec (restore d register) σ = some σ' ∧
      σ'.ram = Function.update σ.ram r (saved d) := by
  refine ⟨⟨r, saved d, Function.update σ.ram r (saved d), σ.pc + 7⟩, ?_, rfl⟩
  simp only [restore, exec_append, exec_loadCell, exec_storeCell, exec, perform,
    Destination.store, Comp.value?, Option.map_some, Option.bind_some, resolve_R13,
    resolve_literal, hr, h.frame_eq, h.saved_eq d hd hd']

/-- The lines of a return that restore the caller's registers. -/
def restoreLines : List Line :=
  restore 1 "THAT" ++ restore 2 "THIS" ++ restore 3 "ARG" ++ restore 4 "LCL"

/-- The caller's registers are restored one after the other. -/
theorem exec_restoreLines {frame : Word} {saved : Nat → Word} (h : Kept frame saved σ.ram) :
    ∃ σ', p.exec restoreLines σ = some σ' ∧ σ'.ram = Function.update
      (Function.update (Function.update (Function.update σ.ram THAT (saved 1)) THIS (saved 2))
        ARG (saved 3)) LCL (saved 4) := by
  obtain ⟨σ₁, hx₁, hram₁⟩ := exec_restore (p := p) h resolve_THAT (by decide) (d := 1) (by decide)
  have h₁ : Kept frame saved σ₁.ram := hram₁ ▸ h.update (by decide) (by decide)
  obtain ⟨σ₂, hx₂, hram₂⟩ := exec_restore (p := p) h₁ resolve_THIS (by decide) (d := 2) (by decide)
  have h₂ : Kept frame saved σ₂.ram := hram₂ ▸ h₁.update (by decide) (by decide)
  obtain ⟨σ₃, hx₃, hram₃⟩ := exec_restore (p := p) h₂ resolve_ARG (by decide) (d := 3) (by decide)
  have h₃ : Kept frame saved σ₃.ram := hram₃ ▸ h₂.update (by decide) (by decide)
  obtain ⟨σ₄, hx₄, hram₄⟩ := exec_restore (p := p) h₃ resolve_LCL (by decide) (d := 4) (by decide)
  refine ⟨σ₄, exec_seq (exec_seq (exec_seq hx₁ hx₂) hx₃) hx₄, ?_⟩
  rw [hram₄, hram₃, hram₂, hram₁]

/-- The lines of a return that keep the callee's frame and its return address. -/
def keepLines : List Line :=
  loadCell (.symbol "LCL") ++ storeCell (.symbol "R13") ++
    [Line.address (.literal frameSize), .assign .a .dMinusA, .assign .d .m] ++
    storeCell (.symbol "R14")

/-- The lines of a return that put the result in the place of the arguments. -/
def resultLines : List Line :=
  popD ++ [addressOf "ARG", .assign .a .m, .assign .m .d] ++
    [addressOf "ARG", .assign .d .incM] ++ storeCell (.symbol "SP")

theorem lowerReturn_eq :
    lowerReturn = keepLines ++ resultLines ++ restoreLines ++
      [addressOf "R14", .assign .a .m] ++ [.jump .zero .always] := by
  simp [lowerReturn, keepLines, resultLines, restoreLines]

theorem exec_keepLines (hlcl : 256 ≤ (σ.ram LCL - 5).toNat) :
    ∃ σ', p.exec keepLines σ = some σ' ∧ σ'.ram = Function.update
      (Function.update σ.ram R13 (σ.ram LCL)) R14 (σ.ram (σ.ram LCL - 5)) := by
  have hread : Function.update σ.ram R13 (σ.ram LCL) (σ.ram LCL - 5) = σ.ram (σ.ram LCL - 5) :=
    Function.update_of_ne (ne_of_high hlcl) ..
  refine ⟨⟨R14, σ.ram (σ.ram LCL - 5), Function.update (Function.update σ.ram R13 (σ.ram LCL)) R14
    (σ.ram (σ.ram LCL - 5)), σ.pc + 9⟩, ?_, rfl⟩
  rw [← hread]
  simp only [keepLines, exec_append, exec_loadCell, exec_storeCell, exec, perform,
    Destination.store, Comp.value?, Option.map_some, Option.bind_some, resolve_LCL, resolve_R13,
    resolve_R14]
  rfl

theorem exec_resultLines (hsp : 256 ≤ (σ.ram SP - 1).toNat) (harg : 256 ≤ (σ.ram ARG).toNat) :
    ∃ σ', p.exec resultLines σ = some σ' ∧ σ'.ram = Function.update
      (Function.update σ.ram (σ.ram ARG) (σ.ram (σ.ram SP - 1))) SP (σ.ram ARG + 1) := by
  obtain ⟨t, ht⟩ : ∃ t, σ.ram SP - 1 = t := ⟨_, rfl⟩
  obtain ⟨a, ha⟩ : ∃ a, σ.ram ARG = a := ⟨_, rfl⟩
  have hARG {w : Word} : Function.update σ.ram SP w ARG = a := by
    rw [Function.update_of_ne (by decide), ha]
  have hARG' {w v : Word} : Function.update (Function.update σ.ram a v) SP w ARG = a := by
    rw [Function.update_of_ne (by decide), Function.update_of_ne (ne_of_high (ha ▸ harg)).symm, ha]
  have hcomm {w v : Word} : Function.update (Function.update σ.ram SP w) a v =
      Function.update (Function.update σ.ram a v) SP w :=
    Function.update_comm (ne_of_high (ha ▸ harg)).symm ..
  refine ⟨⟨SP, a + 1, Function.update (Function.update σ.ram a (σ.ram t)) SP (a + 1),
    σ.pc + 11⟩, ?_, by rw [ha, ht]⟩
  simp only [resultLines, exec_append, exec_popD hsp, exec_storeCell, exec,
    perform, addressOf, Destination.store, Comp.value?, Option.map_some, Option.bind_some,
    resolve_ARG, resolve_SP, ht, hARG, hARG', hcomm, Function.update_idem]

/-- The memory of a return that has kept the callee's frame and delivered its result. -/
def deliver (ram : Ram) : Ram :=
  Function.update
    (Function.update
      (Function.update (Function.update ram R13 (ram LCL)) R14 (ram (ram LCL - 5))) (ram ARG)
      (ram (ram SP - 1))) SP (ram ARG + 1)

/-- The memory after a return. -/
def leaveFrame (ram : Ram) : Ram :=
  Function.update
    (Function.update
      (Function.update (Function.update (deliver ram) THAT (ram (ram LCL - 1))) THIS
        (ram (ram LCL - 2))) ARG (ram (ram LCL - 3))) LCL (ram (ram LCL - 4))

theorem deliver_of_high {a : Word} (ha : 256 ≤ a.toNat) (hne : a ≠ ram ARG) :
    deliver ram a = ram a := by
  rw [deliver, Function.update_of_ne (ne_of_high ha), Function.update_of_ne hne,
    Function.update_of_ne (ne_of_high ha), Function.update_of_ne (ne_of_high ha)]

theorem deliver_R13 (harg : 256 ≤ (ram ARG).toNat) : deliver ram R13 = ram LCL := by
  rw [deliver, Function.update_of_ne (by decide), Function.update_of_ne (ne_of_high harg).symm,
    Function.update_of_ne (by decide), Function.update_self]

theorem deliver_R14 (harg : 256 ≤ (ram ARG).toNat) : deliver ram R14 = ram (ram LCL - 5) := by
  rw [deliver, Function.update_of_ne (by decide), Function.update_of_ne (ne_of_high harg).symm,
    Function.update_self]

theorem exec_deliver (hlcl : 256 ≤ (σ.ram LCL - 5).toNat) (hsp : 256 ≤ (σ.ram SP - 1).toNat)
    (harg : 256 ≤ (σ.ram ARG).toNat) :
    ∃ σ', p.exec (keepLines ++ resultLines) σ = some σ' ∧ σ'.ram = deliver σ.ram := by
  obtain ⟨τ, hτ, hram⟩ := exec_keepLines (p := p) hlcl
  have hkeep {a : Word} (h₁ : a ≠ R13) (h₂ : a ≠ R14) : τ.ram a = σ.ram a := by
    rw [hram, Function.update_of_ne h₂, Function.update_of_ne h₁]
  have hSP : τ.ram SP = σ.ram SP := hkeep (by decide) (by decide)
  have hARG : τ.ram ARG = σ.ram ARG := hkeep (by decide) (by decide)
  obtain ⟨σ', hx, hσ'⟩ := exec_resultLines (p := p) (σ := τ) (hSP ▸ hsp) (hARG ▸ harg)
  refine ⟨σ', exec_seq hτ hx, ?_⟩
  rw [hσ', hSP, hARG, hkeep (ne_of_high hsp) (ne_of_high hsp), hram, deliver]

/-- The saved cells that a return reads last lie above the cell that it writes the result
to. -/
theorem kept_deliver (harg : 256 ≤ (ram ARG).toNat)
    (hframe : (ram ARG).toNat + 5 ≤ (ram LCL).toNat) :
    Kept (ram LCL) (fun d => ram (ram LCL - BitVec.ofNat 16 d)) (deliver ram) where
  frame_eq := deliver_R13 harg
  high d hd hd' := by
    rw [Word.toNat_sub_ofNat (by omega)]
    omega
  saved_eq d hd hd' := by
    have hcell := Word.toNat_sub_ofNat (s := ram LCL) (i := d) (by omega)
    refine deliver_of_high (by omega) fun he => ?_
    rw [he] at hcell
    omega

/-- A return goes back to its caller. -/
theorem reaches_return (h : p.Holds σ.pc lowerReturn) (harg : 256 ≤ (σ.ram ARG).toNat)
    (hframe : (σ.ram ARG).toNat + 5 ≤ (σ.ram LCL).toNat) (hsp : 256 < (σ.ram SP).toNat) :
    ∃ σ', p.Reaches σ σ' ∧ σ'.pc = (σ.ram (σ.ram LCL - 5)).toNat ∧
      σ'.ram = leaveFrame σ.ram := by
  rw [lowerReturn_eq] at h
  obtain ⟨σ₁, hx₁, hram₁⟩ := exec_deliver (p := p) (σ := σ) (by bv_omega) (by bv_omega) harg
  -- without arguments the result is where the return address was, which is why it was kept
  obtain ⟨σ₂, hx₂, hram₂⟩ := exec_restoreLines (p := p) (hram₁ ▸ kept_deliver harg hframe)
  have hback : σ₂.ram R14 = σ.ram (σ.ram LCL - 5) := by
    rw [hram₂, Function.update_of_ne (by decide), Function.update_of_ne (by decide),
      Function.update_of_ne (by decide), Function.update_of_ne (by decide), hram₁,
      deliver_R14 harg]
  have hx₃ : p.exec [addressOf "R14", .assign .a .m] σ₂ =
      some ⟨σ.ram (σ.ram LCL - 5), σ₂.d, σ₂.ram, σ₂.pc + 2⟩ := by
    rw [← hback]
    simp only [addressOf, exec, perform, Destination.store, Comp.value?, Option.map_some,
      Option.bind_some, resolve_R14]
  obtain ⟨hrun, hpc⟩ := run_exec h.left (exec_seq (exec_seq hx₁ hx₂) hx₃)
  have hjump : p.step ⟨σ.ram (σ.ram LCL - 5), σ₂.d, σ₂.ram, σ₂.pc + 2⟩ =
      some ⟨σ.ram (σ.ram LCL - 5), σ₂.d, σ₂.ram, (σ.ram (σ.ram LCL - 5)).toNat⟩ := by
    have hfetch : (instructions p.lines)[σ₂.pc + 2]? = some (.jump .zero .always) :=
      (hpc ▸ h.right).head rfl
    rw [step, hfetch]; rfl
  refine ⟨_, (Reaches.of_run hrun).trans (.of_step hjump), rfl, ?_⟩
  rw [hram₂, hram₁]; rfl

/-- The five cells at `s` hold a return address and the registers of a caller. -/
structure Saved (caller : Ram) (s back : Word) (ram : Ram) : Prop where
  back_eq : ram s = back
  lcl_eq : ram (s + 1) = caller LCL
  arg_eq : ram (s + 2) = caller ARG
  this_eq : ram (s + 3) = caller THIS
  that_eq : ram (s + 4) = caller THAT

section enterFrame

variable {s a back : Word} {n : Nat}

theorem saved_enterFrame (hs : ram SP = s) (hlow : 256 ≤ s.toNat) (hfit : s.toNat + 5 < 2 ^ 16) :
    Saved ram s back (enterFrame ram back n) := by
  subst hs
  have hcell {i : Nat} (hi : i < 5) : enterFrame ram back n (ram SP + BitVec.ofNat 16 i) =
      [back, ram LCL, ram ARG, ram THIS, ram THAT][i] := by
    have hhigh := Word.toNat_add_ofNat (s := ram SP) (i := i) (by omega)
    rw [enterFrame, Function.update_of_ne (ne_of_high (by omega)),
      Function.update_of_ne (ne_of_high (by omega))]
    exact pushWords_getElem hlow (by simpa using hfit) hi
  have h₀ := hcell (i := 0) (by decide)
  rw [BitVec.add_zero] at h₀
  exact ⟨h₀, hcell (i := 1) (by decide), hcell (i := 2) (by decide), hcell (i := 3) (by decide),
    hcell (i := 4) (by decide)⟩

theorem enterFrame_SP : enterFrame ram back n SP = ram SP + 5 := by
  rw [enterFrame, Function.update_of_ne (by decide), Function.update_of_ne (by decide),
    pushWords_SP]
  rfl

theorem enterFrame_of_outside (hfit : (ram SP).toNat + 5 < 2 ^ 16) (h₀ : a ≠ SP) (h₁ : a ≠ LCL)
    (h₂ : a ≠ ARG) (ha : a.toNat < (ram SP).toNat ∨ (ram SP).toNat + 5 ≤ a.toNat) :
    enterFrame ram back n a = ram a := by
  rw [enterFrame, Function.update_of_ne h₁, Function.update_of_ne h₂,
    pushWords_of_outside hfit h₀ ha]

end enterFrame

/-- The cells that a return writes to. -/
theorem leaveFrame_of_ne {a : Word}
    (ha : a ∉ [SP, LCL, ARG, THIS, THAT, R13, R14, ram ARG]) : leaveFrame ram a = ram a := by
  simp only [List.mem_cons, List.not_mem_nil, or_false, not_or] at ha
  obtain ⟨h₀, h₁, h₂, h₃, h₄, h₁₃, h₁₄, h⟩ := ha
  simp only [leaveFrame, deliver, Function.update_of_ne h₀, Function.update_of_ne h₁,
    Function.update_of_ne h₂, Function.update_of_ne h₃, Function.update_of_ne h₄,
    Function.update_of_ne h₁₃, Function.update_of_ne h₁₄, Function.update_of_ne h]

/-- What a return restores, for a callee whose frame lies behind the saved cells. -/
theorem leaveFrame_saved {caller : Ram} {s a back : Word} (hlcl : ram LCL = s + 5)
    (harg : ram ARG = a) (hhigh : 256 ≤ a.toNat) (hs : Saved caller s back ram) :
    leaveFrame ram a = ram (ram SP - 1) ∧ leaveFrame ram SP = a + 1 ∧
      leaveFrame ram LCL = caller LCL ∧ leaveFrame ram ARG = caller ARG ∧
      leaveFrame ram THIS = caller THIS ∧ leaveFrame ram THAT = caller THAT := by
  have hne {r : Word} (hr : r.toNat < 256 := by decide) : a ≠ r := ne_of_high hhigh hr
  have h₁ : ram LCL - 1 = s + 4 := by rw [hlcl]; bv_omega
  have h₂ : ram LCL - 2 = s + 3 := by rw [hlcl]; bv_omega
  have h₃ : ram LCL - 3 = s + 2 := by rw [hlcl]; bv_omega
  have h₄ : ram LCL - 4 = s + 1 := by rw [hlcl]; bv_omega
  simp only [leaveFrame, h₁, h₂, h₃, h₄, hs.lcl_eq, hs.arg_eq, hs.this_eq, hs.that_eq]
  refine ⟨?result, ?sp, Function.update_self .., ?arg, ?this, ?that⟩
  case result =>
    rw [Function.update_of_ne hne, Function.update_of_ne hne, Function.update_of_ne hne,
      Function.update_of_ne hne, deliver, Function.update_of_ne hne, harg, Function.update_self]
  case sp =>
    rw [Function.update_of_ne (by decide), Function.update_of_ne (by decide),
      Function.update_of_ne (by decide), Function.update_of_ne (by decide), deliver, harg,
      Function.update_self]
  case arg => rw [Function.update_of_ne (by decide), Function.update_self]
  case this =>
    rw [Function.update_of_ne (by decide), Function.update_of_ne (by decide), Function.update_self]
  case that =>
    rw [Function.update_of_ne (by decide), Function.update_of_ne (by decide),
      Function.update_of_ne (by decide), Function.update_self]

/-- The label behind a call stands for the address of the next line. -/
theorem resolve_returnLabel {name : String} {n : Nat} (h : p.Holds σ.pc (lowerCall c name n))
    (hr : p.DefinesOnce c.returnLabel) :
    (p.resolve (.symbol c.returnLabel)).toNat = σ.pc + size (lowerCall c name n) := by
  have hsize : size (lowerCall c name n) =
      size (saveLines c ++ frameLines n ++ goto name) := by
    rw [lowerCall_eq, size_append]; rfl
  have hfit := h.start_lt
  rw [lowerCall_eq] at h
  rw [h.right.resolve_label hr, hsize, BitVec.toNat_ofNat, Nat.mod_eq_of_lt (by omega)]

/-- **The calling convention.** Take a call with `n` arguments of a function with `k` local
variables, from a caller whose stack ends at `s`. The call saves the caller's frame and
enters the function, the function puts its local variables behind the frame, and a return
goes back behind the call. The return may come from any state that has kept the saved
cells, `LCL` and `ARG`. It leaves the result in the place of the arguments, and the
registers of the caller. -/
theorem call_return {f : String} {n k entry : Nat} {s : Word} (hf : p.DefinesOnce f)
    (hr : p.DefinesOnce c.returnLabel) (hcall : p.Holds σ.pc (lowerCall c f n))
    (hfun : p.Holds entry (lowerFunction f k)) (hs : σ.ram SP = s) (hargs : 256 + n ≤ s.toNat)
    (hroom : s.toNat + 5 + k < 2 ^ 16) :
    (p.resolve (.symbol c.returnLabel)).toNat = σ.pc + size (lowerCall c f n) ∧
    ∃ σ₁ σ₂,
      (p.Reaches σ σ₁ ∧ σ₁.pc = entry ∧
        Saved σ.ram s (p.resolve (.symbol c.returnLabel)) σ₁.ram ∧
        σ₁.ram ARG = s - BitVec.ofNat 16 n ∧ σ₁.ram LCL = s + 5 ∧ σ₁.ram SP = s + 5 ∧
        ∀ a, a ∉ [SP, LCL, ARG] → (a.toNat < s.toNat ∨ s.toNat + 5 ≤ a.toNat) →
          σ₁.ram a = σ.ram a) ∧
      (p.Reaches σ₁ σ₂ ∧ σ₂.pc = entry + size (lowerFunction f k) ∧
        σ₂.ram SP = s + 5 + BitVec.ofNat 16 k ∧
        (∀ i < k, σ₂.ram (s + 5 + BitVec.ofNat 16 i) = 0) ∧
        ∀ a, a ≠ SP → (a.toNat < s.toNat + 5 ∨ s.toNat + 5 + k ≤ a.toNat) →
          σ₂.ram a = σ₁.ram a) ∧
      ∀ τ : Cpu, p.Holds τ.pc lowerReturn → τ.ram LCL = s + 5 →
        τ.ram ARG = s - BitVec.ofNat 16 n →
        Saved σ.ram s (p.resolve (.symbol c.returnLabel)) τ.ram →
        s.toNat + 5 < (τ.ram SP).toNat →
        ∃ τ', p.Reaches τ τ' ∧ τ'.pc = σ.pc + size (lowerCall c f n) ∧
          τ'.ram (s - BitVec.ofNat 16 n) = τ.ram (τ.ram SP - 1) ∧
          τ'.ram SP = s - BitVec.ofNat 16 n + 1 ∧ τ'.ram LCL = σ.ram LCL ∧
          τ'.ram ARG = σ.ram ARG ∧ τ'.ram THIS = σ.ram THIS ∧ τ'.ram THAT = σ.ram THAT ∧
          ∀ a, a ∉ [SP, LCL, ARG, THIS, THAT, R13, R14, s - BitVec.ofNat 16 n] →
            τ'.ram a = τ.ram a := by
  have hback := resolve_returnLabel hcall hr
  have hentry : (p.resolve (.symbol f)).toNat = entry := by
    have hfit := hfun.start_lt
    rw [hfun.resolve_label hf, BitVec.toNat_ofNat, Nat.mod_eq_of_lt (by omega)]
  have hlow : 256 ≤ (σ.ram SP).toNat := by rw [hs]; omega
  have hfit : (σ.ram SP).toNat + 5 < 2 ^ 16 := by rw [hs]; omega
  obtain ⟨σ₁, hreach₁, hpc₁, hram₁⟩ := reaches_call hcall hlow hfit
  rw [hentry] at hpc₁
  have hSP₁ : σ₁.ram SP = s + 5 := by rw [hram₁, enterFrame_SP, hs]
  have htop : (σ₁.ram SP).toNat = s.toNat + 5 := by
    rw [hSP₁]; exact Word.toNat_add_ofNat (i := 5) (by omega)
  -- the local variables start where the frame of the call ends
  have hzeros : (List.replicate k (0 : Word)).length = k := List.length_replicate ..
  obtain ⟨σ₂, hreach₂, hpc₂, hram₂⟩ :=
    run_lowerFunction (σ := σ₁) (hpc₁ ▸ hfun) (by omega) (by omega)
  refine ⟨hback, σ₁, σ₂, ⟨hreach₁, hpc₁, ?saved, ?arg, ?lcl, hSP₁, ?frame₁⟩,
    ⟨hreach₂, hpc₁ ▸ hpc₂, ?sp, ?locals, ?frame₂⟩, fun τ hτ hlcl harg hsaved hbelow => ?leave⟩
  case saved => rw [hram₁]; exact saved_enterFrame hs (by omega) (by omega)
  case arg =>
    rw [hram₁, enterFrame, Function.update_of_ne (by decide), Function.update_self, hs]
  case lcl => rw [hram₁, enterFrame, Function.update_self, hs]
  case frame₁ =>
    intro a hne ha
    simp only [List.mem_cons, List.not_mem_nil, or_false, not_or] at hne
    rw [hram₁, enterFrame_of_outside hfit hne.1 hne.2.1 hne.2.2 (hs ▸ ha)]
  case sp => rw [hram₂, pushWords_SP, hSP₁, hzeros]
  case locals =>
    intro i hi
    rw [hram₂, ← hSP₁, pushWords_getElem (by omega) (by omega) (by omega), List.getElem_replicate]
  case frame₂ =>
    intro a hne ha
    rw [hram₂, pushWords_of_outside (by omega) hne (by omega)]
  case leave =>
    -- the result is written below all the saved cells but, if `n = 0`, the first
    have hslot := Word.toNat_sub_ofNat (s := s) (i := n) (by omega)
    have hARG : (τ.ram ARG).toNat = s.toNat - n := by rw [harg, hslot]
    have hLCL : (τ.ram LCL).toNat = s.toNat + 5 := by rw [hlcl, ← hSP₁, htop]
    obtain ⟨τ', hreach, hpc, hram⟩ := reaches_return hτ (by omega) (by omega) (by omega)
    obtain ⟨hresult, hsp, hregs⟩ := leaveFrame_saved hlcl harg (by omega) hsaved
    have hreturn : τ.ram LCL - 5 = s := by rw [hlcl]; bv_omega
    rw [hreturn, hsaved.back_eq, hback] at hpc
    rw [← hram] at hresult hsp hregs
    refine ⟨τ', hreach, hpc, hresult, hsp, hregs.1, hregs.2.1, hregs.2.2.1, hregs.2.2.2, ?_⟩
    intro a ha
    rw [hram, leaveFrame_of_ne (by rwa [harg])]

/-- A call without arguments of a function that returns its first local variable: the
result takes the cell of the return address. -/
theorem call_return_local :
    ∃ (p : Assembled) (c : Context) (σ τ : Cpu),
      p.lines = lowerCall c "Main.f" 0 ++ lowerFunction "Main.f" 1 ++ lowerReturn ∧
      σ.pc = 0 ∧ σ.ram SP = 300 ∧ σ.ram LCL = 7 ∧ p.Reaches σ τ ∧
      τ.pc = size (lowerCall c "Main.f" 0) ∧ τ.ram 300 = 0 ∧ τ.ram SP = 301 ∧
      τ.ram LCL = 7 := by
  obtain ⟨c, hc⟩ : ∃ c : Context, c = ⟨"Main", some "Main.main", 0, 0⟩ := ⟨_, rfl⟩
  obtain ⟨p, hp⟩ : ∃ p : Assembled,
      p.lines = lowerCall c "Main.f" 0 ++ lowerFunction "Main.f" 1 ++ lowerReturn :=
    ⟨⟨_, by rw [hc]; decide⟩, rfl⟩
  obtain ⟨σ, hσ⟩ : ∃ σ : Cpu, σ = ⟨0, 0, fun a => if a = SP then 300 else 7, 0⟩ := ⟨_, rfl⟩
  have hf : p.DefinesOnce "Main.f" := ⟨by decide, by rw [hp, hc]; decide⟩
  have hr : p.DefinesOnce c.returnLabel := ⟨by rw [hc]; decide, by rw [hp, hc]; decide⟩
  have hheld : p.Holds σ.pc (lowerCall c "Main.f" 0 ++ lowerFunction "Main.f" 1 ++ lowerReturn) := by
    rw [← hp, hσ]; exact Holds.self p
  have hSP : σ.ram SP = 300 := by rw [hσ]; rfl
  have hLCL : σ.ram LCL = 7 := by rw [hσ]; rfl
  have hpc : σ.pc = 0 := by rw [hσ]
  obtain ⟨-, σ₁, σ₂, ⟨hreach₁, -, hsaved, harg, hlcl, -, -⟩,
    ⟨hreach₂, hpc₂, hsp₂, hzero, hkeep⟩, hreturn⟩ :=
    call_return hf hr hheld.left.left hheld.left.right hSP (by decide) (by decide)
  have hsaved₂ : Saved σ.ram 300 (p.resolve (.symbol c.returnLabel)) σ₂.ram :=
    ⟨(hkeep 300 (by decide) (by decide)).trans hsaved.back_eq,
      (hkeep 301 (by decide) (by decide)).trans hsaved.lcl_eq,
      (hkeep 302 (by decide) (by decide)).trans hsaved.arg_eq,
      (hkeep 303 (by decide) (by decide)).trans hsaved.this_eq,
      (hkeep 304 (by decide) (by decide)).trans hsaved.that_eq⟩
  obtain ⟨τ, hreach, hback, hresult, hsp, hregs, -⟩ := hreturn σ₂
    (by rw [hpc₂, Nat.add_assoc, ← size_append]; exact hheld.right)
    ((hkeep LCL (by decide) (by decide)).trans hlcl)
    ((hkeep ARG (by decide) (by decide)).trans harg) hsaved₂ (by rw [hsp₂]; decide)
  refine ⟨p, c, σ, τ, hp, hpc, hSP, hLCL, hreach₁.trans (hreach₂.trans hreach), ?_, ?_, hsp,
    hregs.trans hLCL⟩
  · rw [hback, hpc, Nat.zero_add]
  · have hlocal : σ₂.ram 305 = 0 := hzero 0 (by decide)
    have htop : σ₂.ram SP - 1 = 305 := by rw [hsp₂]; decide
    rw [← hlocal, ← htop]; exact hresult

end JackToolchain.Hack
