import Mathlib.Logic.Relation
import JackToolchain.Proofs.Vm.Machine

/-!
# Runs inside a subroutine

The machine goes through the code of one subroutine and jumps to the labels in it. It stops
at `return`, which belongs to the calling convention.

* `step`, `Reaches`: the machine with its jumps.
* `Holds`: code stands at a place of a program.
* `reaches_exec`: instructions without jumps run from the first to the last.
* `step_goto`, `step_ifGoto`: a jump goes to its label if no label is defined twice.
* `Reaches.unique`: a run stops in one configuration.
-/

namespace JackToolchain.Vm

/-- The machine at an instruction of a program. -/
structure Config where
  pc : Nat
  state : State

/-- One step of the machine inside the code of a subroutine, which it leaves at `return`. -/
def step (μ : Meaning) (program : List Instruction) (c : Config) : Option Config :=
  match program[c.pc]? with
  | some (.label _) => some { c with pc := c.pc + 1 }
  | some (.goto name) => (program.idxOf? (.label name)).map ({ c with pc := · })
  | some (.ifGoto name) =>
    match c.state.stack with
    | v :: stack =>
      if v = 0 then some ⟨c.pc + 1, { c.state with stack }⟩
      else (program.idxOf? (.label name)).map (⟨·, { c.state with stack }⟩)
    | [] => none
  | some i => (effect μ c.state i).map (⟨c.pc + 1, ·⟩)
  | none => none

/-- The machine gets from one configuration to another. -/
def Reaches (μ : Meaning) (program : List Instruction) : Config → Config → Prop :=
  Relation.ReflTransGen fun c d => step μ program c = some d

/-- Code stands in a program, its first instruction at an index. -/
def Holds (program : List Instruction) (pc : Nat) (code : List Instruction) : Prop :=
  ∃ before after, program = before ++ code ++ after ∧ pc = before.length

/-- The index behind code. -/
def behind (pc : Nat) (code : List Instruction) : Nat :=
  pc + code.length

theorem behind_nil (pc : Nat) : behind pc [] = pc := rfl

theorem behind_append (pc : Nat) (code more : List Instruction) :
    behind pc (code ++ more) = behind (behind pc code) more := by
  rw [behind, behind, behind, List.length_append, Nat.add_assoc]

theorem behind_cons (pc : Nat) (i : Instruction) (code : List Instruction) :
    behind pc (i :: code) = behind (pc + 1) code :=
  behind_append pc [i] code

theorem le_behind (pc : Nat) (code : List Instruction) : pc ≤ behind pc code :=
  Nat.le_add_right ..

/-- The label that an instruction defines. -/
@[simp] def Instruction.labelName? : Instruction → Option String
  | .label name => some name
  | _ => none

/-- The labels that code defines. -/
def labelNames (code : List Instruction) : List String :=
  code.filterMap Instruction.labelName?

@[simp] theorem labelNames_nil : labelNames [] = [] := rfl

@[simp] theorem labelNames_cons (i : Instruction) (code : List Instruction) :
    labelNames (i :: code) = i.labelName?.toList ++ labelNames code := by
  cases i <;> rfl

@[simp] theorem labelNames_append (code more : List Instruction) :
    labelNames (code ++ more) = labelNames code ++ labelNames more :=
  List.filterMap_append

@[simp] theorem labelNames_map_label {α : Type} (f : α → String) (xs : List α) :
    labelNames (xs.map fun x => .label (f x)) = xs.map f := by
  induction xs with
  | nil => rfl
  | cons x xs ih => simp [ih]

theorem mem_labelNames {code : List Instruction} {name : String} :
    name ∈ labelNames code ↔ .label name ∈ code := by
  rw [labelNames, List.mem_filterMap]
  constructor
  · rintro ⟨i, hi, hn⟩
    cases i <;> cases hn
    exact hi
  · intro h
    exact ⟨_, h, rfl⟩

/-- Whether an instruction neither defines a label nor leaves the code that follows it. -/
@[simp] def Instruction.isStraight : Instruction → Bool
  | .push _ _ | .pop _ _ | .operate _ | .call _ _ => true
  | _ => false

theorem labelNames_of_straight {code : List Instruction} (h : code.all Instruction.isStraight) :
    labelNames code = [] := by
  rw [labelNames, List.filterMap_eq_nil_iff]
  intro i hi
  have hs := List.all_eq_true.1 h i hi
  cases i <;> first | rfl | cases hs

section

variable {μ : Meaning} {program code c₁ c₂ : List Instruction} {i : Instruction} {pc target : Nat}
  {s t : State} {name : String}

namespace Holds

theorem left (h : Holds program pc (c₁ ++ c₂)) : Holds program pc c₁ := by
  obtain ⟨before, after, hp, hpc⟩ := h
  exact ⟨before, c₂ ++ after, by simp [hp], hpc⟩

theorem right (h : Holds program pc (c₁ ++ c₂)) : Holds program (behind pc c₁) c₂ := by
  obtain ⟨before, after, hp, rfl⟩ := h
  exact ⟨before ++ c₁, after, by simp [hp], by simp [behind]⟩

theorem tail (h : Holds program pc (i :: code)) : Holds program (pc + 1) code :=
  right (show Holds program pc ([i] ++ code) from h)

theorem stop (h : Holds program pc code) : Holds program (behind pc code) [] :=
  right (show Holds program pc (code ++ []) by rwa [List.append_nil])

theorem head (h : Holds program pc (i :: code)) : program[pc]? = some i := by
  obtain ⟨before, after, rfl, rfl⟩ := h
  simp

end Holds

/-- A label that is defined once is found where it stands. -/
theorem idxOf?_label (hn : (labelNames program).Nodup)
    (hl : Holds program pc (.label name :: code)) :
    program.idxOf? (.label name) = some pc := by
  obtain ⟨before, after, rfl, rfl⟩ := hl
  have hbefore : Instruction.label name ∉ before := by
    intro hm
    have hm := mem_labelNames.2 hm
    rw [labelNames_append, labelNames_append, List.append_assoc] at hn
    exact (List.nodup_append.1 hn).2.2 name hm name (by simp) rfl
  rw [List.idxOf?_eq_some_iff]
  refine ⟨by simp, by simp, ?_⟩
  intro j hj heq
  apply hbefore
  have hj' : j < (before ++ .label name :: code).length := by
    rw [List.length_append]
    omega
  rw [List.getElem_append_left hj', List.getElem_append_left hj] at heq
  exact heq ▸ List.getElem_mem hj

theorem step_label (hl : Holds program pc (.label name :: code)) :
    step μ program ⟨pc, s⟩ = some ⟨pc + 1, s⟩ := by
  rw [step, hl.head]

theorem step_goto (hn : (labelNames program).Nodup) (hi : Holds program pc (.goto name :: c₁))
    (hl : Holds program target (.label name :: c₂)) :
    step μ program ⟨pc, s⟩ = some ⟨target, s⟩ := by
  rw [step, hi.head]
  simp only [idxOf?_label hn hl, Option.map_some]

/-- A conditional jump takes its condition off the stack, and goes on if it is 0. -/
theorem step_ifGoto_zero (hi : Holds program pc (.ifGoto name :: code)) {stack : List Word}
    (hs : s.stack = 0 :: stack) : step μ program ⟨pc, s⟩ = some ⟨pc + 1, { s with stack }⟩ := by
  rw [step, hi.head]
  simp only [hs, if_true]

theorem step_ifGoto (hn : (labelNames program).Nodup) (hi : Holds program pc (.ifGoto name :: c₁))
    (hl : Holds program target (.label name :: c₂)) {v : Word} {stack : List Word}
    (hs : s.stack = v :: stack) (hv : v ≠ 0) :
    step μ program ⟨pc, s⟩ = some ⟨target, { s with stack }⟩ := by
  rw [step, hi.head]
  simp only [hs, if_neg hv, idxOf?_label hn hl, Option.map_some]

theorem step_effect (hi : program[pc]? = some i) (hs : effect μ s i = some t) :
    step μ program ⟨pc, s⟩ = some ⟨pc + 1, t⟩ := by
  rw [step, hi]
  cases i with
  | label _ | goto _ | ifGoto _ => cases hs
  | _ => simp only [hs, Option.map_some]

/-- Instructions without jumps run from the first to the last. -/
theorem reaches_exec (h : Holds program pc code) (hx : exec μ code s = some t) :
    Reaches μ program ⟨pc, s⟩ ⟨behind pc code, t⟩ := by
  induction code generalizing pc s with
  | nil =>
    cases hx
    exact .refl
  | cons i code ih =>
    obtain ⟨u, hi, hx⟩ := Option.bind_eq_some_iff.1 hx
    rw [behind_cons]
    exact .head (step_effect h.head hi) (ih h.tail hx)

/-- The machine stops at a `return`. -/
theorem step_return {c : Config} (hi : program[c.pc]? = some .return) : step μ program c = none := by
  rw [step, hi]
  rfl

/-- A run stops in one configuration. -/
theorem Reaches.unique {c d d' : Config} (h : Reaches μ program c d) (h' : Reaches μ program c d')
    (hd : step μ program d = none) (hd' : step μ program d' = none) : d = d' := by
  have hstops {d e : Config} (hd : step μ program d = none) (he : Reaches μ program d e) :
      d = e := by
    rcases Relation.ReflTransGen.cases_head he with rfl | ⟨_, hstep, -⟩
    · rfl
    · rw [hd] at hstep
      cases hstep
  have hdeterministic : Relator.RightUnique fun c d => step μ program c = some d :=
    fun _ _ _ h h' => Option.some.inj (h.symm.trans h')
  rcases Relation.ReflTransGen.total_of_right_unique hdeterministic h h' with hrest | hrest
  · exact hstops hd hrest
  · exact (hstops hd' hrest).symm

end

end JackToolchain.Vm
