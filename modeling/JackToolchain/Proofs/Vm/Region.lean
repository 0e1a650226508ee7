import JackToolchain.Proofs.Vm.Run

/-!
# Runs through a region of code

The machine goes through code until it leaves it, at its end or at a `return`. It may never leave:
it may go around a loop for ever, and a call may not come back.

* `Library`: what operators and calls compute, and which calls come back.
* `Passes`: instructions without jumps, passed from the first to the last.
* `LeavesIn`, `Leaves`: the machine leaves a region of code, and it does so in one way.
* `LeavesIn.exists_passes`, `LeavesIn.of_passes`: it gets out of instructions without jumps exactly
  if it passes them.
* `Glides`: steps that are always taken, and only towards one configuration.
-/

namespace JackToolchain.Vm

/-- What the operators and the calls of a program compute, and which calls come back at all. -/
structure Library extends Meaning where
  comesBack : String → List Word → Memory → Prop

/-- How the machine leaves code: at its end, or at a `return` in it. -/
inductive Exit where
  | ended | returned
deriving DecidableEq

namespace Library

variable (lib : Library)

/-- The machine gets past an instruction, unless that is a call that does not come back. -/
def Proceeds (s : State) : Instruction → Prop
  | .call name arguments =>
    lib.comesBack name (s.stack.take arguments).reverse s.store.toMemory
  | _ => True

/-- Instructions without jumps take the machine from a state to another. -/
def Passes : List Instruction → State → State → Prop
  | [], s, t => s = t
  | i :: code, s, t =>
    lib.Proceeds s i ∧ ∃ u, effect lib.toMeaning s i = some u ∧ Passes code u t

variable {lib} {code : List Instruction} {s t : State}

/-- Instructions that are passed do what they do where all calls come back. -/
theorem Passes.exec_eq (h : lib.Passes code s t) : exec lib.toMeaning code s = some t := by
  induction code generalizing s with
  | nil => exact congrArg some h
  | cons i code ih =>
    obtain ⟨-, u, hu, hcode⟩ := h
    rw [exec, hu, Option.bind_some, ih hcode]

end Library

/-- An instruction without a jump has its effect, and the next one follows. -/
theorem step_of_straight {μ : Meaning} {program : List Instruction} {i : Instruction} {c : Config}
    (hi : program[c.pc]? = some i) (hs : i.isStraight) :
    step μ program c = (effect μ c.state i).map (⟨c.pc + 1, ·⟩) := by
  rw [step, hi]
  cases i <;> first | rfl | cases hs

/-! ## Leaving a region -/

section

variable (lib : Library) (program : List Instruction) (start stop : Nat)

/-- Within a number of steps the machine leaves the code between two indices. -/
inductive LeavesIn : Nat → Config → Exit → State → Prop where
  | ended {n : Nat} {s : State} : LeavesIn n ⟨stop, s⟩ .ended s
  | returned {n pc : Nat} {s : State} (hpc : start ≤ pc ∧ pc < stop)
    (hi : program[pc]? = some .return) : LeavesIn n ⟨pc, s⟩ .returned s
  | step {n : Nat} {c d : Config} {i : Instruction} {exit : Exit} {t : State}
    (hpc : start ≤ c.pc ∧ c.pc < stop) (hi : program[c.pc]? = some i)
    (hback : lib.Proceeds c.state i) (hd : step lib.toMeaning program c = some d)
    (h : LeavesIn n d exit t) : LeavesIn (n + 1) c exit t

/-- The machine leaves the code between two indices. -/
def Leaves (c : Config) (exit : Exit) (t : State) : Prop :=
  ∃ n, LeavesIn lib program start stop n c exit t

/-- Code stands in a program, between two indices. -/
structure Within (pc : Nat) (code : List Instruction) : Prop where
  holds : Holds program pc code
  start_le : start ≤ pc
  le_stop : behind pc code ≤ stop

/-- The machine takes a number of steps from one configuration to another, whatever it does
behind them. -/
def Glides (k : Nat) (c d : Config) : Prop :=
  ∀ n exit t, LeavesIn lib program start stop n c exit t ↔
    ∃ m, n = m + k ∧ LeavesIn lib program start stop m d exit t

end

section

variable {lib : Library} {program code c₁ c₂ : List Instruction} {start stop pc target k m n : Nat}
  {i : Instruction} {c d e : Config} {exit : Exit} {s t u : State} {name : String}

namespace Within

theorem left (h : Within program start stop pc (c₁ ++ c₂)) : Within program start stop pc c₁ := by
  refine ⟨h.holds.left, h.start_le, ?_⟩
  have hle := h.le_stop
  rw [behind_append] at hle
  exact Nat.le_trans (le_behind ..) hle

theorem right (h : Within program start stop pc (c₁ ++ c₂)) :
    Within program start stop (behind pc c₁) c₂ := by
  refine ⟨h.holds.right, Nat.le_trans h.start_le (le_behind ..), ?_⟩
  rw [← behind_append]
  exact h.le_stop

theorem tail (h : Within program start stop pc (i :: code)) :
    Within program start stop (pc + 1) code :=
  right (show Within program start stop pc ([i] ++ code) from h)

theorem inside (h : Within program start stop pc (i :: code)) : start ≤ pc ∧ pc < stop := by
  have hle := h.le_stop
  rw [behind, List.length_cons] at hle
  exact ⟨h.start_le, by omega⟩

end Within

namespace LeavesIn

theorem mono (h : LeavesIn lib program start stop n c exit t) (hle : n ≤ m) :
    LeavesIn lib program start stop m c exit t := by
  induction h generalizing m with
  | ended => exact .ended
  | returned hpc hi => exact .returned hpc hi
  | step hpc hi hback hd _ ih =>
    cases m with
    | zero => omega
    | succ m => exact .step hpc hi hback hd (ih (by omega))

/-- At the end the machine has left. -/
theorem at_stop (h : LeavesIn lib program start stop n ⟨stop, s⟩ exit t) :
    exit = .ended ∧ t = s := by
  cases h with
  | ended => exact ⟨rfl, rfl⟩
  | returned hpc => omega
  | step hpc => exact absurd hpc.2 (Nat.lt_irrefl _)

/-- At a `return` the machine leaves. -/
theorem at_return (hw : Within program start stop pc (.return :: code))
    (h : LeavesIn lib program start stop n ⟨pc, s⟩ exit t) : exit = .returned ∧ t = s := by
  have hinside := hw.inside
  cases h with
  | ended => omega
  | returned => exact ⟨rfl, rfl⟩
  | step _ _ _ hd =>
    rw [Vm.step, hw.holds.head] at hd
    cases hd

/-- At any other instruction the machine takes a step. -/
theorem exists_step (hw : Within program start stop pc (i :: code)) (hi : i ≠ .return)
    (h : LeavesIn lib program start stop n ⟨pc, s⟩ exit t) :
    ∃ m d, n = m + 1 ∧ lib.Proceeds s i ∧ Vm.step lib.toMeaning program ⟨pc, s⟩ = some d ∧
      LeavesIn lib program start stop m d exit t := by
  have hinside := hw.inside
  cases h with
  | ended => omega
  | returned _ hreturn =>
    rw [hw.holds.head] at hreturn
    exact absurd (Option.some.inj hreturn) hi
  | @step m _ d j _ _ _ hj hback hd hrest =>
    rw [hw.holds.head] at hj
    obtain rfl := Option.some.inj hj
    exact ⟨m, d, rfl, hback, hd, hrest⟩

/-- The machine leaves code in one way. -/
theorem unique {exit' : Exit} {t' : State} (h : LeavesIn lib program start stop n c exit t)
    (h' : LeavesIn lib program start stop m c exit' t') : exit = exit' ∧ t = t' := by
  induction h generalizing m with
  | ended =>
    obtain ⟨rfl, rfl⟩ := h'.at_stop
    exact ⟨rfl, rfl⟩
  | returned hpc hi =>
    cases h' with
    | ended => omega
    | returned => exact ⟨rfl, rfl⟩
    | step _ _ _ hd =>
      rw [Vm.step, hi] at hd
      cases hd
  | step hpc hi hback hd _ ih =>
    cases h' with
    | ended => exact absurd hpc.2 (Nat.lt_irrefl _)
    | returned _ hreturn =>
      rw [Vm.step, hreturn] at hd
      cases hd
    | step _ _ _ hd' hrest =>
      obtain rfl := Option.some.inj (hd.symm.trans hd')
      exact ih hrest

/-- The machine gets out of instructions without jumps only by passing them. -/
theorem exists_passes (hw : Within program start stop pc code)
    (hs : code.all Instruction.isStraight)
    (h : LeavesIn lib program start stop n ⟨pc, s⟩ exit t) :
    ∃ u m, lib.Passes code s u ∧ n = m + code.length ∧
      LeavesIn lib program start stop m ⟨behind pc code, u⟩ exit t := by
  induction code generalizing pc s n with
  | nil => exact ⟨s, n, rfl, rfl, h⟩
  | cons i code ih =>
    rw [List.all_cons, Bool.and_eq_true] at hs
    obtain ⟨hi, hs⟩ := hs
    have hne : i ≠ .return := by
      rintro rfl
      cases hi
    obtain ⟨m, d, rfl, hback, hd, hrest⟩ := h.exists_step hw hne
    obtain ⟨u, hu, rfl⟩ : ∃ u, effect lib.toMeaning s i = some u ∧ d = ⟨pc + 1, u⟩ := by
      rw [step_of_straight hw.holds.head hi] at hd
      obtain ⟨u, hu, rfl⟩ := Option.map_eq_some_iff.1 hd
      exact ⟨u, hu, rfl⟩
    obtain ⟨v, m, hpasses, rfl, hout⟩ := ih hw.tail hs hrest
    have hcons : behind pc (i :: code) = behind (pc + 1) code := behind_append pc [i] code
    rw [hcons]
    exact ⟨v, m, ⟨hback, u, hu, hpasses⟩, by rw [List.length_cons]; omega, hout⟩

/-- Behind instructions that are passed the machine goes on. -/
theorem of_passes (hw : Within program start stop pc code) (hp : lib.Passes code s u)
    (h : LeavesIn lib program start stop m ⟨behind pc code, u⟩ exit t) :
    LeavesIn lib program start stop (m + code.length) ⟨pc, s⟩ exit t := by
  induction code generalizing pc s with
  | nil =>
    obtain rfl := hp
    exact h
  | cons i code ih =>
    obtain ⟨hback, v, hv, hp⟩ := hp
    have hcons : behind pc (i :: code) = behind (pc + 1) code := behind_append pc [i] code
    rw [hcons] at h
    have hrest := ih hw.tail hp h
    exact .step hw.inside hw.holds.head hback (step_effect hw.holds.head hv) hrest

end LeavesIn

theorem Leaves.unique {exit' : Exit} {t' : State} (h : Leaves lib program start stop c exit t)
    (h' : Leaves lib program start stop c exit' t') : exit = exit' ∧ t = t' := by
  obtain ⟨n, hn⟩ := h
  obtain ⟨m, hm⟩ := h'
  exact hn.unique hm

namespace Glides

theorem refl (c : Config) : Glides lib program start stop 0 c c := by
  intro n exit t
  simp

theorem trans {j : Nat} (h₁ : Glides lib program start stop j c d)
    (h₂ : Glides lib program start stop k d e) : Glides lib program start stop (k + j) c e := by
  intro n exit t
  rw [h₁]
  constructor
  · rintro ⟨_, rfl, hd⟩
    obtain ⟨m, rfl, he⟩ := (h₂ _ _ _).1 hd
    exact ⟨m, Nat.add_assoc .., he⟩
  · rintro ⟨m, rfl, he⟩
    exact ⟨m + k, (Nat.add_assoc ..).symm, (h₂ _ _ _).2 ⟨m, rfl, he⟩⟩

/-- A step that waits for no call. -/
theorem single (hw : Within program start stop pc (i :: code)) (hi : i ≠ .return)
    (hback : lib.Proceeds s i) (hd : step lib.toMeaning program ⟨pc, s⟩ = some d) :
    Glides lib program start stop 1 ⟨pc, s⟩ d := by
  intro n exit t
  constructor
  · intro h
    obtain ⟨m, d', rfl, -, hd', hrest⟩ := h.exists_step hw hi
    obtain rfl := Option.some.inj (hd'.symm.trans hd)
    exact ⟨m, rfl, hrest⟩
  · rintro ⟨m, rfl, h⟩
    exact .step hw.inside hw.holds.head hback hd h

theorem label (hw : Within program start stop pc (.label name :: code)) :
    Glides lib program start stop 1 ⟨pc, s⟩ ⟨pc + 1, s⟩ :=
  single hw nofun trivial (step_label hw.holds)

theorem goto (hn : (labelNames program).Nodup)
    (hw : Within program start stop pc (.goto name :: c₁))
    (hl : Holds program target (.label name :: c₂)) :
    Glides lib program start stop 1 ⟨pc, s⟩ ⟨target, s⟩ :=
  single hw nofun trivial (step_goto hn hw.holds hl)

theorem ifGoto_zero (hw : Within program start stop pc (.ifGoto name :: code)) :
    Glides lib program start stop 1 ⟨pc, { s with stack := 0 :: s.stack }⟩ ⟨pc + 1, s⟩ :=
  single hw nofun trivial (step_ifGoto_zero hw.holds rfl)

theorem ifGoto (hn : (labelNames program).Nodup)
    (hw : Within program start stop pc (.ifGoto name :: c₁))
    (hl : Holds program target (.label name :: c₂)) {v : Word} (hv : v ≠ 0) :
    Glides lib program start stop 1 ⟨pc, { s with stack := v :: s.stack }⟩ ⟨target, s⟩ :=
  single hw nofun trivial (step_ifGoto hn hw.holds hl rfl hv)

theorem not (hw : Within program start stop pc (.operate .not :: code)) (v : Word) :
    Glides lib program start stop 1 ⟨pc, { s with stack := v :: s.stack }⟩
      ⟨pc + 1, { s with stack := lib.not v :: s.stack }⟩ := by
  refine single hw nofun trivial (step_effect hw.holds.head ?_)
  cases s with
  | mk stack store that temps => cases stack <;> rfl

end Glides

end

end JackToolchain.Vm
